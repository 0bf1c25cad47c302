import Hypertext.Style.Json

/-! What happens on the way from a style file to its sheet, for the log. -/

namespace Hypertext

inductive Event where
  | read (path : Text) (bytes : Nat)
  | rule (selector : Text) (properties : Nat)
  | compiled (rules : Nat)
  deriving DecidableEq, Repr

/-- The least verbosity at which an event is logged. -/
def Event.verbosity : Event → Nat
  | .read _ _ => 1
  | .rule _ _ => 2
  | .compiled _ => 1

def Rule.event (r : Rule) : Event := .rule r.selector r.properties.length

namespace Sheet

/-- The nested rules that are complete when compiling ends, be it at an error. -/
def nestedFound (selector : Text) (depth : Nat) : Style → List Rule
  | .nil => []
  | .property _ _ rest => nestedFound selector depth rest
  | .scope key inner rest =>
      match Selector.combine selector key with
      | .error _ => []
      | .ok child =>
          match properties child false inner with
          | .error _ => []
          | .ok own =>
              let deeper := depthWithin selector depth
              ownRule child deeper own ++ nestedFound child deeper inner ++
                match nestedRules child deeper inner with
                | .error _ => []
                | .ok _ => nestedFound selector depth rest

def found (s : Style) : List Rule :=
  match properties [] false s with
  | .error _ => []
  | .ok own => ownRule [] 0 own ++ nestedFound [] 0 s

def events (s : Style) : List Event :=
  (found s).map Rule.event ++
    match ofStyle s with
    | .error _ => []
    | .ok sheet => [.compiled sheet.size]

end Sheet

end Hypertext
