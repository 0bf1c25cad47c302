import Hypertext.Style.Inline
import Hypertext.Style.Selector

/-! Style sheets: the rules that a style stands for, in document order. A scope's own rule comes
first and the rules of its nested scopes follow, each under the combined selector. -/

namespace Hypertext

structure Rule where
  selector : Text
  properties : List Property
  /-- The number of scopes around the rule's own. -/
  depth : Nat
  deriving DecidableEq, Repr

structure Sheet where
  rules : List Rule
  deriving DecidableEq, Repr

namespace Sheet

/-- The properties of a scope. All of them have to stand before the nested scopes; `nested` says
whether one has been passed. -/
def properties (selector : Text) (nested : Bool) : Style → Except StyleError (List Property)
  | .nil => .ok []
  | .scope _ _ rest => properties selector true rest
  | .property key value rest =>
      if nested then .error (.propertyAfterScope selector key)
      else if selector.isEmpty then .error (.propertyOutside key)
      else do
        let property ← Property.ofEntry selector key value
        let others ← properties selector nested rest
        .ok (property :: others)

/-- The rule of a scope; a scope without properties has none. -/
def ownRule (selector : Text) (depth : Nat) (properties : List Property) : List Rule :=
  if properties.isEmpty then [] else [⟨selector, properties, depth⟩]

/-- Scopes at the top level, which has no selector, are at depth zero. -/
def depthWithin (selector : Text) (depth : Nat) : Nat :=
  if selector.isEmpty then 0 else depth + 1

def nestedRules (selector : Text) (depth : Nat) : Style → Except StyleError (List Rule)
  | .nil => .ok []
  | .property _ _ rest => nestedRules selector depth rest
  | .scope key inner rest => do
      let child ← Selector.combine selector key
      let own ← properties child false inner
      let below ← nestedRules child (depthWithin selector depth) inner
      let others ← nestedRules selector depth rest
      .ok (ownRule child (depthWithin selector depth) own ++ below ++ others)

def ofStyle (s : Style) : Except StyleError Sheet := do
  let own ← properties [] false s
  let below ← nestedRules [] 0 s
  .ok ⟨ownRule [] 0 own ++ below⟩

/-- The sheet with an inline style as the body of one scope. -/
def ofInline (selector css : Text) : Except StyleError Sheet := do
  let scope ← Style.ofInline css
  ofStyle (Style.under selector scope)

def size (s : Sheet) : Nat := s.rules.length

def items (s : Sheet) : List (Text × List Property) :=
  s.rules.map fun r => (r.selector, r.properties)

def isEmpty (s : Sheet) : Bool := s.rules.isEmpty

end Sheet

end Hypertext
