import Hypertext.Markup.Element

/-! Looking up elements by tag. A search goes below those elements alone that do not match, and only
if it is deep; a single one ends at the first match. -/

namespace Hypertext

structure Search where
  /-- Whether to look below children that do not match. -/
  deep : Bool := false
  /-- Whether to stop at the first match. -/
  single : Bool := false
  deriving DecidableEq, Repr

mutual

/-- The matches below an element, and whether the search has ended. -/
def matchesBelow (tag : Text) (how : Search) : Element → List Element × Bool
  | ⟨_, _, children, _⟩ => matchesAmong tag how children

def matchesAmong (tag : Text) (how : Search) : List Node → List Element × Bool
  | [] => ([], false)
  | .element e :: rest =>
      if e.tag = tag then
        if how.single then ([e], true)
        else
          let (found, ended) := matchesAmong tag how rest
          (e :: found, ended)
      else if how.deep then
        let (inner, ended) := matchesBelow tag how e
        if ended then (inner, true)
        else
          let (found, ended) := matchesAmong tag how rest
          (inner ++ found, ended)
      else matchesAmong tag how rest
  | .text _ :: rest => matchesAmong tag how rest
  | .number _ :: rest => matchesAmong tag how rest
  | .raw _ :: rest => matchesAmong tag how rest

end

namespace Element

/-- The outermost descendants with a tag, in document order. The tag may be given in capitals. -/
def select (e : Element) (tag : Text) (how : Search) : List Element :=
  (matchesBelow (Text.lower tag) how e).1

/-- The first descendant with a tag at any depth. -/
def find? (e : Element) (tag : Text) : Option Element :=
  (e.select tag { deep := true, single := true }).head?

end Element

end Hypertext
