import Hypertext.Markup.Element
import Hypertext.Markup.Tag
import Hypertext.Number.Numeral

/-! Drafts: the parts of an element before they are checked.

`Draft.toElement` is the only way from parts to an element. It refuses what HTML has no place for:
an illegal tag, content in a void element, an illegal name or one that two keys stand for. -/

namespace Hypertext

inductive ShapeError where
  | illegalTag (tag : Text)
  | contentInVoid (tag : Text) (count : Nat)
  | illegalName (tag key : Text)
  | repeatedName (tag name : Text)
  deriving DecidableEq, Repr

def ShapeError.message : ShapeError → Text
  | .illegalTag tag => "Invalid tag name '".toList ++ tag ++ "'".toList
  | .contentInVoid tag count =>
      '<' :: tag ++ "> is a void element and cannot contain children (got ".toList ++
        Text.ofNat count ++ ")".toList
  | .illegalName tag key =>
      "Invalid attribute name '".toList ++ key ++ "' on <".toList ++ tag ++ ">".toList
  | .repeatedName tag name =>
      "Duplicate attribute '".toList ++ name ++ "' on <".toList ++ tag ++ ">".toList

/-- The attributes are still under their keys. -/
structure Draft where
  tag : Text
  attributes : List (Text × AttributeValue) := []
  children : List Node := []

namespace Draft

def withAttribute (d : Draft) (key : Text) (value : AttributeValue) : Draft :=
  { d with attributes := d.attributes ++ [(key, value)] }

def withChild (d : Draft) (node : Node) : Draft :=
  { d with children := d.children ++ [node] }

/-- Names the attributes in order. `seen` holds the names before them; the first key whose name is
illegal or seen before is the error. -/
def named (tag : Text) (seen : List Text) :
    List (Text × AttributeValue) → Except ShapeError (List Attribute)
  | [] => .ok []
  | (key, value) :: rest =>
      let name := Attribute.nameOf key
      if !Attribute.isName name then .error (.illegalName tag key)
      else if seen.contains name then .error (.repeatedName tag name)
      else (named tag (name :: seen) rest).map (⟨name, value⟩ :: ·)

/-- The tag is taken in small letters and checked first, then the children, then the attributes. -/
def toElement (d : Draft) : Except ShapeError Element :=
  let tag := Text.lower d.tag
  let void := Tag.isVoid tag
  if !Tag.isLegal tag then .error (.illegalTag tag)
  else if void && !d.children.isEmpty then .error (.contentInVoid tag d.children.length)
  else (named tag [] d.attributes).map fun attributes => ⟨tag, attributes, d.children, void⟩

end Draft

end Hypertext
