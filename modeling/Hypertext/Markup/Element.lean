import Hypertext.Markup.Attribute

/-! Element trees. The types hold any tree; those that `Draft.toElement` and `Element.addToHead`
make have a legal shape. -/

namespace Hypertext

mutual

/-- `void` says that there is neither content nor a closing tag. -/
inductive Element where
  | mk (tag : Text) (attributes : List Attribute) (children : List Node) (void : Bool)

inductive Node where
  | element (e : Element)
  /-- Escaped when it is written. -/
  | text (t : Text)
  | number (x : Binary64)
  /-- Markup that is trusted and written as it stands. -/
  | raw (markup : Text)

end

namespace Element

def tag : Element → Text
  | ⟨tag, _, _, _⟩ => tag

def attributes : Element → List Attribute
  | ⟨_, attributes, _, _⟩ => attributes

def children : Element → List Node
  | ⟨_, _, children, _⟩ => children

def void : Element → Bool
  | ⟨_, _, _, void⟩ => void

def value? (e : Element) (name : Text) : Option AttributeValue :=
  (e.attributes.find? (·.name == name)).map (·.value)

def withChildren (e : Element) (children : List Node) : Element :=
  ⟨e.tag, e.attributes, children, e.void⟩

end Element

end Hypertext
