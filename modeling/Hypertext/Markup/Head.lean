import Hypertext.Markup.Draft

/-! Adding to the head of a document that is already made. -/

namespace Hypertext.Element

def headTag : Text := "head".toList

def ofHead? : Node → Option Element
  | .element e => if e.tag = headTag then some e else none
  | _ => none

/-- Puts `items` at the end of the head, which becomes the first child. The head is the first one
among the children, or a new one. Without items nothing changes. -/
def addToHead (e : Element) (items : List Node) : Except ShapeError Element :=
  if items.isEmpty then .ok e
  else if e.void then .error (.contentInVoid e.tag 1)
  else
    let head := match e.children.findSome? ofHead? with
      | some head => head.withChildren (head.children ++ items)
      | none => ⟨headTag, [], items, false⟩
    let others := e.children.eraseP fun node => (ofHead? node).isSome
    .ok (e.withChildren (.element head :: others))

end Hypertext.Element
