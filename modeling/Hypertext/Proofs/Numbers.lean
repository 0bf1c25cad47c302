import Hypertext.Markup.Chunks
import Hypertext.Proofs.Shape

/-! The look-through with a stack finds what the recursion finds: the first number without a text
among all numbers of the tree in document order. -/

namespace Hypertext

def AttributeValue.number? : AttributeValue → Option Binary64
  | .number x => some x
  | _ => none

mutual

/-- The numbers of a tree in document order, each with the tag of the element it belongs to. -/
def Element.numbers : Element → List (Text × Binary64)
  | ⟨tag, attributes, children, _⟩ =>
      (attributes.filterMap (·.value.number?)).map (tag, ·) ++ numbersAmong tag children

def Node.numbers (tag : Text) : Node → List (Text × Binary64)
  | .element e => e.numbers
  | .text _ => []
  | .number x => [(tag, x)]
  | .raw _ => []

def numbersAmong (tag : Text) : List Node → List (Text × Binary64)
  | [] => []
  | node :: rest => node.numbers tag ++ numbersAmong tag rest

end

theorem numbersAmong_eq_flatMap (tag : Text) (nodes : List Node) :
    numbersAmong tag nodes = nodes.flatMap (Node.numbers tag) := by
  induction nodes with
  | nil => rfl
  | cons node rest ih => simp [numbersAmong, ih]

theorem Element.numbers_eq (e : Element) :
    e.numbers = (e.attributes.filterMap (·.value.number?)).map (e.tag, ·) ++
      e.children.flatMap (Node.numbers e.tag) := by
  rw [← numbersAmong_eq_flatMap]
  cases e
  rfl

def firstNonFinite? (numbers : List (Text × Binary64)) : Option UnwritableNumber :=
  numbers.findSome? fun n => nonFinite? n.1 n.2

theorem firstNonFinite?_append (before after : List (Text × Binary64)) :
    firstNonFinite? (before ++ after) = (firstNonFinite? before).or (firstNonFinite? after) :=
  List.findSome?_append

theorem firstNonFinite?_eq_none {numbers : List (Text × Binary64)} :
    firstNonFinite? numbers = none ↔ ∀ n ∈ numbers, n.2.isFinite := by
  simp [firstNonFinite?, nonFinite?]

theorem Element.badAttribute?_eq (e : Element) :
    e.badAttribute? =
      firstNonFinite? ((e.attributes.filterMap (·.value.number?)).map (e.tag, ·)) := by
  unfold badAttribute?
  induction e.attributes with
  | nil => rfl
  | cons a rest ih =>
      cases h : a.value <;>
        simp [firstNonFinite?, AttributeValue.number?, h, ih, List.findSome?_cons]

/-- The numbers that a look-through has still to pass. -/
def OpenElement.numbers (f : OpenElement) : List (Text × Binary64) :=
  f.rest.flatMap (Node.numbers f.element.tag)

theorem OpenElement.numbers_of_child {f : OpenElement} {node : Node} (h : f.child? = some node) :
    f.numbers = node.numbers f.element.tag ++ f.advance.numbers := by
  simp only [numbers, rest_eq_cons h, List.flatMap_cons]
  rfl

theorem OpenElement.numbers_of_end {f : OpenElement} (h : f.child? = none) : f.numbers = [] := by
  have passed : f.element.children.length ≤ f.passed := List.getElem?_eq_none_iff.mp h
  simp [numbers, rest, List.drop_eq_nil_of_le passed]

theorem OpenElement.numbers_start (e : Element) :
    e.numbers = (e.attributes.filterMap (·.value.number?)).map (e.tag, ·) ++
      (OpenElement.start e).numbers := by
  rw [e.numbers_eq]
  rfl

theorem firstNonFinite?_child {f : OpenElement} {node : Node} (outer : List OpenElement)
    (h : f.child? = some node) :
    firstNonFinite? ((f :: outer).flatMap OpenElement.numbers) =
      (firstNonFinite? (node.numbers f.element.tag)).or
        (firstNonFinite? ((f.advance :: outer).flatMap OpenElement.numbers)) := by
  rw [List.flatMap_cons, OpenElement.numbers_of_child h, List.append_assoc,
    firstNonFinite?_append]
  rfl

theorem firstNonFinite?_singleton (tag : Text) (x : Binary64) :
    firstNonFinite? [(tag, x)] = nonFinite? tag x := by
  cases h : nonFinite? tag x <;> simp [firstNonFinite?, h]

theorem firstNonFinite?_element (e : Element) (outer : List OpenElement) :
    (firstNonFinite? e.numbers).or (firstNonFinite? (outer.flatMap OpenElement.numbers)) =
      e.badAttribute?.or
        (firstNonFinite? ((OpenElement.start e :: outer).flatMap OpenElement.numbers)) := by
  rw [OpenElement.numbers_start, firstNonFinite?_append, ← Element.badAttribute?_eq,
    List.flatMap_cons, firstNonFinite?_append, Option.or_assoc]

theorem firstBad?_eq (stack : List OpenElement) :
    firstBad? stack = firstNonFinite? (stack.flatMap OpenElement.numbers) := by
  fun_induction firstBad? stack with
  | case1 => rfl
  | case2 f outer ended ih => simp [ih, OpenElement.numbers_of_end ended]
  | case3 f outer e reached error bad =>
      rw [firstNonFinite?_child outer reached, Node.numbers, firstNonFinite?_element, bad]
      rfl
  | case4 f outer e reached clean ih =>
      rw [firstNonFinite?_child outer reached, Node.numbers, firstNonFinite?_element, clean, ih]
      rfl
  | case5 f outer x reached error bad =>
      rw [firstNonFinite?_child outer reached, Node.numbers, firstNonFinite?_singleton, bad]
      rfl
  | case6 f outer x reached finite ih =>
      rw [firstNonFinite?_child outer reached, Node.numbers, firstNonFinite?_singleton, finite, ih]
      rfl
  | case7 f outer t reached ih =>
      rw [firstNonFinite?_child outer reached, ih]
      rfl
  | case8 f outer markup reached ih =>
      rw [firstNonFinite?_child outer reached, ih]
      rfl

theorem Element.bad?_eq (e : Element) : e.bad? = firstNonFinite? e.numbers := by
  rw [bad?, badAttribute?_eq, firstBad?_eq, OpenElement.numbers_start, firstNonFinite?_append]
  cases firstNonFinite? ((e.attributes.filterMap (·.value.number?)).map (e.tag, ·)) <;> simp

theorem Element.chunks_of_finite {e : Element} (finite : ∀ n ∈ e.numbers, n.2.isFinite) :
    e.chunks = .ok (Chunks.start e) := by
  have none : e.bad? = none := by
    rw [e.bad?_eq]
    exact firstNonFinite?_eq_none.mpr finite
  rw [chunks, none]

theorem Element.paragraph_finite : ∀ n ∈ paragraph.numbers, n.2.isFinite := by
  decide

end Hypertext
