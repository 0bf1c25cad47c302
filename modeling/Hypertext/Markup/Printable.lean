import Hypertext.Number.Numeral
import Hypertext.Markup.Element

/-! Which trees have a text. Infinity and NaN have none in markup, so a tree is looked through
before the first piece of it is written. The look-through keeps the path of open elements on a stack
and stops at the first bad number in document order. -/

namespace Hypertext

/-- A number without a text, and the tag of the element it belongs to. -/
structure UnwritableNumber where
  tag : Text
  value : Binary64
  deriving DecidableEq, Repr

def UnwritableNumber.message (n : UnwritableNumber) : Text :=
  "Cannot serialize non-finite number ".toList ++ n.value.toText ++ " inside <".toList ++ n.tag ++
    ">".toList

/-- An element that has been entered, and the number of its children that have been passed. -/
structure OpenElement where
  element : Element
  passed : Nat

namespace OpenElement

def start (e : Element) : OpenElement := ⟨e, 0⟩

def child? (f : OpenElement) : Option Node := f.element.children[f.passed]?

def advance (f : OpenElement) : OpenElement := { f with passed := f.passed + 1 }

def rest (f : OpenElement) : List Node := f.element.children.drop f.passed

theorem rest_eq_cons {f : OpenElement} {node : Node} (h : f.child? = some node) :
    f.rest = node :: f.advance.rest := by
  obtain ⟨bound, here⟩ := List.getElem?_eq_some_iff.mp h
  simp only [rest, advance]
  rw [List.drop_eq_getElem_cons bound, here]

end OpenElement

mutual

/-- The steps of a walk through a tree: two for an element, which is entered and left. -/
def Element.steps : Element → Nat
  | ⟨_, _, children, _⟩ => 2 + stepsOfNodes children

def stepsOfNodes : List Node → Nat
  | [] => 0
  | .element e :: rest => e.steps + stepsOfNodes rest
  | .text _ :: rest => 1 + stepsOfNodes rest
  | .number _ :: rest => 1 + stepsOfNodes rest
  | .raw _ :: rest => 1 + stepsOfNodes rest

end

theorem Element.steps_eq (e : Element) : e.steps = 2 + stepsOfNodes e.children := by
  cases e
  rfl

theorem stepsOfNodes_lt_cons (node : Node) (rest : List Node) :
    stepsOfNodes rest < stepsOfNodes (node :: rest) := by
  cases node with
  | element e =>
      have := e.steps_eq
      simp only [stepsOfNodes]
      omega
  | text t => simp [stepsOfNodes]
  | number x => simp [stepsOfNodes]
  | raw markup => simp [stepsOfNodes]

/-- The steps that remain: each open element has its other children to go through and to be left. -/
def stepsLeft (stack : List OpenElement) : Nat :=
  stack.foldr (fun f steps => 1 + stepsOfNodes f.rest + steps) 0

theorem stepsLeft_leave (f : OpenElement) (outer : List OpenElement) :
    stepsLeft outer < stepsLeft (f :: outer) := by
  simp only [stepsLeft, List.foldr_cons]
  omega

theorem stepsLeft_advance {f : OpenElement} {node : Node} (outer : List OpenElement)
    (h : f.child? = some node) : stepsLeft (f.advance :: outer) < stepsLeft (f :: outer) := by
  have := stepsOfNodes_lt_cons node f.advance.rest
  simp only [stepsLeft, List.foldr_cons, OpenElement.rest_eq_cons h]
  omega

theorem stepsLeft_enter {f : OpenElement} {e : Element} (outer : List OpenElement)
    (h : f.child? = some (.element e)) :
    stepsLeft (OpenElement.start e :: f.advance :: outer) < stepsLeft (f :: outer) := by
  simp only [stepsLeft, List.foldr_cons, OpenElement.rest_eq_cons h, stepsOfNodes,
    Element.steps_eq]
  simp only [OpenElement.rest, OpenElement.start, List.drop_zero]
  omega

theorem stepsLeft_start (e : Element) (outer : List OpenElement) :
    stepsLeft (OpenElement.start e :: outer) + 1 = e.steps + stepsLeft outer := by
  simp only [stepsLeft, List.foldr_cons, OpenElement.rest, OpenElement.start,
    List.drop_zero, Element.steps_eq]
  omega

def nonFinite? (tag : Text) (x : Binary64) : Option UnwritableNumber :=
  if x.isFinite then none else some ⟨tag, x⟩

def Element.badAttribute? (e : Element) : Option UnwritableNumber :=
  e.attributes.findSome? fun a =>
    match a.value with
    | .number x => nonFinite? e.tag x
    | _ => none

/-- Looks through the rest of every open element, innermost first. -/
def firstBad? : List OpenElement → Option UnwritableNumber
  | [] => none
  | f :: outer =>
      match _reached : f.child? with
      | none => firstBad? outer
      | some (.element e) =>
          match e.badAttribute? with
          | some error => some error
          | none => firstBad? (OpenElement.start e :: f.advance :: outer)
      | some (.number x) =>
          match nonFinite? f.element.tag x with
          | some error => some error
          | none => firstBad? (f.advance :: outer)
      | some (.text _) => firstBad? (f.advance :: outer)
      | some (.raw _) => firstBad? (f.advance :: outer)
termination_by stack => stepsLeft stack
decreasing_by
  · exact stepsLeft_leave f outer
  · exact stepsLeft_enter outer ‹_›
  · exact stepsLeft_advance outer ‹_›
  · exact stepsLeft_advance outer ‹_›
  · exact stepsLeft_advance outer ‹_›

/-- The first bad number of a tree: its own attributes, then its children in order. -/
def Element.bad? (e : Element) : Option UnwritableNumber :=
  match e.badAttribute? with
  | some error => some error
  | none => firstBad? [OpenElement.start e]

end Hypertext
