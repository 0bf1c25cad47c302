import Hypertext.Markup.Escape
import Hypertext.Markup.Printable

/-! Markup in chunks: one for each tag and each run of text, made one at a time.

The state holds the path of open elements, so it grows with the depth of a tree and not with its
size. `Chunks.toList` runs it to the end, and a rendered tree is what that yields, put together. -/

namespace Hypertext

def attributeText (a : Attribute) : Text :=
  match a.value with
  | .flag false => []
  | .null => []
  | .flag true => ' ' :: a.name
  | .text t => quoted t
  | .number x => quoted x.toText
  | .list items => quoted (List.intercalate [' '] items)
where
  quoted (value : Text) : Text :=
    ' ' :: a.name ++ "=\"".toList ++ escape value ++ ['"']

def startTag (e : Element) : Text :=
  '<' :: e.tag ++ e.attributes.flatMap attributeText ++ ['>']

def endTag (e : Element) : Text := '<' :: '/' :: e.tag ++ ['>']

/-- The root as long as it is unopened, and the path of open elements, innermost first. -/
structure Chunks where
  root? : Option Element
  stack : List OpenElement

namespace Chunks

def start (e : Element) : Chunks := ⟨some e, []⟩

/-- A void element is written but never open. -/
def enter (e : Element) (stack : List OpenElement) : Text × Chunks :=
  (startTag e, ⟨none, if e.void then stack else OpenElement.start e :: stack⟩)

/-- The next chunk and the state after it; `none` when all is written. -/
def next? : Chunks → Option (Text × Chunks)
  | ⟨some e, stack⟩ => some (enter e stack)
  | ⟨none, []⟩ => none
  | ⟨none, f :: outer⟩ =>
      match f.child? with
      | none => some (endTag f.element, ⟨none, outer⟩)
      | some (.element e) => some (enter e (f.advance :: outer))
      | some (.text t) => some (escape t, ⟨none, f.advance :: outer⟩)
      | some (.number x) => some (x.toText, ⟨none, f.advance :: outer⟩)
      | some (.raw markup) => some (markup, ⟨none, f.advance :: outer⟩)

def measure (c : Chunks) : Nat :=
  (match c.root? with
    | some e => e.steps
    | none => 0) + stepsLeft c.stack

theorem measure_enter (e : Element) (stack : List OpenElement) :
    (enter e stack).2.measure < e.steps + stepsLeft stack := by
  have := stepsLeft_start e stack
  have := e.steps_eq
  cases h : e.void <;>
    simp only [enter, measure, h, if_true, Bool.false_eq_true, if_false] <;> omega

/-- Every chunk is a step of the walk, so the chunks come to an end. -/
theorem measure_next {c after : Chunks} {chunk : Text}
    (h : c.next? = some (chunk, after)) : after.measure < c.measure := by
  match c with
  | ⟨some e, stack⟩ =>
      obtain rfl : (enter e stack).2 = after := by simp_all [next?]
      exact measure_enter e stack
  | ⟨none, []⟩ => simp [next?] at h
  | ⟨none, f :: outer⟩ =>
      simp only [next?] at h
      split at h
      · obtain ⟨rfl, rfl⟩ : endTag f.element = chunk ∧ (⟨none, outer⟩ : Chunks) = after := by
          simpa using h
        simpa [measure] using stepsLeft_leave f outer
      · next e reached =>
        obtain rfl : (enter e (f.advance :: outer)).2 = after := by simp_all
        have := measure_enter e (f.advance :: outer)
        have := stepsLeft_enter outer reached
        have := stepsLeft_start e (f.advance :: outer)
        simp only [measure] at *
        omega
      all_goals
        next reached =>
        obtain ⟨_, rfl⟩ := (by simpa using h : _ ∧ (⟨none, f.advance :: outer⟩ : Chunks) = after)
        simpa [measure] using stepsLeft_advance outer reached

def toList (c : Chunks) : List Text :=
  match _next : c.next? with
  | none => []
  | some (chunk, after) => chunk :: after.toList
termination_by c.measure
decreasing_by exact measure_next ‹_›

end Chunks

namespace Element

/-- The chunks of a tree all of whose numbers have a text. -/
def chunks (e : Element) : Except UnwritableNumber Chunks :=
  match e.bad? with
  | some error => .error error
  | none => .ok (Chunks.start e)

def render (e : Element) : Except UnwritableNumber Text :=
  e.chunks.map fun chunks => chunks.toList.flatten

end Element

end Hypertext
