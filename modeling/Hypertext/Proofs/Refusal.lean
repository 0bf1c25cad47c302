import Hypertext.Page.Document
import Hypertext.Proofs.Pieces

/-! Trees that are not written. A tree or a document is written in full or not at all, and it is
refused for the first number in document order that has no text, in the name of the element the
number belongs to. -/

namespace Hypertext

namespace Element

/-- The numbers of an element itself, not of those below it. -/
def Owns (e : Element) (x : Binary64) : Prop :=
  (∃ a ∈ e.attributes, a.value = .number x) ∨ Node.number x ∈ e.children

theorem mem_attributeNumbers {attributes : List Attribute} {x : Binary64} :
    x ∈ attributes.filterMap (·.value.number?) ↔ ∃ a ∈ attributes, a.value = .number x := by
  have number : ∀ value : AttributeValue, value.number? = some x ↔ value = .number x := by
    intro value
    cases value <;> simp [AttributeValue.number?]
  simp [number]

theorem mem_numbers {e : Element} {tag : Text} {x : Binary64} :
    (tag, x) ∈ e.numbers ↔ ∃ f, Node.element f ∈ e.nodes ∧ f.tag = tag ∧ f.Owns x := by
  induction e using Element.induction with
  | step e ih =>
      rw [e.numbers_eq, e.nodes_eq, List.mem_append]
      constructor
      · intro listed
        rcases listed with own | below
        · obtain ⟨y, held, same⟩ := List.mem_map.mp own
          cases same
          exact ⟨e, List.mem_cons_self, rfl, .inl (mem_attributeNumbers.mp held)⟩
        · obtain ⟨child, member, within⟩ := List.mem_flatMap.mp below
          cases child with
          | element g =>
              obtain ⟨f, inside, tagged, owns⟩ := (ih g member).mp within
              exact ⟨f, List.mem_cons_of_mem _ (List.mem_flatMap.mpr ⟨_, member, inside⟩), tagged,
                owns⟩
          | text t => cases within
          | number y =>
              cases List.mem_singleton.mp within
              exact ⟨e, List.mem_cons_self, rfl, .inr member⟩
          | raw markup => cases within
      · intro owned
        obtain ⟨f, inside, rfl, owns⟩ := owned
        rcases List.mem_cons.mp inside with same | inside
        · cases same
          rcases owns with held | child
          · exact .inl (List.mem_map_of_mem (mem_attributeNumbers.mpr held))
          · exact .inr (List.mem_flatMap.mpr ⟨_, child, List.mem_singleton.mpr rfl⟩)
        · obtain ⟨child, member, within⟩ := List.mem_flatMap.mp inside
          cases child with
          | element g =>
              have listed := (ih g member).mpr ⟨f, within, rfl, owns⟩
              exact .inr (List.mem_flatMap.mpr ⟨_, member, listed⟩)
          | text t => simp [Node.nodes] at within
          | number y => simp [Node.nodes] at within
          | raw markup => simp [Node.nodes] at within

/-- The error of a tree: the first of its numbers, in document order, that is not finite. -/
structure FirstBad (e : Element) (error : UnwritableNumber) : Prop where
  bad : error.value.isFinite = false
  owned : ∃ f, Node.element f ∈ e.nodes ∧ f.tag = error.tag ∧ f.Owns error.value
  first : ∃ before after, e.numbers = before ++ (error.tag, error.value) :: after ∧
    ∀ n ∈ before, n.2.isFinite

end Element

theorem nonFinite?_eq_some_iff {tag : Text} {x : Binary64} {error : UnwritableNumber} :
    nonFinite? tag x = some error ↔ (tag, x) = (error.tag, error.value) ∧ x.isFinite = false := by
  cases error with
  | mk owner value => cases finite : x.isFinite <;> simp [nonFinite?, finite]

theorem firstNonFinite?_eq_some_iff {numbers : List (Text × Binary64)} {error : UnwritableNumber} :
    firstNonFinite? numbers = some error ↔
      error.value.isFinite = false ∧
        ∃ before after, numbers = before ++ (error.tag, error.value) :: after ∧
          ∀ n ∈ before, n.2.isFinite := by
  have clean : ∀ n : Text × Binary64, nonFinite? n.1 n.2 = none ↔ n.2.isFinite := by
    simp [nonFinite?]
  simp only [firstNonFinite?, List.findSome?_eq_some_iff, nonFinite?_eq_some_iff, clean]
  constructor
  · intro found
    obtain ⟨before, n, after, split, ⟨same, bad⟩, fine⟩ := found
    obtain rfl : n = (error.tag, error.value) := same
    exact ⟨bad, before, after, split, fine⟩
  · intro found
    obtain ⟨bad, before, after, split, fine⟩ := found
    exact ⟨before, _, after, split, ⟨rfl, bad⟩, fine⟩

namespace Element

variable {e : Element}

theorem bad?_eq_some_iff {error : UnwritableNumber} : e.bad? = some error ↔ e.FirstBad error := by
  rw [e.bad?_eq, firstNonFinite?_eq_some_iff]
  constructor
  · intro found
    obtain ⟨bad, before, after, split, fine⟩ := found
    have listed : (error.tag, error.value) ∈ e.numbers := by
      rw [split]
      exact List.mem_append_right _ List.mem_cons_self
    exact ⟨bad, mem_numbers.mp listed, before, after, split, fine⟩
  · intro first
    exact ⟨first.bad, first.first⟩

theorem bad?_eq_none_iff :
    e.bad? = none ↔ ∀ f, Node.element f ∈ e.nodes → ∀ x, f.Owns x → x.isFinite := by
  rw [e.bad?_eq, firstNonFinite?_eq_none]
  constructor
  · intro finite f inside x owns
    exact finite (f.tag, x) (mem_numbers.mpr ⟨f, inside, rfl, owns⟩)
  · intro finite n listed
    obtain ⟨f, inside, _, owns⟩ := mem_numbers.mp listed
    exact finite f inside n.2 owns

/-- No chunk and no text comes of the tree, not even the document type in front of it. -/
structure Refused (e : Element) (error : UnwritableNumber) : Prop where
  chunks : e.chunks = .error error
  text : e.render = .error error
  documentChunks : (Document.mk e).chunks = .error error
  documentText : (Document.mk e).render = .error error
  body : ToResponse.body (Document.mk e) = .error (.number error)

structure WrittenInFull (e : Element) : Prop where
  chunks : e.chunks = .ok (Chunks.start e)
  text : e.render = .ok e.pieces.flatten
  documentChunks : (Document.mk e).chunks = .ok (Document.doctype :: e.pieces)
  documentText : (Document.mk e).render = .ok (Document.doctype ++ e.pieces.flatten)
  body : ToResponse.body (Document.mk e) = .ok (Document.doctype ++ e.pieces.flatten)

theorem refused_of_bad? {error : UnwritableNumber} (bad : e.bad? = some error) :
    e.Refused error := by
  have chunks : e.chunks = .error error := by rw [Element.chunks, bad]
  have documentChunks : (Document.mk e).chunks = .error error := by
    rw [Document.chunks, chunks]
    rfl
  have documentText : (Document.mk e).render = .error error := by
    rw [Document.render, documentChunks]
    rfl
  refine ⟨chunks, ?_, documentChunks, documentText, ?_⟩
  · rw [render, chunks]
    rfl
  · change (Document.mk e).render.mapError ResponseError.number = _
    rw [documentText]
    rfl

theorem writtenInFull_of_bad? (clean : e.bad? = none) : e.WrittenInFull := by
  have chunks : e.chunks = .ok (Chunks.start e) := by rw [Element.chunks, clean]
  have pieces : (Chunks.start e).toList = e.pieces := by
    rw [Chunks.toList_eq_pending, Chunks.pending_start]
  have documentChunks : (Document.mk e).chunks = .ok (Document.doctype :: e.pieces) := by
    rw [Document.chunks, chunks, ← pieces]
    rfl
  have documentText : (Document.mk e).render = .ok (Document.doctype ++ e.pieces.flatten) := by
    rw [Document.render, documentChunks]
    rfl
  refine ⟨chunks, render_of_chunks chunks, documentChunks, documentText, ?_⟩
  change (Document.mk e).render.mapError ResponseError.number = _
  rw [documentText]
  rfl

theorem refused_iff {error : UnwritableNumber} : e.Refused error ↔ e.bad? = some error := by
  refine ⟨?_, refused_of_bad?⟩
  intro refused
  cases found : e.bad? with
  | none => cases refused.chunks.symm.trans (writtenInFull_of_bad? found).chunks
  | some other => cases refused.chunks.symm.trans (refused_of_bad? found).chunks; rfl

theorem writtenInFull_iff : e.WrittenInFull ↔ e.bad? = none := by
  refine ⟨?_, writtenInFull_of_bad?⟩
  intro written
  cases found : e.bad? with
  | none => rfl
  | some error => cases written.chunks.symm.trans (refused_of_bad? found).chunks

/-- A tree is refused for its first number that is not finite, and written in full if it has none;
the look-through with a stack agrees with the recursion over the tree. -/
theorem refused_iff_firstBad (e : Element) :
    ((∃ error, e.Refused error) ↔
        ∃ f, Node.element f ∈ e.nodes ∧ ∃ x, f.Owns x ∧ x.isFinite = false) ∧
      (e.WrittenInFull ↔ ¬∃ f, Node.element f ∈ e.nodes ∧ ∃ x, f.Owns x ∧ x.isFinite = false) ∧
      (∀ error, e.Refused error ↔ e.FirstBad error) ∧
      e.bad? = firstNonFinite? e.numbers := by
  have clean : e.bad? = none ↔
      ¬∃ f, Node.element f ∈ e.nodes ∧ ∃ x, f.Owns x ∧ x.isFinite = false := by
    rw [bad?_eq_none_iff]
    push Not
    simp only [ne_eq, Bool.not_eq_false]
  refine ⟨?_, writtenInFull_iff.trans clean, ?_, e.bad?_eq⟩
  · rw [← not_iff_not, ← clean, Option.eq_none_iff_forall_ne_some, not_exists]
    exact forall_congr' fun error => not_congr refused_iff
  · intro error
    exact refused_iff.trans bad?_eq_some_iff

-- The list is blamed for the number after its item, and the item for the one that comes before.
example :
    let item (x : Binary64) : Node := .element ⟨"li".toList, [], [.number x], false⟩
    let list (x : Binary64) : Element := ⟨"ul".toList, [], [item x, .number .nan], false⟩
    firstNonFinite? (list (.ofNat 1)).numbers = some ⟨"ul".toList, .nan⟩ ∧
      firstNonFinite? (list (.infinite true)).numbers = some ⟨"li".toList, .infinite true⟩ := by
  decide

end Element

end Hypertext
