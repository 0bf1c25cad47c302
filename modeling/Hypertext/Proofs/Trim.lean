import Hypertext.Text.Blank
import Mathlib.Data.List.DropRight

/-! Trimmed texts: those with no blank at either end. Trimming makes a text one, and changes no text
that is one. -/

namespace Hypertext.Text

structure Trimmed (t : Text) : Prop where
  first : ∀ c ∈ t.head?, isBlank c = false
  last : ∀ c ∈ t.getLast?, isBlank c = false

theorem dropEndWhile_append {p : Char → Bool} {after : Text} (dropped : ∀ c ∈ after, p c) (t : Text) :
    dropEndWhile p (t ++ after) = dropEndWhile p t := by
  have front : ∀ c ∈ after.reverse, p c := fun c member => dropped c (List.mem_reverse.mp member)
  rw [dropEndWhile, List.reverse_append, List.dropWhile_append_of_pos front, ← dropEndWhile]

theorem trimStart_append (t : Text) : t.takeWhile isBlank ++ trimStart t = t :=
  List.takeWhile_append_dropWhile

theorem trimEnd_append (t : Text) : ∃ after, t = trimEnd t ++ after ∧ ∀ c ∈ after, isBlank c :=
  ⟨t.rtakeWhile isBlank, List.rdropWhile_append_rtakeWhile.symm,
    fun _ member => List.mem_rtakeWhile_imp member⟩

/-- What trimming takes away. -/
theorem exists_trim (t : Text) :
    ∃ before after, t = before ++ (trim t ++ after) ∧ (∀ c ∈ before, isBlank c) ∧
      ∀ c ∈ after, isBlank c := by
  obtain ⟨after, split, blank⟩ := trimEnd_append (trimStart t)
  refine ⟨t.takeWhile isBlank, after, ?_, fun c member => List.mem_takeWhile_imp member, blank⟩
  calc
    t = t.takeWhile isBlank ++ trimStart t := (trimStart_append t).symm
    _ = t.takeWhile isBlank ++ (trim t ++ after) := by
      rw [split, trim, ← split]

theorem head_trimStart (t : Text) : ∀ c ∈ (trimStart t).head?, isBlank c = false := by
  intro c first
  have stop := List.head?_dropWhile_not isBlank t
  rw [← trimStart, show (trimStart t).head? = some c from first] at stop
  simpa using stop

theorem trimmed_trim (t : Text) : Trimmed (trim t) := by
  constructor
  · intro c first
    rcases List.head?_eq_some_iff.mp first with ⟨rest, starts⟩
    obtain ⟨after, split, _⟩ := trimEnd_append (trimStart t)
    apply head_trimStart t c
    rw [split, ← trim, starts]
    rfl
  · intro c last
    have nonempty : trim t ≠ [] := by
      intro empty
      rw [empty] at last
      cases last
    have stop := List.rdropWhile_last_not isBlank (trimStart t) nonempty
    rw [List.getLast?_eq_getLast_of_ne_nil nonempty] at last
    obtain rfl := Option.some.inj last
    exact Bool.eq_false_iff.mpr stop

theorem trimStart_eq_self {t : Text} (first : ∀ c ∈ t.head?, isBlank c = false) :
    trimStart t = t := by
  cases t with
  | nil => rfl
  | cons c rest => simp [trimStart, first c rfl]

theorem trim_eq_self {t : Text} (h : t.Trimmed) : trim t = t := by
  rw [trim, trimStart_eq_self h.first]
  apply List.rdropWhile_eq_self_iff.mpr
  intro nonempty
  simp [h.last _ (List.getLast?_eq_getLast_of_ne_nil nonempty)]

theorem trim_eq_nil_iff {t : Text} : trim t = [] ↔ ∀ c ∈ t, isBlank c := by
  constructor
  · intro empty c member
    obtain ⟨before, after, split, blankBefore, blankAfter⟩ := exists_trim t
    rw [split, empty] at member
    rcases List.mem_append.mp member with member | member
    · exact blankBefore c member
    · exact blankAfter c member
  · intro blank
    have empty : trimStart t = [] := List.dropWhile_eq_nil_iff.mpr blank
    rw [trim, empty]
    rfl

theorem getLast?_trimStart {t : Text} (nonempty : trimStart t ≠ []) :
    (trimStart t).getLast? = t.getLast? := by
  have split := trimStart_append t
  rw [← List.getLast?_append_of_ne_nil (t.takeWhile isBlank) nonempty, split]

theorem trim_space (t : Text) : trim (' ' :: t) = trim t := rfl

theorem trimStart_ne_nil {t : Text} (nonempty : t ≠ [])
    (last : ∀ c ∈ t.getLast?, isBlank c = false) : trimStart t ≠ [] := by
  intro empty
  have blank := List.dropWhile_eq_nil_iff.mp empty _ (List.getLast_mem nonempty)
  rw [last _ (List.getLast?_eq_getLast_of_ne_nil nonempty)] at blank
  cases blank

theorem trimStart_append_left {t : Text} (nonempty : trimStart t ≠ []) (u : Text) :
    trimStart (t ++ u) = trimStart t ++ u := by
  have stops : ¬(t.dropWhile isBlank).isEmpty = true := by simpa [trimStart] using nonempty
  rw [trimStart, List.dropWhile_append, if_neg stops, ← trimStart]

end Hypertext.Text
