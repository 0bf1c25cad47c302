import Hypertext.Text.Basic

/-! Cutting a text at a character. -/

namespace Hypertext.Text

/-- The stretches between the occurrences of `mark`, one more than there are occurrences. -/
def splitOn (mark : Char) : Text → List Text
  | [] => [[]]
  | c :: rest =>
      if c = mark then [] :: splitOn mark rest else (splitOn mark rest).modifyHead (c :: ·)

/-- What stands before and after the first `mark`; `none` when there is none. -/
def splitFirst? (mark : Char) : Text → Option (Text × Text)
  | [] => none
  | c :: rest =>
      if c = mark then some ([], rest)
      else (splitFirst? mark rest).map fun halves => (c :: halves.1, halves.2)

theorem splitOn_ne_nil (mark : Char) (t : Text) : splitOn mark t ≠ [] := by
  induction t with
  | nil => simp [splitOn]
  | cons c rest ih =>
      by_cases h : c = mark <;> simp [splitOn, h, List.modifyHead_eq_nil_iff, ih]

section Marks

variable {mark : Char} {u : Text}

theorem splitOn_of_ne {c : Char} (other : c ≠ mark) (t : Text) :
    splitOn mark (c :: t) = (splitOn mark t).modifyHead (c :: ·) := by
  rw [splitOn, if_neg other]

theorem splitOn_append (a b : Text) :
    splitOn mark (a ++ mark :: b) = splitOn mark a ++ splitOn mark b := by
  induction a with
  | nil => simp [splitOn]
  | cons c rest ih =>
      by_cases here : c = mark
      · rw [List.cons_append, splitOn, if_pos here, splitOn, if_pos here, ih, List.cons_append]
      · obtain ⟨first, others, split⟩ := List.exists_cons_of_ne_nil (splitOn_ne_nil mark rest)
        rw [List.cons_append, splitOn_of_ne here, splitOn_of_ne here, ih, split]
        rfl

theorem splitOn_eq_singleton (absent : mark ∉ u) : splitOn mark u = [u] := by
  induction u with
  | nil => rfl
  | cons c rest ih =>
      rw [List.mem_cons, not_or] at absent
      rw [splitOn_of_ne (Ne.symm absent.1), ih absent.2]
      rfl

theorem splitOn_append_mark (absent : mark ∉ u) (t : Text) :
    splitOn mark (u ++ mark :: t) = u :: splitOn mark t := by
  rw [splitOn_append, splitOn_eq_singleton absent]
  rfl

theorem intercalate_splitOn (t : Text) : List.intercalate [mark] (splitOn mark t) = t := by
  induction t with
  | nil => rfl
  | cons c rest ih =>
      obtain ⟨first, others, split⟩ := List.exists_cons_of_ne_nil (splitOn_ne_nil mark rest)
      rw [split] at ih
      by_cases here : c = mark
      · rw [splitOn, if_pos here, split, List.intercalate_cons_cons, ih, here]
        rfl
      · rw [splitOn_of_ne here, split, List.modifyHead_cons, ← ih]
        cases others with
        | nil => rw [List.intercalate_singleton, List.intercalate_singleton]
        | cons second more =>
            rw [List.intercalate_cons_cons, List.intercalate_cons_cons]
            rfl

theorem not_mem_of_mem_splitOn {t : Text} (h : u ∈ splitOn mark t) : mark ∉ u := by
  induction t generalizing u with
  | nil =>
      rw [List.mem_singleton.mp h]
      exact List.not_mem_nil
  | cons c rest ih =>
      by_cases here : c = mark
      · rw [splitOn, if_pos here] at h
        rcases List.mem_cons.mp h with same | later
        · rw [same]
          exact List.not_mem_nil
        · exact ih later
      · rw [splitOn_of_ne here] at h
        obtain ⟨first, others, split⟩ := List.exists_cons_of_ne_nil (splitOn_ne_nil mark rest)
        rw [split] at h ih
        rcases List.mem_cons.mp h with same | later
        · rw [same, List.mem_cons, not_or]
          exact ⟨Ne.symm here, ih List.mem_cons_self⟩
        · exact ih (List.mem_cons_of_mem _ later)

theorem splitFirst?_append_mark (absent : mark ∉ u) (t : Text) :
    splitFirst? mark (u ++ mark :: t) = some (u, t) := by
  induction u with
  | nil => rw [List.nil_append, splitFirst?, if_pos rfl]
  | cons c rest ih =>
      rw [List.mem_cons, not_or] at absent
      rw [List.cons_append, splitFirst?, if_neg (Ne.symm absent.1), ih absent.2]
      rfl

theorem not_mem_of_splitFirst? {t before after : Text}
    (h : splitFirst? mark t = some (before, after)) : mark ∉ before := by
  induction t generalizing before with
  | nil => cases h
  | cons c rest ih =>
      rw [splitFirst?] at h
      split at h
      · cases h
        exact List.not_mem_nil
      · next other =>
        obtain ⟨halves, split, same⟩ := Option.map_eq_some_iff.mp h
        cases same
        rw [List.mem_cons, not_or]
        exact ⟨Ne.symm other, ih split⟩

end Marks

theorem splitFirst?_eq_some {mark : Char} {t before after : Text}
    (h : splitFirst? mark t = some (before, after)) : t = before ++ mark :: after := by
  induction t generalizing before with
  | nil => simp [splitFirst?] at h
  | cons c rest ih =>
      by_cases hc : c = mark
      · simp [splitFirst?, hc] at h
        simp [hc, h]
      · simp only [splitFirst?, hc, if_false, Option.map_eq_some_iff, Prod.mk.injEq] at h
        obtain ⟨halves, split, rfl, rfl⟩ := h
        simp [ih split]

/-- No stretch of characters with `p` goes on into the text. -/
def Stops (p : Char → Bool) (t : Text) : Prop := ∀ c ∈ t.head?, p c = false

theorem append_inj_of_stops {p : Char → Bool} {u v x y : Text} (hu : ∀ c ∈ u, p c)
    (hv : ∀ c ∈ v, p c) (hx : x.Stops p) (hy : y.Stops p) (h : u ++ x = v ++ y) :
    u = v ∧ x = y := by
  induction u generalizing v with
  | nil =>
      cases v with
      | nil => exact ⟨rfl, h⟩
      | cons d v =>
          have goes : p d = true := hv d List.mem_cons_self
          have first : x.head? = some d := congrArg List.head? h
          rw [hx d first] at goes
          cases goes
  | cons c u ih =>
      cases v with
      | nil =>
          have goes : p c = true := hu c List.mem_cons_self
          have first : y.head? = some c := congrArg List.head? h.symm
          rw [hy c first] at goes
          cases goes
      | cons d v =>
          obtain ⟨rfl, tails⟩ := List.cons.inj h
          obtain ⟨rfl, rests⟩ := ih (fun e member => hu e (List.mem_cons_of_mem _ member))
            (fun e member => hv e (List.mem_cons_of_mem _ member)) tails
          exact ⟨rfl, rests⟩

end Hypertext.Text
