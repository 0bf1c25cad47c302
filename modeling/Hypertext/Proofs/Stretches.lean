import Hypertext.Style.Selector
import Hypertext.Proofs.Trim

/-! Splitting at the commas outside brackets. A text is whole if none of its commas splits it.
Depths only grow with the text in front, so a text that is whole on its own is whole anywhere. -/

namespace Hypertext.Selector

theorem depthAfter_mono {d e : Nat} (h : d ≤ e) (c : Char) : depthAfter d c ≤ depthAfter e c := by
  unfold depthAfter
  split_ifs <;> omega

def isPlain (c : Char) : Bool := !List.contains ['(', ')', '[', ']', ','] c

theorem depthAfter_of_isPlain {c : Char} (h : isPlain c) (d : Nat) : depthAfter d c = d := by
  simp only [isPlain, List.contains_cons, Bool.not_eq_true', Bool.or_eq_false_iff,
    beq_eq_false_iff_ne] at h
  simp [depthAfter, h]

theorem isPlain_of_isBlank {c : Char} (h : Text.isBlank c) : isPlain c := by
  by_contra other
  simp only [isPlain, Bool.not_eq_true', Bool.not_eq_false, List.contains_iff_mem, List.mem_cons,
    List.not_mem_nil, or_false] at other
  rcases other with rfl | rfl | rfl | rfl | rfl <;> cases h

theorem stretches_cons_eq_singleton {d : Nat} {c : Char} {rest : Text} :
    stretches d (c :: rest) = [c :: rest] ↔
      ¬(c = ',' ∧ d = 0) ∧ stretches (depthAfter d c) rest = [rest] := by
  simp only [stretches, Bool.and_eq_true, decide_eq_true_eq]
  by_cases comma : c = ',' ∧ d = 0
  · simp [comma]
  · simp only [comma, if_false, not_false_iff, true_and]
    cases stretches (depthAfter d c) rest with
    | nil => simp
    | cons first others => simp

theorem stretches_mono {d e : Nat} {t : Text} (le : d ≤ e) (h : stretches d t = [t]) :
    stretches e t = [t] := by
  induction t generalizing d e with
  | nil => rfl
  | cons c rest ih =>
      obtain ⟨noSplit, later⟩ := stretches_cons_eq_singleton.mp h
      refine stretches_cons_eq_singleton.mpr ⟨?_, ih (depthAfter_mono le c) later⟩
      rintro ⟨rfl, rfl⟩
      exact noSplit ⟨rfl, Nat.le_zero.mp le⟩

/-- A text that is not split, whatever stands before it. -/
def Whole (t : Text) : Prop := ∀ d, stretches d t = [t]

theorem whole_of_zero {t : Text} (h : stretches 0 t = [t]) : Whole t :=
  fun _ => stretches_mono (Nat.zero_le _) h

theorem stretches_append {d : Nat} {u v : Text} (hu : stretches d u = [u]) (hv : Whole v) :
    stretches d (u ++ v) = [u ++ v] := by
  induction u generalizing d with
  | nil => exact hv d
  | cons c rest ih =>
      obtain ⟨noSplit, later⟩ := stretches_cons_eq_singleton.mp hu
      exact stretches_cons_eq_singleton.mpr ⟨noSplit, ih later⟩

theorem stretches_of_append {d : Nat} {u v : Text} (h : stretches d (u ++ v) = [u ++ v]) :
    stretches d u = [u] := by
  induction u generalizing d with
  | nil => rfl
  | cons c rest ih =>
      obtain ⟨noSplit, later⟩ := stretches_cons_eq_singleton.mp h
      exact stretches_cons_eq_singleton.mpr ⟨noSplit, ih later⟩

def endDepth (d : Nat) (t : Text) : Nat := t.foldl depthAfter d

/-- What follows a text that is not split goes on with its one stretch. -/
theorem stretches_append_left {d : Nat} {u : Text} (hu : stretches d u = [u]) (v : Text) :
    stretches d (u ++ v) = (stretches (endDepth d u) v).modifyHead (u ++ ·) := by
  induction u generalizing d with
  | nil => cases h : stretches d v <;> simp [endDepth, h]
  | cons c rest ih =>
      obtain ⟨noSplit, later⟩ := stretches_cons_eq_singleton.mp hu
      have step : stretches d (c :: (rest ++ v)) =
          (stretches (depthAfter d c) (rest ++ v)).modifyHead (c :: ·) := by
        simp [stretches, noSplit]
      rw [List.cons_append, step, ih later, List.modifyHead_modifyHead]
      rfl

namespace Whole

theorem append {u v : Text} (hu : Whole u) (hv : Whole v) : Whole (u ++ v) :=
  fun d => stretches_append (hu d) hv

theorem left {u v : Text} (h : Whole (u ++ v)) : Whole u :=
  fun d => stretches_of_append (h d)

theorem tail {c : Char} {rest : Text} (plain : isPlain c) (h : Whole (c :: rest)) :
    Whole rest := by
  intro d
  have later := (stretches_cons_eq_singleton.mp (h d)).2
  rwa [depthAfter_of_isPlain plain] at later

theorem right {u v : Text} (plain : ∀ c ∈ u, isPlain c) (h : Whole (u ++ v)) : Whole v := by
  induction u with
  | nil => exact h
  | cons c rest ih =>
      exact ih (fun e member => plain e (List.mem_cons_of_mem _ member))
        (h.tail (plain c List.mem_cons_self))

theorem cons {c : Char} {rest : Text} (plain : isPlain c) (h : Whole rest) :
    Whole (c :: rest) := by
  intro d
  refine stretches_cons_eq_singleton.mpr ⟨?_, h _⟩
  rintro ⟨rfl, _⟩
  cases plain

theorem trimStart {t : Text} (h : Whole t) : Whole (Text.trimStart t) := by
  rw [← Text.trimStart_append t] at h
  exact h.right fun c member => isPlain_of_isBlank (List.mem_takeWhile_imp member)

theorem trim {t : Text} (h : Whole t) : Whole (Text.trim t) := by
  obtain ⟨before, after, split, blank, _⟩ := Text.exists_trim t
  rw [split] at h
  exact (h.right fun c member => isPlain_of_isBlank (blank c member)).left

end Whole

/-- The first stretch is not split at the depth where it starts, and no other is at any depth. -/
theorem exists_stretches (d : Nat) (t : Text) :
    ∃ first others, stretches d t = first :: others ∧ stretches d first = [first] ∧
      ∀ u ∈ others, Whole u := by
  induction t generalizing d with
  | nil => exact ⟨[], [], rfl, rfl, by simp⟩
  | cons c rest ih =>
      by_cases comma : c = ',' ∧ d = 0
      · obtain ⟨rfl, rfl⟩ := comma
        obtain ⟨first, others, split, start, whole⟩ := ih 0
        refine ⟨[], first :: others, ?_, rfl, ?_⟩
        · simp [stretches, split]
        · intro u member
          rcases List.mem_cons.mp member with rfl | member
          · exact whole_of_zero start
          · exact whole u member
      · obtain ⟨first, others, split, start, whole⟩ := ih (depthAfter d c)
        refine ⟨c :: first, others, ?_, stretches_cons_eq_singleton.mpr ⟨comma, start⟩, whole⟩
        simp [stretches, comma, split]

theorem whole_of_mem_stretches {t u : Text} (h : u ∈ stretches 0 t) : Whole u := by
  obtain ⟨first, others, split, start, whole⟩ := exists_stretches 0 t
  rw [split] at h
  rcases List.mem_cons.mp h with rfl | h
  · exact whole_of_zero start
  · exact whole u h

theorem stretches_cons_of_isPlain {c : Char} (plain : isPlain c) (d : Nat) (rest : Text) :
    stretches d (c :: rest) = (stretches d rest).modifyHead (c :: ·) := by
  have noComma : c ≠ ',' := by
    rintro rfl
    cases plain
  simp [stretches, noComma, depthAfter_of_isPlain plain]

/-- Where the comma splits, the next alternative keeps the space in front of it. -/
theorem stretches_comma (t : Text) :
    stretches 0 (',' :: ' ' :: t) = [] :: (stretches 0 t).modifyHead (' ' :: ·) := by
  rw [← stretches_cons_of_isPlain rfl]
  simp [stretches]

/-- Where it does not, the two alternatives on its sides are one stretch. -/
theorem stretches_comma_inside {d : Nat} (inside : d ≠ 0) (t : Text) :
    stretches d (',' :: ' ' :: t) = (stretches d t).modifyHead (',' :: ' ' :: ·) := by
  have open_ : depthAfter d ',' = d := by simp [depthAfter]
  rw [stretches, if_neg (by simpa using inside), open_, stretches_cons_of_isPlain rfl,
    List.modifyHead_modifyHead]
  rfl

end Hypertext.Selector
