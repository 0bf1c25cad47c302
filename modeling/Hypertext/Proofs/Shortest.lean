import Hypertext.Proofs.Rounding

/-! The digits of a number are the fewest that read back.

The comparisons in quarters of the last place are comparisons of rationals with one factor taken
out. On one grid the search finds the point nearest to the number among those that round to it, as
what rounds to a number is an interval around it; and all grids it has passed over have none. -/

namespace Hypertext.Binary64

/-- Nearer to `v`, or as near and the larger of the two in size. -/
def Closer (v x y : ℚ) : Prop :=
  |x - v| < |y - v| ∨ |x - v| = |y - v| ∧ |y| ≤ |x|

theorem Closer.trans {v x y z : ℚ} (first : Closer v x y) (second : Closer v y z) :
    Closer v x z := by
  unfold Closer at *
  grind

theorem closer_self (v x : ℚ) : Closer v x x := .inr ⟨rfl, le_rfl⟩

theorem closer_of_below {v x y : ℚ} (less : y ≤ x) (below : x ≤ v) : Closer v x y := by
  obtain rfl | less := less.eq_or_lt
  · exact closer_self v y
  · left
    rw [abs_of_nonpos (by linarith), abs_of_nonpos (by linarith)]
    linarith

theorem closer_of_above {v x y : ℚ} (above : v ≤ x) (less : x ≤ y) : Closer v x y := by
  obtain rfl | less := less.eq_or_lt
  · exact closer_self v x
  · left
    rw [abs_of_nonneg (by linarith), abs_of_nonneg (by linarith)]
    linarith

theorem closer_neg {v x y : ℚ} (closer : Closer v x y) : Closer (-v) (-x) (-y) := by
  have flip : ∀ z : ℚ, |-z - -v| = |z - v| := by
    intro z
    rw [neg_sub_neg, abs_sub_comm]
  rw [Closer, flip, flip, abs_neg, abs_neg]
  exact closer

/-- A quarter of the last place and a step of the grid, with one factor that makes both whole. -/
theorem quarterStep_eq (e p : Int) :
    ∃ c : ℚ, 0 < c ∧ ((quarterStep e p).1 : ℚ) = 2 ^ (e - 2) * c ∧
      ((quarterStep e p).2 : ℚ) = 10 ^ p * c := by
  refine ⟨2 ^ (2 - e).toNat * 10 ^ (-p).toNat, by positivity, ?_, ?_⟩
  · have twos := pow_toNat (two_ne_zero : (2 : ℚ) ≠ 0) (e - 2)
    rw [neg_sub] at twos
    simp only [quarterStep, Nat.pow_eq, Nat.cast_mul, Nat.cast_pow, Nat.cast_ofNat, twos]
    ring
  · have tens := pow_toNat (by norm_num : (10 : ℚ) ≠ 0) p
    simp only [quarterStep, Nat.pow_eq, Nat.cast_mul, Nat.cast_pow, Nat.cast_ofNat, tens]
    ring

theorem quarters_le_iff (a b : Nat) (e p : Int) :
    a * (quarterStep e p).1 ≤ b * (quarterStep e p).2 ↔ (a : ℚ) ≤ quarters e (b * 10 ^ p) := by
  obtain ⟨c, positive, step, unit⟩ := quarterStep_eq e p
  rw [quarters, le_div_iff₀ (by positivity), ← mul_le_mul_iff_left₀ positive, mul_assoc, mul_assoc,
    ← step, ← unit]
  exact_mod_cast Iff.rfl

theorem le_quarters_iff (a b : Nat) (e p : Int) :
    b * (quarterStep e p).2 ≤ a * (quarterStep e p).1 ↔ quarters e (b * 10 ^ p) ≤ (a : ℚ) := by
  obtain ⟨c, positive, step, unit⟩ := quarterStep_eq e p
  rw [quarters, div_le_iff₀ (by positivity), ← mul_le_mul_iff_left₀ positive, mul_assoc, mul_assoc,
    ← step, ← unit]
  exact_mod_cast Iff.rfl

theorem readsBack_iff (m : Nat) (e p : Int) (d : Nat) :
    readsBack m e p d = true ↔ RoundsTo m e (d * 10 ^ p) := by
  unfold readsBack RoundsTo
  simp only
  split
  · rw [Bool.and_eq_true, decide_eq_true_eq, decide_eq_true_eq, quarters_le_iff, le_quarters_iff]
  · rw [Bool.and_eq_true, decide_eq_true_eq, decide_eq_true_eq, ← not_le, ← not_le, ← not_le,
      ← not_le, quarters_le_iff, le_quarters_iff]

variable {m : Nat} {e p : Int}

theorem quarters_size (m : Nat) (e : Int) : quarters e (size m e) = 4 * m := by
  rw [quarters_eq, size_div]

theorem quarters_mono {x y : ℚ} (e : Int) : quarters e x ≤ quarters e y ↔ x ≤ y := by
  unfold quarters
  exact div_le_div_iff_of_pos_right (by positivity)

theorem low_lt (normal : Normal m e) : (lowQuarters m e : ℚ) < 4 * m := by
  rw [low_cast normal]
  split <;> linarith

theorem high_gt (m : Nat) : (4 * m : ℚ) < highQuarters m := by
  rw [high_cast]
  linarith

theorem RoundsTo.pos (normal : Normal m e) {x : ℚ} (rounds : RoundsTo m e x) : 0 < x := by
  have low : (2 : ℚ) ^ 52 ≤ m := by exact_mod_cast normal.low
  have units : 0 < x / 2 ^ e := by
    have lower := rounds.lower normal
    split at lower <;> linarith
  exact (div_pos_iff_of_pos_right (by positivity)).mp units

theorem roundsTo_size (normal : Normal m e) : RoundsTo m e (size m e) := by
  have low := low_lt normal
  have high := high_gt m
  rw [RoundsTo, quarters_size]
  split
  · exact ⟨low.le, high.le⟩
  · exact ⟨low, high⟩

theorem RoundsTo.between {x y z : ℚ} (first : RoundsTo m e x) (last : RoundsTo m e z)
    (less : x ≤ y) (more : y ≤ z) : RoundsTo m e y := by
  rw [← quarters_mono e] at less more
  unfold RoundsTo at *
  by_cases even : m % 2 = 0
  · rw [if_pos even] at *
    exact ⟨first.1.trans less, more.trans last.2⟩
  · rw [if_neg even] at *
    exact ⟨first.1.trans_le less, more.trans_lt last.2⟩

def stepsBelow (m : Nat) (e p : Int) : Nat := 4 * m * (quarterStep e p).1 / (quarterStep e p).2

theorem stepsBelow_bounds (m : Nat) (e p : Int) :
    stepsBelow m e p * (10 : ℚ) ^ p ≤ size m e ∧
      size m e < (stepsBelow m e p + 1 : Nat) * (10 : ℚ) ^ p := by
  have unit_pos : 0 < (quarterStep e p).2 := by simp [quarterStep]
  have four : ((4 * m : Nat) : ℚ) = quarters e (size m e) := by
    rw [quarters_size]
    norm_num
  constructor
  · have fit := Nat.div_mul_le_self (4 * m * (quarterStep e p).1) (quarterStep e p).2
    rw [← stepsBelow, le_quarters_iff, four, quarters_mono] at fit
    exact fit
  · have past := Nat.lt_mul_div_succ (4 * m * (quarterStep e p).1) unit_pos
    rw [← stepsBelow, mul_comm (quarterStep e p).2, ← not_le, le_quarters_iff, four,
      quarters_mono, not_le] at past
    exact past

/-- A point of the grid that rounds to the size has a neighbour of the size on its side. -/
theorem RoundsTo.neighbour (normal : Normal m e) {n : Nat} (rounds : RoundsTo m e (n * 10 ^ p)) :
    n ≤ stepsBelow m e p ∧ RoundsTo m e (stepsBelow m e p * 10 ^ p) ∨
      stepsBelow m e p + 1 ≤ n ∧ RoundsTo m e ((stepsBelow m e p + 1 : Nat) * 10 ^ p) := by
  obtain ⟨below, above⟩ := stepsBelow_bounds m e p
  have step_pos : (0 : ℚ) < 10 ^ p := by positivity
  obtain less | more := Nat.lt_or_ge (stepsBelow m e p) n
  · right
    have less : (stepsBelow m e p + 1 : Nat) * (10 : ℚ) ^ p ≤ n * 10 ^ p := by
      rw [mul_le_mul_iff_left₀ step_pos]
      exact_mod_cast less
    exact ⟨by omega, (roundsTo_size normal).between rounds above.le less⟩
  · left
    have more : n * (10 : ℚ) ^ p ≤ stepsBelow m e p * 10 ^ p := by
      rw [mul_le_mul_iff_left₀ step_pos]
      exact_mod_cast more
    exact ⟨by omega, rounds.between (roundsTo_size normal) more below⟩

/-- The point of a grid that is nearest among those that round to the size. -/
structure Nearest (m : Nat) (e p : Int) (d : Nat) : Prop where
  rounds : RoundsTo m e (d * 10 ^ p)
  closer : ∀ n : Nat, RoundsTo m e (n * 10 ^ p) → Closer (size m e) (d * 10 ^ p) (n * 10 ^ p)

theorem onGrid?_eq (m : Nat) (e p : Int) :
    onGrid? m e p =
      match readsBack m e p (stepsBelow m e p), readsBack m e p (stepsBelow m e p + 1) with
      | true, true =>
          some (if 2 * (4 * m * (quarterStep e p).1) <
              (2 * stepsBelow m e p + 1) * (quarterStep e p).2
            then stepsBelow m e p else stepsBelow m e p + 1)
      | true, false => some (stepsBelow m e p)
      | false, true => some (stepsBelow m e p + 1)
      | false, false => none := rfl

theorem onGrid?_eq_none (normal : Normal m e) (miss : onGrid? m e p = none) (n : Nat) :
    ¬ RoundsTo m e (n * 10 ^ p) := by
  intro rounds
  have found := rounds.neighbour normal
  rw [← readsBack_iff, ← readsBack_iff] at found
  rw [onGrid?_eq] at miss
  split at miss <;> simp_all

theorem closer_below {n : Nat} (less : n ≤ stepsBelow m e p) :
    Closer (size m e) (stepsBelow m e p * 10 ^ p) (n * 10 ^ p) := by
  apply closer_of_below
  · gcongr
  · exact (stepsBelow_bounds m e p).1

theorem closer_above {n : Nat} (less : stepsBelow m e p + 1 ≤ n) :
    Closer (size m e) ((stepsBelow m e p + 1 : Nat) * 10 ^ p) (n * 10 ^ p) := by
  apply closer_of_above
  · exact (stepsBelow_bounds m e p).2.le
  · gcongr

theorem nearer_iff (m : Nat) (e p : Int) :
    2 * (4 * m * (quarterStep e p).1) < (2 * stepsBelow m e p + 1) * (quarterStep e p).2 ↔
      2 * size m e < (2 * stepsBelow m e p + 1) * 10 ^ p := by
  have eight : ((2 * (4 * m) : Nat) : ℚ) = quarters e (2 * size m e) := by
    rw [quarters, mul_div_assoc, ← quarters, quarters_size]
    norm_num
  rw [← mul_assoc, ← not_le, le_quarters_iff, eight, quarters_mono, not_le]
  push_cast
  exact Iff.rfl

theorem closer_lower (nearer : 2 * size m e < (2 * stepsBelow m e p + 1) * 10 ^ p) :
    Closer (size m e) (stepsBelow m e p * 10 ^ p) ((stepsBelow m e p + 1 : Nat) * 10 ^ p) := by
  obtain ⟨below, above⟩ := stepsBelow_bounds m e p
  left
  rw [abs_of_nonpos (by linarith), abs_of_nonneg (by linarith)]
  push_cast
  linarith

theorem closer_upper (nearer : (2 * stepsBelow m e p + 1) * 10 ^ p ≤ 2 * size m e) :
    Closer (size m e) ((stepsBelow m e p + 1 : Nat) * 10 ^ p) (stepsBelow m e p * 10 ^ p) := by
  obtain ⟨below, above⟩ := stepsBelow_bounds m e p
  have near : |(stepsBelow m e p + 1 : Nat) * (10 : ℚ) ^ p - size m e| ≤
      |stepsBelow m e p * (10 : ℚ) ^ p - size m e| := by
    rw [abs_of_nonneg (by linarith), abs_of_nonpos (by linarith)]
    push_cast
    linarith
  obtain less | tie := near.lt_or_eq
  · exact .inl less
  · right
    refine ⟨tie, ?_⟩
    rw [abs_of_nonneg (by positivity), abs_of_nonneg (by positivity)]
    gcongr
    omega

theorem onGrid?_eq_some (normal : Normal m e) {d : Nat} (hit : onGrid? m e p = some d) :
    Nearest m e p d := by
  have found := fun (n : Nat) (rounds : RoundsTo m e (n * 10 ^ p)) => rounds.neighbour normal
  rw [onGrid?_eq] at hit
  split at hit
  case h_1 lower upper =>
    rw [readsBack_iff] at lower upper
    split at hit
    case isTrue nearer =>
      obtain rfl := Option.some.inj hit
      rw [nearer_iff] at nearer
      refine ⟨lower, fun n rounds => ?_⟩
      obtain ⟨less, _⟩ | ⟨more, _⟩ := found n rounds
      · exact closer_below less
      · exact (closer_lower nearer).trans (closer_above more)
    case isFalse nearer =>
      obtain rfl := Option.some.inj hit
      rw [nearer_iff] at nearer
      refine ⟨upper, fun n rounds => ?_⟩
      obtain ⟨less, _⟩ | ⟨more, _⟩ := found n rounds
      · exact (closer_upper (not_lt.mp nearer)).trans (closer_below less)
      · exact closer_above more
  case h_2 lower upper =>
    obtain rfl := Option.some.inj hit
    rw [← Bool.not_eq_true, readsBack_iff] at upper
    refine ⟨(readsBack_iff ..).mp lower, fun n rounds => ?_⟩
    obtain ⟨less, _⟩ | ⟨_, other⟩ := found n rounds
    · exact closer_below less
    · exact absurd other upper
  case h_3 lower upper =>
    obtain rfl := Option.some.inj hit
    rw [← Bool.not_eq_true, readsBack_iff] at lower
    refine ⟨(readsBack_iff ..).mp upper, fun n rounds => ?_⟩
    obtain ⟨_, other⟩ | ⟨more, _⟩ := found n rounds
    · exact absurd other lower
    · exact closer_above more
  case h_4 => simp at hit

theorem search_spec (m : Nat) (e : Int) (steps : Nat) (p : Int)
    (hits : ∃ t < steps, onGrid? m e (p - t) ≠ none) :
    onGrid? m e (search m e steps p).2 = some (search m e steps p).1 ∧
      ∀ q, (search m e steps p).2 < q → q ≤ p → onGrid? m e q = none := by
  induction steps generalizing p with
  | zero =>
      obtain ⟨t, less, _⟩ := hits
      omega
  | succ steps ih =>
      cases here : onGrid? m e p with
      | some d =>
          simp only [search, here, true_and]
          omega
      | none =>
          have later : ∃ t < steps, onGrid? m e (p - 1 - t) ≠ none := by
            obtain ⟨t, less, hit⟩ := hits
            cases t with
            | zero =>
                rw [Nat.cast_zero, sub_zero] at hit
                exact absurd here hit
            | succ t =>
                refine ⟨t, by omega, ?_⟩
                rw [Nat.cast_succ, add_comm, ← sub_sub] at hit
                exact hit
          simp only [search, here]
          obtain ⟨found, passed⟩ := ih (p - 1) later
          refine ⟨found, fun q above upto => ?_⟩
          obtain rfl | less := upto.eq_or_lt
          · exact here
          · exact passed q above (by omega)

/-- The quotient `30103 / 100000` is just above the logarithm of two. -/
theorem two_pow_le (s : Nat) : 2 ^ s ≤ 10 ^ (s * 30103 / 100000 + 1) := by
  have ratio : 2 ^ 100000 ≤ 10 ^ 30103 := by decide +kernel
  apply (Nat.pow_le_pow_iff_left (by norm_num : 100000 ≠ 0)).mp
  calc (2 ^ s) ^ 100000
      = (2 ^ 100000) ^ s := by rw [← pow_mul, ← pow_mul, mul_comm]
    _ ≤ (10 ^ 30103) ^ s := Nat.pow_le_pow_left ratio s
    _ = 10 ^ (30103 * s) := by rw [← pow_mul]
    _ ≤ 10 ^ ((s * 30103 / 100000 + 1) * 100000) :=
        Nat.pow_le_pow_right (by norm_num) (by omega)
    _ = (10 ^ (s * 30103 / 100000 + 1)) ^ 100000 := by rw [← pow_mul]

theorem ten_pow_le {s : Nat} (small : s ≤ 100000) : 10 ^ (s * 30103 / 100000) ≤ 2 ^ (s + 1) := by
  have ratio : 10 ^ 30103 ≤ 2 ^ 100001 := by decide +kernel
  apply (Nat.pow_le_pow_iff_left (by norm_num : 100000 ≠ 0)).mp
  calc (10 ^ (s * 30103 / 100000)) ^ 100000
      = 10 ^ (s * 30103 / 100000 * 100000) := by rw [← pow_mul]
    _ ≤ 10 ^ (30103 * s) := Nat.pow_le_pow_right (by norm_num) (by omega)
    _ = (10 ^ 30103) ^ s := by rw [← pow_mul]
    _ ≤ (2 ^ 100001) ^ s := Nat.pow_le_pow_left ratio s
    _ = 2 ^ (100001 * s) := by rw [← pow_mul]
    _ ≤ 2 ^ ((s + 1) * 100000) := Nat.pow_le_pow_right (by norm_num) (by omega)
    _ = (2 ^ (s + 1)) ^ 100000 := by rw [← pow_mul]

def startPlace (e : Int) : Int := (53 + e) * 30103 / 100000 + 1

theorem shortest_eq (normal : Normal m e) : shortest m e = search m e 20 (startPlace e) := by
  have bits : m.log2 = 52 := by
    rw [Nat.log2_eq_iff (by have := normal.low; omega)]
    exact ⟨normal.low, normal.high⟩
  simp only [shortest, bits, startPlace]
  rfl

theorem startPlace_eq {e : Int} {s : Nat} (bits : 53 + e = s) :
    startPlace e = (s * 30103 / 100000 : Nat) + 1 := by
  rw [startPlace, bits]
  omega

theorem two_zpow_le_start {e : Int} (whole : 0 ≤ 53 + e) :
    (2 : ℚ) ^ (53 + e) ≤ 10 ^ startPlace e := by
  obtain ⟨s, bits⟩ := Int.eq_ofNat_of_zero_le whole
  rw [startPlace_eq bits, bits, ← Nat.cast_succ, zpow_natCast, zpow_natCast]
  exact_mod_cast two_pow_le s

theorem ten_zpow_le_quarter {e : Int} (whole : 0 ≤ 53 + e) (below : e ≤ 971) :
    (10 : ℚ) ^ (startPlace e - 19) ≤ 2 ^ (e - 2) := by
  obtain ⟨s, bits⟩ := Int.eq_ofNat_of_zero_le whole
  have step : (10 : ℚ) ^ (s * 30103 / 100000) ≤ 2 ^ (s + 1) := by
    exact_mod_cast ten_pow_le (by omega : s ≤ 100000)
  have place : startPlace e - 19 = (s * 30103 / 100000 : Nat) - 18 := by
    rw [startPlace_eq bits]
    ring
  have quarter : e - 2 = (s + 1 : Nat) - 56 := by
    push_cast
    omega
  rw [place, quarter, zpow_sub₀ (by norm_num), zpow_sub₀ (by norm_num), zpow_natCast, zpow_natCast]
  calc (10 : ℚ) ^ (s * 30103 / 100000) / 10 ^ (18 : ℤ)
      ≤ 2 ^ (s + 1) / 10 ^ (18 : ℤ) := by gcongr
    _ ≤ 2 ^ (s + 1) / 2 ^ (56 : ℤ) := by
        gcongr
        norm_num

/-- A grid finer than a quarter of the last place has a point that rounds to the size. -/
theorem onGrid?_ne_none (normal : Normal m e) (fine : (10 : ℚ) ^ p ≤ 2 ^ (e - 2)) :
    onGrid? m e p ≠ none := by
  intro miss
  apply onGrid?_eq_none normal miss (stepsBelow m e p)
  obtain ⟨below, above⟩ := stepsBelow_bounds m e p
  have upper : quarters e (stepsBelow m e p * 10 ^ p) ≤ 4 * m := by
    rw [← quarters_size m e, quarters_mono]
    exact below
  have lower : (4 * m - 1 : ℚ) < quarters e (stepsBelow m e p * 10 ^ p) := by
    have one : quarters e (2 ^ (e - 2)) = 1 := div_self (by positivity)
    have gap : quarters e (size m e) < quarters e (stepsBelow m e p * 10 ^ p) + 1 := by
      rw [← one, quarters, quarters, quarters, ← add_div]
      apply div_lt_div_of_pos_right _ (by positivity)
      push_cast at above
      linarith
    rw [quarters_size] at gap
    linarith
  have low := low_cast normal
  have : (lowQuarters m e : ℚ) ≤ 4 * m - 1 := by
    rw [low]
    split <;> linarith
  have := high_gt m
  unfold RoundsTo
  split
  · constructor <;> linarith
  · constructor <;> linarith

theorem not_roundsTo_of_start (normal : Normal m e) (whole : 0 ≤ 53 + e) {q : Int}
    (coarse : startPlace e ≤ q) (n : Nat) : ¬ RoundsTo m e (n * 10 ^ q) := by
  intro rounds
  have one_le : (1 : ℚ) ≤ n := by
    have positive := rounds.pos normal
    cases n with
    | zero => simp at positive
    | succ n => simp
  have large : (2 : ℚ) ^ (53 + e) ≤ n * 10 ^ q := by
    calc (2 : ℚ) ^ (53 + e)
        ≤ 10 ^ startPlace e := two_zpow_le_start whole
      _ ≤ 10 ^ q := zpow_le_zpow_right₀ (by norm_num) coarse
      _ ≤ n * 10 ^ q := le_mul_of_one_le_left (by positivity) one_le
  have all_bits : quarters e (2 ^ (53 + e)) = 4 * 2 ^ 53 := by
    rw [quarters_eq, zpow_add₀ two_ne_zero, mul_div_cancel_right₀ _ (by positivity)]
    norm_num
  have upper := rounds.le.2
  rw [high_cast] at upper
  have := (quarters_mono e).mpr large
  have : (m : ℚ) + 1 ≤ 2 ^ 53 := by exact_mod_cast normal.high
  linarith

/-- What `shortest` finds has the fewest digits and is the nearest with so few. -/
theorem shortest_spec (normal : Normal m e) (whole : 0 ≤ 53 + e) :
    Nearest m e (shortest m e).2 (shortest m e).1 ∧
      ∀ (q : Int) (n : Nat), RoundsTo m e (n * 10 ^ q) → q ≤ (shortest m e).2 := by
  have hits : ∃ t : Nat, t < 20 ∧ onGrid? m e (startPlace e - t) ≠ none :=
    ⟨19, by norm_num, onGrid?_ne_none normal (ten_zpow_le_quarter whole normal.below)⟩
  rw [shortest_eq normal]
  obtain ⟨found, passed⟩ := search_spec m e 20 (startPlace e) hits
  refine ⟨onGrid?_eq_some normal found, fun q n rounds => ?_⟩
  by_contra! coarser
  obtain upto | beyond := le_total q (startPlace e)
  · exact onGrid?_eq_none normal (passed q coarser upto) n rounds
  · exact not_roundsTo_of_start normal whole beyond n rounds

end Hypertext.Binary64
