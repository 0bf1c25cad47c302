import Mathlib.Algebra.Order.Field.Power
import Mathlib.Algebra.Order.Field.Rat
import Mathlib.Tactic.FieldSimp
import Mathlib.Tactic.Linarith
import Mathlib.Tactic.NormNum
import Mathlib.Tactic.Positivity
import Mathlib.Tactic.Ring
import Hypertext.Number.Shortest

/-! Which numbers a natural number rounds to.

A number with 53 significant bits is the rounding of the rationals between its midpoints with the
two numbers next to it, the midpoints included if its significand is even. What rounds to it is
read off one quotient: a natural number over the power of two that leaves it 53 bits, rounded to
the nearest integer. -/

namespace Hypertext.Binary64

/-- An integer nearest to `x`, and of two the even one. -/
def NearestEven (q : Nat) (x : ℚ) : Prop :=
  |x - q| < 1 / 2 ∨ |x - q| = 1 / 2 ∧ q % 2 = 0

theorem NearestEven.le {q : Nat} {x : ℚ} (nearest : NearestEven q x) : |x - q| ≤ 1 / 2 := by
  obtain nearer | ⟨tie, _⟩ := nearest
  · exact nearer.le
  · exact tie.le

theorem NearestEven.even {q : Nat} {x : ℚ} (nearest : NearestEven q x) (tie : |x - q| = 1 / 2) :
    q % 2 = 0 := by
  obtain nearer | ⟨_, even⟩ := nearest
  · exact absurd tie nearer.ne
  · exact even

/-- Two integers near to the same number are neighbours, and of neighbours one is odd. -/
theorem NearestEven.unique {q r : Nat} {x : ℚ} (hq : NearestEven q x) (hr : NearestEven r x) :
    q = r := by
  have distance : |(q : ℚ) - r| ≤ |x - q| + |x - r| := by
    rw [abs_sub_comm x q]
    exact abs_sub_le (q : ℚ) x r
  by_contra different
  have apart : 1 ≤ |(q : ℚ) - r| := by
    have : (1 : ℤ) ≤ |(q : ℤ) - r| := Int.one_le_abs (by omega)
    exact_mod_cast this
  have := hq.le
  have := hr.le
  have even_q := hq.even (by linarith)
  have even_r := hr.even (by linarith)
  have near : |(q : ℤ) - r| ≤ 1 := by
    have : |(q : ℚ) - r| ≤ 1 := by linarith
    exact_mod_cast this
  have := abs_le.mp near
  omega

theorem div_lt_half_iff (r : Nat) {b : Nat} (positive : 0 < b) :
    (r : ℚ) / b < 1 / 2 ↔ 2 * r < b := by
  rw [div_lt_div_iff₀ (by exact_mod_cast positive) two_pos, one_mul, mul_comm]
  exact_mod_cast Iff.rfl

theorem half_lt_div_iff (r : Nat) {b : Nat} (positive : 0 < b) :
    1 / 2 < (r : ℚ) / b ↔ b < 2 * r := by
  rw [div_lt_div_iff₀ two_pos (by exact_mod_cast positive), one_mul, mul_comm]
  exact_mod_cast Iff.rfl

theorem roundDiv_nearestEven (a : Nat) {b : Nat} (positive : 0 < b) :
    NearestEven (roundDiv a b) (a / b) := by
  have b_pos : (0 : ℚ) < b := by exact_mod_cast positive
  have rest : (a : ℚ) / b - (a / b : Nat) = (a % b : Nat) / b := by
    have : (a : ℚ) = b * (a / b : Nat) + (a % b : Nat) := by
      exact_mod_cast (Nat.div_add_mod a b).symm
    field_simp
    linarith
  have below_one : ((a % b : Nat) : ℚ) / b < 1 := by
    rw [div_lt_one b_pos]
    exact_mod_cast Nat.mod_lt a positive
  unfold roundDiv
  simp only
  split
  case isTrue less =>
    left
    rw [rest, abs_of_nonneg (by positivity)]
    exact (div_lt_half_iff _ positive).mpr less
  case isFalse not_less =>
    split
    case isTrue more =>
      have := (half_lt_div_iff _ positive).mpr more
      left
      rw [Nat.cast_add, Nat.cast_one, ← sub_sub, rest, abs_lt]
      constructor <;> linarith
    case isFalse not_more =>
      rw [← div_lt_half_iff _ positive, not_lt] at not_less
      rw [← half_lt_div_iff _ positive, not_lt] at not_more
      have tie := le_antisymm not_more not_less
      right
      obtain even | odd := Nat.mod_two_eq_zero_or_one (a / b)
      · rw [even, Nat.add_zero, rest, tie]
        exact ⟨by norm_num, even⟩
      · rw [odd, Nat.cast_add, Nat.cast_one, ← sub_sub, rest, tie]
        exact ⟨by norm_num [abs_of_neg], by omega⟩

theorem pow_toNat {a : ℚ} (ha : a ≠ 0) (z : ℤ) : a ^ z.toNat = a ^ z * a ^ (-z).toNat := by
  rw [← zpow_natCast, ← zpow_natCast, ← zpow_add₀ ha]
  congr 1
  omega

def lead (k : Nat) : Int := (k.log2 : Int) - 52

theorem lead_bounds {k : Nat} (nonzero : k ≠ 0) :
    (2 : ℚ) ^ 52 ≤ k / 2 ^ lead k ∧ k / (2 : ℚ) ^ lead k < 2 ^ 53 := by
  have power_pos : (0 : ℚ) < 2 ^ lead k := by positivity
  have split : ∀ n : Nat, (2 : ℚ) ^ n * 2 ^ lead k = 2 ^ ((n : ℤ) + lead k) := by
    intro n
    rw [zpow_add₀ two_ne_zero, zpow_natCast]
  rw [le_div_iff₀ power_pos, div_lt_iff₀ power_pos, split, split]
  have lower : (52 : Nat) + lead k = k.log2 := by simp [lead]
  have upper : (53 : Nat) + lead k = (k.log2 + 1 : Nat) := by
    simp only [lead]
    push_cast
    ring
  rw [lower, upper, zpow_natCast, zpow_natCast]
  exact ⟨by exact_mod_cast Nat.log2_self_le nonzero, by exact_mod_cast Nat.lt_log2_self⟩

theorem scaled_ratio (k : Nat) (exponent : Int) :
    0 < (scaled k 1 exponent).2 ∧
      ((scaled k 1 exponent).1 : ℚ) / (scaled k 1 exponent).2 = k / 2 ^ exponent := by
  constructor
  · simp [scaled]
  · have shift := pow_toNat (two_ne_zero : (2 : ℚ) ≠ 0) exponent
    have bottom_pos : (0 : ℚ) < 2 ^ (-exponent).toNat := by positivity
    simp only [scaled, Nat.pow_eq, Nat.cast_mul, Nat.cast_pow, Nat.cast_ofNat, one_mul,
      shift]
    field_simp

theorem exponentOf_natural {k : Nat} (nonzero : k ≠ 0) : exponentOf k 1 = lead k := by
  obtain ⟨positive, ratio⟩ := scaled_ratio k (lead k)
  have enough : 2 ^ 52 ≤ (scaled k 1 (lead k)).1 / (scaled k 1 (lead k)).2 := by
    have low := (lead_bounds nonzero).1
    rw [← ratio, le_div_iff₀ (by exact_mod_cast positive)] at low
    rw [Nat.le_div_iff_mul_le positive]
    exact_mod_cast low
  have guess : (k.log2 : Int) - (1 : Nat).log2 - 52 = lead k := by
    have : (1 : Nat).log2 = 0 := by decide
    rw [this, lead]
    ring
  unfold exponentOf
  simp only [guess, Nat.pow_eq, Nat.not_lt.mpr enough, if_false]
  have : -52 ≤ lead k := by simp [lead]
  omega

theorem significand_bounds {k q : Nat} (nonzero : k ≠ 0)
    (nearest : NearestEven q (k / 2 ^ lead k)) : 2 ^ 52 ≤ q ∧ q ≤ 2 ^ 53 := by
  obtain ⟨low, high⟩ := lead_bounds nonzero
  have distance := abs_le.mp nearest.le
  have above : (2 : ℚ) ^ 52 < q + 1 := by linarith
  have below : (q : ℚ) < 2 ^ 53 + 1 := by linarith
  have above : 2 ^ 52 < q + 1 := by exact_mod_cast above
  have below : q < 2 ^ 53 + 1 := by exact_mod_cast below
  omega

theorem ofRatio_natural {k : Nat} (nonzero : k ≠ 0) :
    ∃ q, NearestEven q (k / 2 ^ lead k) ∧
      ∀ negative, ofRatio negative k 1 = ofSignificand negative q (lead k) := by
  obtain ⟨positive, ratio⟩ := scaled_ratio k (lead k)
  refine ⟨roundDiv (scaled k 1 (lead k)).1 (scaled k 1 (lead k)).2, ?_, ?_⟩
  · rw [← ratio]
    exact roundDiv_nearestEven _ positive
  · intro negative
    rw [ofRatio, if_neg nonzero, exponentOf_natural nonzero]

/-- Only zero becomes zero, however large a natural number is. -/
theorem ofRatio_ne_zero (negative : Bool) {k : Nat} (nonzero : k ≠ 0) (sign : Bool) :
    ofRatio negative k 1 ≠ zero sign := by
  obtain ⟨q, nearest, rounded⟩ := ofRatio_natural nonzero
  obtain ⟨at_least, _⟩ := significand_bounds nonzero nearest
  rw [rounded, ofSignificand, zero]
  by_cases carried : q = 2 ^ 53
  · simp only [Nat.pow_eq, carried, if_true]
    split <;> simp
  · simp only [Nat.pow_eq, carried, if_false]
    split
    case isTrue => simp
    case isFalse =>
      intro same
      injection same
      omega

structure Normal (m : Nat) (e : Int) : Prop where
  low : 2 ^ 52 ≤ m
  high : m < 2 ^ 53
  above : -1074 < e
  below : e ≤ 971

theorem ofSignificand_eq_iff {m : Nat} {e : Int} (normal : Normal m e) {negative sign : Bool}
    {q : Nat} {exponent : Int} :
    ofSignificand negative q exponent = .finite sign m e ↔
      negative = sign ∧
        (q = m ∧ exponent = e ∨ q = 2 ^ 53 ∧ m = 2 ^ 52 ∧ exponent + 1 = e) := by
  obtain ⟨low, high, above, below⟩ := normal
  unfold ofSignificand
  by_cases carried : q = 2 ^ 53
  · simp only [Nat.pow_eq, carried, if_true]
    split
    case isTrue => simp; omega
    case isFalse => simp; omega
  · simp only [Nat.pow_eq, carried, if_false]
    split
    case isTrue => simp; omega
    case isFalse => simp

/-- `x` in quarters of the last place. -/
def quarters (e : Int) (x : ℚ) : ℚ := x / 2 ^ (e - 2)

theorem quarters_eq (e : Int) (x : ℚ) : quarters e x = 4 * (x / 2 ^ e) := by
  have : (2 : ℚ) ^ (e - 2) = 2 ^ e / 4 := by
    rw [zpow_sub₀ two_ne_zero]
    norm_num
  rw [quarters, this]
  field_simp

/-- The rationals that round to a size. -/
def RoundsTo (m : Nat) (e : Int) (x : ℚ) : Prop :=
  if m % 2 = 0 then lowQuarters m e ≤ quarters e x ∧ quarters e x ≤ highQuarters m
  else lowQuarters m e < quarters e x ∧ quarters e x < highQuarters m

theorem low_cast {m : Nat} {e : Int} (normal : Normal m e) :
    (lowQuarters m e : ℚ) = 4 * m - if m = 2 ^ 52 then 1 else 2 := by
  have := normal.low
  by_cases least : m = 2 ^ 52
  · subst least
    simp only [lowQuarters, Nat.pow_eq, normal.above, and_self, if_true]
    norm_num
  · simp only [lowQuarters, Nat.pow_eq, least, false_and, if_false]
    rw [Nat.cast_sub (by omega)]
    norm_num

theorem high_cast (m : Nat) : (highQuarters m : ℚ) = 4 * m + 2 := by
  simp [highQuarters]

theorem exponent_unique {x : ℚ} {e f : Int}
    (he : (2 : ℚ) ^ 52 ≤ x / 2 ^ e ∧ x / 2 ^ e < (2 : ℚ) ^ 53)
    (hf : (2 : ℚ) ^ 52 ≤ x / 2 ^ f ∧ x / 2 ^ f < (2 : ℚ) ^ 53) : e = f := by
  have ordered : ∀ {e f : Int}, x / 2 ^ e < (2 : ℚ) ^ 53 → (2 : ℚ) ^ 52 ≤ x / 2 ^ f → f ≤ e := by
    intro e f high low
    have e_pos : (0 : ℚ) < 2 ^ e := by positivity
    have f_pos : (0 : ℚ) < 2 ^ f := by positivity
    by_contra less
    have double : (2 : ℚ) * 2 ^ e ≤ 2 ^ f := by
      rw [← zpow_one_add₀ two_ne_zero]
      exact zpow_le_zpow_right₀ one_le_two (by omega)
    rw [div_lt_iff₀ e_pos] at high
    rw [le_div_iff₀ f_pos] at low
    nlinarith
  exact le_antisymm (ordered hf.2 he.1) (ordered he.2 hf.1)

theorem RoundsTo.le {m : Nat} {e : Int} {x : ℚ} (rounds : RoundsTo m e x) :
    lowQuarters m e ≤ quarters e x ∧ quarters e x ≤ highQuarters m := by
  unfold RoundsTo at rounds
  split at rounds
  · exact rounds
  · exact ⟨rounds.1.le, rounds.2.le⟩

theorem NearestEven.roundsTo {m : Nat} {e : Int} {x : ℚ} (normal : Normal m e)
    (nearest : NearestEven m (x / 2 ^ e)) (enough : (2 : ℚ) ^ 52 ≤ x / 2 ^ e) :
    RoundsTo m e x := by
  have low := low_cast normal
  have least : m = 2 ^ 52 → (m : ℚ) ≤ x / 2 ^ e := by
    rintro rfl
    exact_mod_cast enough
  rw [RoundsTo, quarters_eq, low, high_cast]
  have := abs_le.mp nearest.le
  split
  · split
    case isTrue first =>
      have := least first
      constructor <;> linarith
    case isFalse => constructor <;> linarith
  case isFalse odd =>
    obtain nearer | ⟨_, even⟩ := nearest
    · have := abs_lt.mp nearer
      split
      case isTrue first =>
        have := least first
        constructor <;> linarith
      case isFalse => constructor <;> linarith
    · omega

theorem RoundsTo.nearestEven {m : Nat} {e : Int} {x : ℚ} (normal : Normal m e)
    (rounds : RoundsTo m e x) : NearestEven m (x / 2 ^ e) := by
  have low := low_cast normal
  have : (4 * m - 2 : ℚ) ≤ lowQuarters m e := by
    rw [low]
    split <;> linarith
  have high := high_cast m
  unfold RoundsTo at rounds
  rw [quarters_eq] at rounds
  split at rounds
  case isTrue even =>
    have near : |x / 2 ^ e - m| ≤ 1 / 2 := by
      rw [abs_le]
      constructor <;> linarith
    obtain less | tie := near.lt_or_eq
    · exact .inl less
    · exact .inr ⟨tie, even⟩
  case isFalse =>
    left
    rw [abs_lt]
    constructor <;> linarith

theorem div_zpow_sub_one (x : ℚ) (e : Int) : x / 2 ^ (e - 1) = 2 * (x / 2 ^ e) := by
  rw [zpow_sub_one₀ two_ne_zero]
  field_simp

/-- Half of the last place below `2 ^ 52`, which is a whole one of the exponent below. -/
theorem roundsTo_carry {e : Int} {x : ℚ} (normal : Normal (2 ^ 52) e)
    (less : x / 2 ^ e < (2 : ℚ) ^ 52) :
    RoundsTo (2 ^ 52) e x ↔ NearestEven (2 ^ 53) (x / 2 ^ (e - 1)) := by
  have low := low_cast normal
  have high := high_cast (2 ^ 52)
  rw [RoundsTo, if_pos (by norm_num), quarters_eq, low, high, if_pos rfl, NearestEven,
    div_zpow_sub_one]
  norm_num at less ⊢
  rw [abs_of_neg (by linarith)]
  constructor
  · rintro ⟨lower, -⟩
    rw [← le_iff_lt_or_eq]
    linarith
  · rintro near
    have := le_iff_lt_or_eq.mpr near
    constructor <;> linarith

/-- Rounding a natural number gives the one size that it rounds to. -/
theorem ofRatio_eq_finite_iff {m : Nat} {e : Int} (normal : Normal m e) {k : Nat}
    (nonzero : k ≠ 0) {negative sign : Bool} :
    ofRatio negative k 1 = .finite sign m e ↔ negative = sign ∧ RoundsTo m e k := by
  obtain ⟨q, nearest, rounded⟩ := ofRatio_natural nonzero
  have bounds := lead_bounds nonzero
  rw [rounded, ofSignificand_eq_iff normal, and_congr_right_iff]
  rintro -
  constructor
  · rintro (⟨rfl, rfl⟩ | ⟨rfl, rfl, rfl⟩)
    · exact nearest.roundsTo normal bounds.1
    · have less : (k : ℚ) / 2 ^ (lead k + 1) < (2 : ℚ) ^ 52 := by
        have double := div_zpow_sub_one (k : ℚ) (lead k + 1)
        rw [add_sub_cancel_right] at double
        linarith [bounds.2]
      rw [roundsTo_carry normal less, add_sub_cancel_right]
      exact nearest
  · intro rounds
    have near := rounds.nearestEven normal
    have distance := abs_le.mp near.le
    have high : (m : ℚ) + 1 ≤ 2 ^ 53 := by exact_mod_cast normal.high
    by_cases enough : (2 : ℚ) ^ 52 ≤ k / 2 ^ e
    · left
      have lead_eq : lead k = e := exponent_unique bounds ⟨enough, by linarith⟩
      rw [lead_eq] at nearest
      exact ⟨nearest.unique near, lead_eq⟩
    · right
      rw [not_le] at enough
      have least : m = 2 ^ 52 := by
        have : (m : ℚ) < 2 ^ 52 + 1 := by linarith
        have : m < 2 ^ 52 + 1 := by exact_mod_cast this
        have := normal.low
        omega
      subst least
      have carry := (roundsTo_carry normal enough).mp rounds
      have distance := abs_le.mp carry.le
      have lead_eq : lead k = e - 1 := by
        apply exponent_unique bounds
        rw [div_zpow_sub_one] at distance ⊢
        push_cast at distance
        constructor <;> linarith
      rw [lead_eq] at nearest
      exact ⟨nearest.unique carry, rfl, by omega⟩

theorem exists_normal {k : Nat} (nonzero : k ≠ 0) (finite : lead k < 971) :
    ∃ m e, Normal m e ∧ ∀ negative, ofRatio negative k 1 = .finite negative m e := by
  obtain ⟨q, nearest, rounded⟩ := ofRatio_natural nonzero
  obtain ⟨at_least, at_most⟩ := significand_bounds nonzero nearest
  have above : -1074 < lead k := by
    simp only [lead]
    omega
  by_cases carried : q = 2 ^ 53
  · have normal : Normal (2 ^ 52) (lead k + 1) :=
      ⟨le_rfl, by norm_num, by omega, by omega⟩
    refine ⟨2 ^ 52, lead k + 1, normal, fun negative => ?_⟩
    rw [rounded, ofSignificand_eq_iff normal]
    exact ⟨rfl, .inr ⟨carried, rfl, rfl⟩⟩
  · have normal : Normal q (lead k) := ⟨at_least, by omega, above, by omega⟩
    refine ⟨q, lead k, normal, fun negative => ?_⟩
    rw [rounded, ofSignificand_eq_iff normal]
    exact ⟨rfl, .inl ⟨rfl, rfl⟩⟩

def size (m : Nat) (e : Int) : ℚ := m * 2 ^ e

theorem size_div (m : Nat) (e : Int) : size m e / 2 ^ e = m :=
  mul_div_cancel_right₀ _ (by positivity)

/-- In units of the last place the other sizes are at least one away, and half of one below the
least significand. -/
theorem apart_of_normal {m n : Nat} {e f : Int} (normal : Normal m e) (other : Normal n f) :
    size n f / 2 ^ e = m ∨ m + 1 ≤ size n f / 2 ^ e ∨
      size n f / 2 ^ e + (if m = 2 ^ 52 then 1 / 2 else 1) ≤ m := by
  have units : size n f / 2 ^ e = n * 2 ^ (f - e) := by
    rw [size, mul_div_assoc, zpow_sub₀ two_ne_zero]
  have high : (n : ℚ) + 1 ≤ 2 ^ 53 := by exact_mod_cast other.high
  rw [units]
  obtain coarser | finer := le_or_gt e f
  · obtain ⟨t, shift⟩ := Int.eq_ofNat_of_zero_le (sub_nonneg.mpr coarser)
    have whole : (n : ℚ) * 2 ^ (f - e) = (n * 2 ^ t : Nat) := by
      rw [shift, zpow_natCast]
      norm_num
    rw [whole]
    obtain less | same | more := Nat.lt_trichotomy (n * 2 ^ t) m
    · right
      right
      have : ((n * 2 ^ t : Nat) : ℚ) + 1 ≤ m := by exact_mod_cast less
      split <;> linarith
    · left
      rw [same]
    · right
      left
      exact_mod_cast more
  · right
    right
    obtain next | further : f - e = -1 ∨ f - e ≤ -2 := by omega
    · have value : (n : ℚ) * 2 ^ (f - e) = n / 2 := by
        rw [next, zpow_neg_one, div_eq_mul_inv]
      rw [value]
      split
      case isTrue least =>
        rw [least]
        push_cast
        linarith
      case isFalse greater =>
        have : (2 : ℚ) ^ 52 + 1 ≤ m := by
          exact_mod_cast lt_of_le_of_ne normal.low (Ne.symm greater)
        linarith
    · have quarter : (2 : ℚ) ^ (f - e) ≤ 1 / 4 := by
        calc (2 : ℚ) ^ (f - e) ≤ 2 ^ (-2 : ℤ) := zpow_le_zpow_right₀ one_le_two further
          _ = 1 / 4 := by norm_num
      have : (n : ℚ) * 2 ^ (f - e) ≤ n * (1 / 4) := by gcongr
      have : (2 : ℚ) ^ 52 ≤ m := by exact_mod_cast normal.low
      split <;> linarith

/-- The size is the nearest to `x`, and its significand is even if another one is as near. -/
structure IsRounding (m : Nat) (e : Int) (x : ℚ) : Prop where
  nearest : ∀ {n : Nat} {f : Int}, Normal n f → |x - size m e| ≤ |x - size n f|
  even : ∀ {n : Nat} {f : Int}, Normal n f → size n f ≠ size m e →
    |x - size m e| = |x - size n f| → m % 2 = 0

theorem RoundsTo.lower {m : Nat} {e : Int} {x : ℚ} (normal : Normal m e)
    (rounds : RoundsTo m e x) :
    (m : ℚ) - (if m = 2 ^ 52 then 1 / 4 else 1 / 2) ≤ x / 2 ^ e := by
  have low := rounds.le.1
  rw [low_cast normal, quarters_eq] at low
  by_cases least : m = 2 ^ 52
  · rw [if_pos least] at low ⊢
    linarith
  · rw [if_neg least] at low ⊢
    linarith

/-- In units of the last place: the size is no farther than another point, and nearer if its
significand is odd. -/
theorem RoundsTo.closer {m : Nat} {e : Int} {x y : ℚ} (normal : Normal m e)
    (rounds : RoundsTo m e x)
    (apart : m + 1 ≤ y ∨ y + (if m = 2 ^ 52 then 1 / 2 else 1) ≤ m) :
    |x / 2 ^ e - m| ≤ |x / 2 ^ e - y| ∧ (|x / 2 ^ e - m| = |x / 2 ^ e - y| → m % 2 = 0) := by
  have near := rounds.nearestEven normal
  have within := abs_le.mp near.le
  have lower := rounds.lower normal
  have of_far : 1 / 2 ≤ |x / 2 ^ e - y| → |x / 2 ^ e - m| ≤ |x / 2 ^ e - y| ∧
      (|x / 2 ^ e - m| = |x / 2 ^ e - y| → m % 2 = 0) := by
    intro far
    exact ⟨near.le.trans far, fun tie => near.even (le_antisymm near.le (tie ▸ far))⟩
  obtain above | below := apart
  · apply of_far
    rw [abs_sub_comm]
    exact le_trans (by linarith) (le_abs_self _)
  · by_cases least : m = 2 ^ 52
    · rw [if_pos least] at lower below
      refine ⟨le_trans (abs_le.mpr ⟨?_, ?_⟩) (le_abs_self _), fun _ => by omega⟩
      · linarith
      · linarith
    · rw [if_neg least] at lower below
      apply of_far
      exact le_trans (by linarith) (le_abs_self _)

theorem RoundsTo.isRounding {m : Nat} {e : Int} {x : ℚ} (normal : Normal m e)
    (rounds : RoundsTo m e x) : IsRounding m e x := by
  have in_units : ∀ s : ℚ, |x - s| = |x / 2 ^ e - s / 2 ^ e| * 2 ^ e := by
    intro s
    rw [← sub_div, abs_div, abs_of_pos (by positivity : (0 : ℚ) < 2 ^ e),
      div_mul_cancel₀ _ (by positivity)]
  constructor
  · intro n f other
    rw [in_units, in_units, size_div, mul_le_mul_iff_left₀ (by positivity)]
    obtain same | apart := apart_of_normal normal other
    · rw [same]
    · exact (rounds.closer normal apart).1
  · intro n f other different tie
    rw [in_units, in_units (size n f), size_div] at tie
    have tie := mul_right_cancel₀ (by positivity) tie
    obtain same | apart := apart_of_normal normal other
    · rw [← size_div m e, div_left_inj' (by positivity)] at same
      exact absurd same different
    · exact (rounds.closer normal apart).2 tie

/-- With a last place of at most one every natural number is a whole number of places. -/
theorem RoundsTo.exact {m : Nat} {e : Int} {k : Nat} (normal : Normal m e)
    (rounds : RoundsTo m e k) (fine : e ≤ 0) : (k : ℚ) = size m e := by
  have places : (k : ℚ) / 2 ^ e = (k * 2 ^ (-e).toNat : Nat) := by
    have : (2 : ℚ) ^ (-e).toNat = (2 ^ e)⁻¹ := by
      rw [← zpow_natCast, ← zpow_neg]
      congr 1
      omega
    push_cast
    rw [this, div_eq_mul_inv]
  have near := (rounds.nearestEven normal).le
  have whole : k * 2 ^ (-e).toNat = m := by
    rw [places] at near
    have : |((k * 2 ^ (-e).toNat : Nat) : ℚ) - m| < 1 := by linarith
    have : |((k * 2 ^ (-e).toNat : Nat) : ℤ) - m| < 1 := by exact_mod_cast this
    have := Int.abs_lt_one_iff.mp this
    omega
  rw [whole, div_eq_iff (by positivity)] at places
  exact places

/-- The first number with a coarser last place is `2 ^ 53`. -/
theorem RoundsTo.fine_or_first {m : Nat} {e : Int} {k : Nat} (normal : Normal m e)
    (rounds : RoundsTo m e k) (small : k ≤ 2 ^ 53) : e ≤ 0 ∨ m = 2 ^ 52 ∧ e = 1 ∧ k = 2 ^ 53 := by
  by_contra! coarse
  obtain ⟨coarse, other⟩ := coarse
  have lower := rounds.le.1
  rw [low_cast normal, quarters_eq] at lower
  have k_le : (k : ℚ) ≤ 2 ^ 53 := by exact_mod_cast small
  have place_pos : (0 : ℚ) < 2 ^ e := by positivity
  have scaled_by : ∀ n : Nat, (n : ℤ) ≤ e → (k : ℚ) / 2 ^ e ≤ k / 2 ^ n := by
    intro n less
    apply div_le_div_of_nonneg_left (by positivity) (by positivity)
    rw [← zpow_natCast]
    exact zpow_le_zpow_right₀ one_le_two less
  have halves := scaled_by 1 (by omega)
  have least : m = 2 ^ 52 := by
    have : (m : ℚ) < 2 ^ 52 + 1 := by
      split at lower <;> linarith
    have : m < 2 ^ 52 + 1 := by exact_mod_cast this
    have := normal.low
    omega
  rw [if_pos least, least] at lower
  push_cast at lower
  have two : e = 1 := by
    by_contra more
    have quarter := scaled_by 2 (by omega)
    linarith
  have : (2 : ℚ) ^ 53 < k + 1 := by
    rw [two, zpow_one] at lower
    linarith
  have : 2 ^ 53 < k + 1 := by exact_mod_cast this
  have := other least two
  omega

end Hypertext.Binary64
