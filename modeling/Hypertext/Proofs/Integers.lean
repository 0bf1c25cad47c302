import Hypertext.Proofs.Cells
import Hypertext.Proofs.Shortest

/-! The text of an integer.

An integer becomes the nearest number with 53 significant bits, and what is written is the text of
that number. The number is whole, so its text is again the numeral of an integer: the one whose
digits the search finds, followed by zeros. Up to `2 ^ 53` no other integer becomes the same number
but for the one after it, and the numeral is the integer's own. -/

namespace Hypertext

namespace Text

theorem ofNat_mul_ten {n : Nat} (nonzero : n ≠ 0) : ofNat (n * 10) = ofNat n ++ ['0'] := by
  have zero : Nat.toDigits 10 0 = ['0'] := rfl
  have positive : 0 < n := Nat.pos_of_ne_zero nonzero
  have ten : 1 < 10 := by norm_num
  rw [ofNat, ofNat, ← zero, Nat.toDigits_append_toDigits ten positive (Nat.zero_lt_succ 9),
    add_zero, mul_comm]

theorem ofNat_mul_pow {n : Nat} (nonzero : n ≠ 0) (zeros : Nat) :
    ofNat (n * 10 ^ zeros) = ofNat n ++ List.replicate zeros '0' := by
  induction zeros with
  | zero => simp
  | succ zeros ih =>
      rw [pow_succ, ← mul_assoc, ofNat_mul_ten (by positivity), ih, List.replicate_succ',
        List.append_assoc]

theorem positional_whole {digits : Nat} (nonzero : digits ≠ 0) (zeros : Nat) :
    positional digits zeros = ofNat (digits * 10 ^ zeros) := by
  rw [ofNat_mul_pow nonzero]
  simp [positional]

theorem ofNat_inj {n k : Nat} : ofNat n = ofNat k ↔ n = k := by
  constructor
  · intro same
    have read := congrArg (Nat.ofDigitChars 10 · 0) same
    simp only [ofNat, Nat.ofDigitChars_ten_toDigits] at read
    exact read
  · exact congrArg ofNat

theorem ofNat_ne_minus (n : Nat) (rest : Text) : ofNat n ≠ '-' :: rest := by
  intro same
  have digit : '-'.isDigit := by
    apply Nat.isDigit_of_mem_toDigits (b := 10) (by norm_num) (by norm_num)
    rw [show Nat.toDigits 10 n = '-' :: rest from same]
    exact List.mem_cons_self
  exact absurd digit (by decide)

theorem ofInt_inj {i k : Int} : ofInt i = ofInt k ↔ i = k := by
  constructor
  · intro same
    unfold ofInt at same
    split at same
    case isTrue =>
      split at same
      case isTrue =>
        have := ofNat_inj.mp (List.cons.inj same).2
        omega
      case isFalse => exact absurd same.symm (ofNat_ne_minus _ _)
    case isFalse =>
      split at same
      case isTrue => exact absurd same (ofNat_ne_minus _ _)
      case isFalse =>
        have := ofNat_inj.mp same
        omega
  · exact congrArg ofInt

end Text

namespace Binary64

variable {m : Nat} {e : Int}

theorem integer?_eq_some {n : Nat} (whole : (n : ℚ) = size m e) : integer? m e = some n := by
  have twos := pow_toNat (two_ne_zero : (2 : ℚ) ≠ 0) e
  have top : m * 2 ^ e.toNat = n * 2 ^ (-e).toNat := by
    have : (m : ℚ) * 2 ^ e.toNat = n * 2 ^ (-e).toNat := by
      rw [twos, whole, size, mul_assoc]
    exact_mod_cast this
  have bottom : 0 < 2 ^ (-e).toNat := by positivity
  simp only [integer?, ratio, Nat.pow_eq, top, Nat.mul_mod_left, if_true,
    Nat.mul_div_cancel n bottom]

theorem RoundsTo.exists_whole (normal : Normal m e) {k : Nat} (rounds : RoundsTo m e k) :
    ∃ n : Nat, (n : ℚ) = size m e := by
  obtain fine | coarse := le_total e 0
  · exact ⟨k, rounds.exact normal fine⟩
  · obtain ⟨t, rfl⟩ := Int.eq_ofNat_of_zero_le coarse
    refine ⟨m * 2 ^ t, ?_⟩
    rw [size, zpow_natCast]
    norm_num

theorem bits_of_whole (normal : Normal m e) {n : Nat} (whole : (n : ℚ) = size m e)
    (nonzero : n ≠ 0) : 0 ≤ 53 + e := by
  by_contra! few
  have one : (1 : ℚ) ≤ n := by exact_mod_cast Nat.pos_of_ne_zero nonzero
  have high : (m : ℚ) < 2 ^ 53 := by exact_mod_cast normal.high
  have : size m e < 1 := by
    calc size m e = m * 2 ^ e := rfl
      _ < 2 ^ 53 * 2 ^ e := by gcongr
      _ = 2 ^ (53 + e) := by
          rw [zpow_add₀ two_ne_zero]
          norm_num
      _ ≤ 1 := zpow_le_one_of_nonpos₀ one_le_two few.le
  linarith

/-- The natural number that is written for a size: of those that round to it one with the most
zeros at the end, and of these the closest. -/
structure Written (m : Nat) (e : Int) (d : Nat) : Prop where
  rounds : RoundsTo m e d
  most : ∀ n q : Nat, RoundsTo m e (n * 10 ^ q : Nat) → 10 ^ q ∣ d
  closest : ∀ n : Nat, RoundsTo m e n → (∀ q, 10 ^ q ∣ d → 10 ^ q ∣ n) → Closer (size m e) d n

theorem written_of_fine (normal : Normal m e) {n : Nat} (whole : (n : ℚ) = size m e)
    (fine : e ≤ 0) : Written m e n := by
  have only : ∀ k : Nat, RoundsTo m e k → k = n := by
    intro k rounds
    have := rounds.exact normal fine
    rw [← whole] at this
    exact_mod_cast this
  constructor
  · rw [whole]
    exact roundsTo_size normal
  · intro k q rounds
    exact Dvd.intro_left k (only _ rounds)
  · intro k rounds _
    rw [only k rounds]
    exact closer_self _ _

theorem cast_mul_ten_pow (n zeros : Nat) :
    ((n * 10 ^ zeros : Nat) : ℚ) = n * 10 ^ (zeros : ℤ) := by
  rw [zpow_natCast]
  norm_num

theorem shortestText_written (normal : Normal m e) {n : Nat} (whole : (n : ℚ) = size m e)
    (nonzero : n ≠ 0) : ∃ d, shortestText m e = Text.ofNat d ∧ Written m e d := by
  obtain ⟨nearest, fewest⟩ := shortest_spec normal (bits_of_whole normal whole nonzero)
  obtain ⟨zeros, place⟩ : ∃ zeros : Nat, (shortest m e).2 = zeros := by
    apply Int.eq_ofNat_of_zero_le
    apply fewest 0 n
    rw [zpow_zero, mul_one, whole]
    exact roundsTo_size normal
  rw [place] at nearest fewest
  have digits : (shortest m e).1 ≠ 0 := by
    intro none
    have := nearest.rounds.pos normal
    rw [none, Nat.cast_zero, zero_mul] at this
    exact lt_irrefl 0 this
  refine ⟨(shortest m e).1 * 10 ^ zeros, ?_, ?_, ?_, ?_⟩
  · rw [shortestText, ← Text.positional_whole digits, ← place]
  · rw [cast_mul_ten_pow]
    exact nearest.rounds
  · intro k q rounds
    rw [cast_mul_ten_pow] at rounds
    have less : q ≤ zeros := by exact_mod_cast fewest q k rounds
    exact (pow_dvd_pow 10 less).mul_left _
  · intro k rounds divides
    obtain ⟨c, rfl⟩ := dvd_iff_exists_eq_mul_left.mp (divides zeros (Nat.dvd_mul_left _ _))
    rw [cast_mul_ten_pow] at rounds
    rw [cast_mul_ten_pow, cast_mul_ten_pow]
    exact nearest.closer c rounds

theorem sizeText_written (normal : Normal m e) {n : Nat} (whole : (n : ℚ) = size m e) :
    ∃ d, sizeText m e = Text.ofNat d ∧ Written m e d := by
  have itself : RoundsTo m e n := by
    rw [whole]
    exact roundsTo_size normal
  rw [sizeText, integer?_eq_some whole]
  simp only
  split
  case isTrue small =>
    rw [Nat.pow_eq] at small
    obtain fine | ⟨_, _, first⟩ := itself.fine_or_first normal (by omega)
    · exact ⟨n, rfl, written_of_fine normal whole fine⟩
    · omega
  case isFalse large =>
    apply shortestText_written normal whole
    rintro rfl
    exact large (by norm_num)

/-- The number as a rational; zero for what is not finite. -/
def value : Binary64 → ℚ
  | .finite negative m e => if negative then -size m e else size m e
  | _ => 0

theorem cast_eq_signed (n : Int) :
    (n : ℚ) = if n < 0 then -(n.natAbs : ℚ) else n.natAbs := by
  rw [Nat.cast_natAbs]
  split
  case isTrue negative =>
    rw [abs_of_neg negative]
    push_cast
    ring
  case isFalse nonnegative => rw [abs_of_nonneg (by omega)]

/-- The integer `j` whose numeral is written for `i`. The number that `i` becomes is the nearest
with 53 significant bits, of two the one with the even significand, and `j` becomes the same. Of
the integers that do, `j` has the most zeros at the end, and of those with as many it is the
closest. -/
structure StandsFor (j i : Int) : Prop where
  nearest : i ≠ 0 → ∃ m e, Normal m e ∧ IsRounding m e i.natAbs ∧
    ofInt i = .finite (decide (i < 0)) m e
  same : ofInt j = ofInt i
  most : ∀ (n : Int) (q : Nat), ofInt (n * 10 ^ q) = ofInt i → 10 ^ q ∣ j
  closest : ∀ n : Int, ofInt n = ofInt i → (∀ q : Nat, (10 : Int) ^ q ∣ j → 10 ^ q ∣ n) →
    Closer (ofInt i).value j n

theorem ofInt_zero : ofInt 0 = zero false := rfl

theorem ofInt_eq_iff (normal : Normal m e) {i n : Int}
    (rounded : ofInt i = .finite (decide (i < 0)) m e) :
    ofInt n = ofInt i ↔ n ≠ 0 ∧ (n < 0 ↔ i < 0) ∧ RoundsTo m e n.natAbs := by
  rw [rounded]
  by_cases zero : n = 0
  · subst zero
    have := normal.low
    simp only [ofInt_zero, Binary64.zero, ne_eq, not_true_eq_false, false_and, iff_false]
    intro same
    injection same
    omega
  · have nonzero : n.natAbs ≠ 0 := Int.natAbs_ne_zero.mpr zero
    rw [ofInt, ofRatio_eq_finite_iff normal nonzero]
    simp [zero]

theorem Written.eq_of_small (normal : Normal m e) {k d : Nat} (rounds : RoundsTo m e k)
    (written : Written m e d) (text : sizeText m e = Text.ofNat d) (small : k ≤ 2 ^ 53) :
    d = k := by
  obtain fine | ⟨rfl, rfl, rfl⟩ := rounds.fine_or_first normal small
  · have := written.rounds.exact normal fine
    rw [← rounds.exact normal fine] at this
    exact_mod_cast this
  · have first : sizeText (2 ^ 52) 1 = Text.ofNat (2 ^ 53) := by decide +kernel
    rw [first] at text
    exact (Text.ofNat_inj.mp text).symm

theorem ten_pow_dvd_iff (q : Nat) (n : Int) : (10 : Int) ^ q ∣ n ↔ 10 ^ q ∣ n.natAbs := by
  rw [← Int.natCast_dvd]
  norm_num

theorem standsFor_of_written (normal : Normal m e) {i j : Int} {d : Nat}
    (rounded : ofInt i = .finite (decide (i < 0)) m e) (written : Written m e d)
    (size_eq : j.natAbs = d) (sign : j < 0 ↔ i < 0) : StandsFor j i := by
  have itself := (ofInt_eq_iff normal rounded (n := i)).mp rfl
  have nonzero : j ≠ 0 := by
    rintro rfl
    have := written.rounds.pos normal
    rw [← size_eq] at this
    simp at this
  constructor
  · intro _
    exact ⟨m, e, normal, itself.2.2.isRounding normal, rounded⟩
  · rw [ofInt_eq_iff normal rounded, size_eq]
    exact ⟨nonzero, sign, written.rounds⟩
  · intro n q same
    obtain ⟨_, _, rounds⟩ := (ofInt_eq_iff normal rounded).mp same
    rw [Int.natAbs_mul, Int.natAbs_pow] at rounds
    rw [ten_pow_dvd_iff, size_eq]
    exact written.most _ _ rounds
  · intro n same divides
    obtain ⟨_, sign_n, rounds⟩ := (ofInt_eq_iff normal rounded).mp same
    have closer : Closer (size m e) j.natAbs n.natAbs := by
      rw [size_eq]
      apply written.closest _ rounds
      intro q
      rw [← size_eq, ← ten_pow_dvd_iff, ← ten_pow_dvd_iff]
      exact divides q
    have j_cast := cast_eq_signed j
    have n_cast := cast_eq_signed n
    simp only [sign] at j_cast
    simp only [sign_n] at n_cast
    rw [rounded, value, j_cast, n_cast]
    by_cases negative : i < 0
    · simp only [negative, decide_true, if_true]
      exact closer_neg closer
    · simp only [negative, decide_false, if_false, Bool.false_eq_true]
      exact closer

theorem standsFor_zero : StandsFor 0 0 := by
  refine ⟨fun nonzero => absurd rfl nonzero, rfl, fun n q _ => dvd_zero _, fun n same _ => ?_⟩
  have only : n = 0 := by
    by_contra nonzero
    rw [ofInt_zero] at same
    exact ofRatio_ne_zero _ (Int.natAbs_ne_zero.mpr nonzero) false same
  rw [only]
  exact closer_self _ _

theorem toText_zero : (ofInt 0).toText = Text.ofInt 0 := by
  have whole : ((0 : Nat) : ℚ) = size 0 (-1074) := by
    rw [size, Nat.cast_zero, zero_mul]
  rw [ofInt_zero, zero, toText, sizeText, integer?_eq_some whole]
  rfl

theorem exists_standsFor {i : Int} (small : i.natAbs ≤ 2 ^ 64) :
    (ofInt i).isFinite ∧
      ∃ j, StandsFor j i ∧ (ofInt i).toText = Text.ofInt j ∧ (i.natAbs ≤ 2 ^ 53 → j = i) := by
  by_cases zero : i = 0
  · subst zero
    exact ⟨rfl, 0, standsFor_zero, toText_zero, fun _ => rfl⟩
  · have nonzero : i.natAbs ≠ 0 := Int.natAbs_ne_zero.mpr zero
    have finite : lead i.natAbs < 971 := by
      have : i.natAbs.log2 < 65 := (Nat.log2_lt nonzero).mpr (by omega)
      simp only [lead]
      omega
    obtain ⟨m, e, normal, rounding⟩ := exists_normal nonzero finite
    have rounded : ofInt i = .finite (decide (i < 0)) m e := rounding _
    have rounds : RoundsTo m e i.natAbs :=
      ((ofRatio_eq_finite_iff normal nonzero).mp (rounding false)).2
    obtain ⟨n, whole⟩ := rounds.exists_whole normal
    obtain ⟨d, text, written⟩ := sizeText_written normal whole
    have d_pos : 0 < d := by exact_mod_cast written.rounds.pos normal
    have m_ne : m ≠ 0 := by
      have := normal.low
      omega
    have exact_small := fun few => written.eq_of_small normal rounds text few
    rw [rounded]
    refine ⟨rfl, ?_⟩
    by_cases negative : i < 0
    · refine ⟨-d, standsFor_of_written normal rounded written (by omega) (by omega), ?_, ?_⟩
      · have : -(d : Int) < 0 := by omega
        simp [toText, negative, m_ne, text, Text.ofInt, d_pos]
      · intro few
        have := exact_small few
        omega
    · refine ⟨d, standsFor_of_written normal rounded written (by omega) (by omega), ?_, ?_⟩
      · simp [toText, negative, text, Text.ofInt]
      · intro few
        have := exact_small few
        omega

end Binary64

theorem Element.render_carrying {x y : Binary64} (x_finite : x.isFinite) (y_finite : y.isFinite)
    (tag name : Text) (before after : List Attribute) (earlier later : List Node) (void : Bool)
    (finite : ∀ n ∈ (Element.mk tag (before ++ after) (earlier ++ later) void).numbers,
      n.2.isFinite) :
    (Element.mk tag (before ++ ⟨name, .number x⟩ :: after) (earlier ++ .number y :: later)
        void).render =
      .ok ('<' :: tag ++ before.flatMap attributeText ++
        (' ' :: name ++ "=\"".toList ++ x.toText ++ ['"']) ++ after.flatMap attributeText ++
        ['>'] ++ if void then []
        else earlier.flatMap Node.markup ++ y.toText ++ later.flatMap Node.markup ++
          '<' :: '/' :: tag ++ ['>']) := by
  have all_finite : ∀ n ∈ (Element.mk tag (before ++ ⟨name, .number x⟩ :: after)
      (earlier ++ .number y :: later) void).numbers, n.2.isFinite := by
    have x_number : (AttributeValue.number x).number? = some x := rfl
    rw [Element.numbers_eq] at finite ⊢
    simp only [attributes_mk, children_mk, tag_mk, List.filterMap_append, List.filterMap_cons,
      x_number, List.flatMap_append, List.flatMap_cons, Node.numbers, List.map_append,
      List.map_cons, List.singleton_append, List.forall_mem_append,
      List.forall_mem_cons] at finite ⊢
    obtain ⟨⟨of_before, of_after⟩, of_earlier, of_later⟩ := finite
    exact ⟨⟨of_before, x_finite, of_after⟩, of_earlier, y_finite, of_later⟩
  rw [render_eq_ok_iff, bad?_eq, firstNonFinite?_eq_none]
  refine ⟨all_finite, ?_⟩
  rw [markup_eq]
  simp [startTag, endTag, attributeText, attributeText.quoted, Binary64.escape_toText]

/-- An integer in an element is written as the numeral of an integer that rounds to the same number:
its own one up to `2 ^ 53` in size, beyond it the one with the most zeros at the end. Two integers
have the same numeral exactly if they round to the same number. -/
theorem Element.render_integers {i k : Int} (i_word : -2 ^ 63 ≤ i ∧ i < 2 ^ 64)
    (k_word : -2 ^ 63 ≤ k ∧ k < 2 ^ 64) (tag name : Text) (before after : List Attribute)
    (earlier later : List Node) (void : Bool)
    (finite : ∀ n ∈ (Element.mk tag (before ++ after) (earlier ++ later) void).numbers,
      n.2.isFinite) :
    ∃ j l : Int, Binary64.StandsFor j i ∧ Binary64.StandsFor l k ∧
      (i.natAbs ≤ 2 ^ 53 → j = i) ∧ (k.natAbs ≤ 2 ^ 53 → l = k) ∧
      (Text.ofInt j = Text.ofInt l ↔ Binary64.ofInt i = Binary64.ofInt k) ∧
      (Element.mk tag (before ++ ⟨name, .number (.ofInt i)⟩ :: after)
        (earlier ++ .number (.ofInt k) :: later) void).render =
        .ok ('<' :: tag ++ before.flatMap attributeText ++
          (' ' :: name ++ "=\"".toList ++ Text.ofInt j ++ ['"']) ++
          after.flatMap attributeText ++ ['>'] ++
          if void then []
          else earlier.flatMap Node.markup ++ Text.ofInt l ++ later.flatMap Node.markup ++
            '<' :: '/' :: tag ++ ['>']) := by
  obtain ⟨i_finite, j, j_stands, i_text, i_exact⟩ :=
    Binary64.exists_standsFor (i := i) (by omega)
  obtain ⟨k_finite, l, l_stands, k_text, k_exact⟩ :=
    Binary64.exists_standsFor (i := k) (by omega)
  have alike : Text.ofInt j = Text.ofInt l ↔ Binary64.ofInt i = Binary64.ofInt k := by
    constructor
    · intro same
      have := Text.ofInt_inj.mp same
      rw [← j_stands.same, ← l_stands.same, this]
    · intro same
      rw [← i_text, ← k_text, same]
  refine ⟨j, l, j_stands, l_stands, i_exact, k_exact, alike, ?_⟩
  rw [render_carrying i_finite k_finite tag name before after earlier later void finite, i_text,
    k_text]

/-- Beyond `2 ^ 53` an integer may be written as another one, and two integers alike. -/
theorem Element.render_rounded :
    (Element.mk "p".toList [⟨"id".toList, .number (.ofInt 18446744073709551615)⟩]
        [.number (.ofInt 9007199254740993)] false).render =
      .ok "<p id=\"18446744073709552000\">9007199254740992</p>".toList ∧
    (Element.mk "p".toList [⟨"id".toList, .number (.ofInt 18446744073709551614)⟩]
        [.number (.ofInt 9007199254740992)] false).render =
      .ok "<p id=\"18446744073709552000\">9007199254740992</p>".toList ∧
    Text.ofInt 18446744073709551615 = "18446744073709551615".toList ∧
    Text.ofInt 9007199254740993 = "9007199254740993".toList := by
  have greatest : Binary64.ofInt 18446744073709551615 = .finite false (2 ^ 52) 12 := by
    decide +kernel
  have second : Binary64.ofInt 18446744073709551614 = .finite false (2 ^ 52) 12 := by
    decide +kernel
  have odd : Binary64.ofInt 9007199254740993 = .finite false (2 ^ 52) 1 := by decide +kernel
  have even : Binary64.ofInt 9007199254740992 = .finite false (2 ^ 52) 1 := by decide +kernel
  have wide : (Binary64.finite false (2 ^ 52) 12).toText = "18446744073709552000".toList := by
    decide +kernel
  have narrow : (Binary64.finite false (2 ^ 52) 1).toText = "9007199254740992".toList := by
    decide +kernel
  have written := render_carrying (x := .finite false (2 ^ 52) 12) (y := .finite false (2 ^ 52) 1)
    rfl rfl "p".toList "id".toList [] [] [] [] false (by simp [numbers_eq])
  rw [wide, narrow] at written
  rw [greatest, second, odd, even]
  exact ⟨written, written, by decide +kernel, by decide +kernel⟩

theorem Element.render_integers_largest :
    ∃ j l : Int, Binary64.StandsFor j 18446744073709551615 ∧ Binary64.StandsFor l (-42) ∧
      l = -42 ∧ Text.ofInt j ≠ Text.ofInt l ∧
      (Element.mk "p".toList [⟨"id".toList, .number (.ofInt 18446744073709551615)⟩]
        [.text "n".toList, .number (.ofInt (-42))] false).render =
        .ok ("<p id=\"".toList ++ Text.ofInt j ++ "\">n".toList ++ Text.ofInt l ++
          "</p>".toList) := by
  have unlike : Binary64.ofInt 18446744073709551615 ≠ Binary64.ofInt (-42) := by decide +kernel
  obtain ⟨j, l, j_stands, l_stands, _, l_exact, alike, written⟩ :=
    render_integers (i := 18446744073709551615) (k := -42) (by norm_num) (by norm_num)
      "p".toList "id".toList [] [] [.text "n".toList] [] false
      (by simp [numbers_eq, Node.numbers])
  refine ⟨j, l, j_stands, l_stands, l_exact (by norm_num), mt alike.mp unlike, ?_⟩
  have plain : escape ['n'] = ['n'] := by decide
  simpa [plain] using written

end Hypertext
