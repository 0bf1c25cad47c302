import Hypertext.Number.Binary64

/-! The fewest decimal digits that read back as a given number.

The numbers `digits * 10 ^ place` with natural `digits` form the grid at `place`. The grids are
nested, so the coarsest one that meets the interval of reals rounding to the given number has the
fewest digits, and if any of its points lies in that interval then so does one of the two next to
the number. All comparisons are of natural numbers, in quarters of the last binary place. -/

namespace Hypertext.Binary64

/-- The lower end of the interval in quarters of the last place. Below a power of two the spacing
halves, and so does that side of the interval. -/
def lowQuarters (significand : Nat) (exponent : Int) : Nat :=
  4 * significand - if significand = Nat.pow 2 52 ∧ -1074 < exponent then 1 else 2

def highQuarters (significand : Nat) : Nat := 4 * significand + 2

/-- A quarter of the last binary place over one step of the grid at `place`, as a quotient. -/
def quarterStep (exponent place : Int) : Nat × Nat :=
  (Nat.pow 2 (exponent - 2).toNat * Nat.pow 10 (-place).toNat,
    Nat.pow 2 (2 - exponent).toNat * Nat.pow 10 place.toNat)

/-- Whether a grid point rounds to the number. The ends of the interval do so exactly when the
significand is even, since ties go to the even one. -/
def readsBack (significand : Nat) (exponent place : Int) (digits : Nat) : Bool :=
  let (step, unit) := quarterStep exponent place
  let low := lowQuarters significand exponent * step
  let high := highQuarters significand * step
  if significand % 2 = 0 then low ≤ digits * unit && digits * unit ≤ high
  else low < digits * unit && digits * unit < high

/-- The point of the grid that reads back, the nearer one if both neighbours do and the upper one if
they are equally near. -/
def onGrid? (significand : Nat) (exponent place : Int) : Option Nat :=
  let (step, unit) := quarterStep exponent place
  let value := 4 * significand * step
  let below := value / unit
  match readsBack significand exponent place below,
      readsBack significand exponent place (below + 1) with
  | true, true => some (if 2 * value < (2 * below + 1) * unit then below else below + 1)
  | true, false => some below
  | false, true => some (below + 1)
  | false, false => none

/-- The first hit on at most `steps` grids, each ten times finer than the one before. -/
def search (significand : Nat) (exponent : Int) : Nat → Int → Nat × Int
  | 0, place => (0, place)
  | steps + 1, place =>
      match onGrid? significand exponent place with
      | some digits => (digits, place)
      | none => search significand exponent steps (place - 1)

/-- The digits and the decimal place of the last one. The first grid's step exceeds the number, and
seventeen digits always suffice. -/
def shortest (significand : Nat) (exponent : Int) : Nat × Int :=
  search significand exponent 20 (((significand.log2 : Int) + 1 + exponent) * 30103 / 100000 + 1)

end Hypertext.Binary64
