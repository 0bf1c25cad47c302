import Hypertext.Text.Basic
import Hypertext.Number.Shortest

/-! The text of a number: an integer below `10 ^ 15` in size is written out in full, any other
finite number with the fewest digits that read back, and neither ever has an exponent. -/

namespace Hypertext

namespace Text

def ofNat (n : Nat) : Text := Nat.toDigits 10 n

def ofInt (i : Int) : Text :=
  if i < 0 then '-' :: ofNat i.natAbs else ofNat i.natAbs

/-- `digits * 10 ^ place` without an exponent. -/
def positional (digits : Nat) (place : Int) : Text :=
  let shown := ofNat digits
  let fraction := (-place).toNat
  if fraction = 0 then shown ++ List.replicate place.toNat '0'
  else
    let shown := List.replicate (fraction + 1 - shown.length) '0' ++ shown
    shown.take (shown.length - fraction) ++ '.' :: shown.drop (shown.length - fraction)

end Text

namespace Binary64

/-- The size of a number without a fractional part. -/
def integer? (significand : Nat) (exponent : Int) : Option Nat :=
  let (top, bottom) := ratio significand exponent
  if top % bottom = 0 then some (top / bottom) else none

def shortestText (significand : Nat) (exponent : Int) : Text :=
  let (digits, place) := shortest significand exponent
  Text.positional digits place

def sizeText (significand : Nat) (exponent : Int) : Text :=
  match integer? significand exponent with
  | some n => if n < Nat.pow 10 15 then Text.ofNat n else shortestText significand exponent
  | none => shortestText significand exponent

/-- Zero has no sign, whichever of the two it is. -/
def toText (x : Binary64) : Text :=
  match x with
  | .nan => "NaN".toList
  | .infinite false => "inf".toList
  | .infinite true => "-inf".toList
  | .finite negative significand exponent =>
      if negative && significand != 0 then '-' :: sizeText significand exponent
      else sizeText significand exponent

end Binary64

end Hypertext
