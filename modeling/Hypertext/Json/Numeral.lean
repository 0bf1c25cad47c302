import Hypertext.Text.Basic
import Hypertext.Number.Binary64
import Hypertext.Number.Read

/-! Numbers as JSON writes them.

The value of a numeral is made of one integer and one power of ten: of the digits those count that
keep the integer below `2 ^ 64`, and the integer is then scaled by the power. Each of the two steps
rounds, so a long numeral may come out one place beside the nearest number. A numeral beyond all
finite numbers has no value. -/

namespace Hypertext.Json

structure Numeral where
  negative : Bool
  whole : Text
  fraction : Text
  power : Int
  deriving DecidableEq, Repr

/-- The digits after a point, which must not be missing, and what follows; without a point, none. -/
def fractionDigits? : Text → Option (Text × Text)
  | '.' :: rest =>
      let digits := rest.takeWhile Char.isDigit
      if digits.isEmpty then none else some (digits, rest.dropWhile Char.isDigit)
  | t => some ([], t)

/-- The power after a mark, up to the end of the text; without a mark, zero. -/
def power? : Text → Option Int
  | [] => some 0
  | c :: rest =>
      if c = 'e' || c = 'E' then
        let (down, digits) := Text.sign rest
        if digits.isEmpty then none
        else (Text.toNat? digits).map fun n => if down then -(n : Int) else n
      else none

/-- A whole part does not start with a zero unless it is zero. -/
def Numeral.ofText? (t : Text) : Option Numeral := do
  let (negative, size) := match t with
    | '-' :: rest => (true, rest)
    | _ => (false, t)
  let whole := size.takeWhile Char.isDigit
  if whole.isEmpty || (whole.head? == some '0' && 1 < whole.length) then none
  let (fraction, rest) ← fractionDigits? (size.dropWhile Char.isDigit)
  let power ← power? rest
  return ⟨negative, whole, fraction, power⟩

/-- Appends digits to an integer as long as it stays below `2 ^ 64`, and returns those left over. -/
def takeFitting (n : Nat) : Text → Nat × Text
  | [] => (n, [])
  | c :: rest =>
      let longer := 10 * n + (c.toNat - '0'.toNat)
      if longer < Nat.pow 2 64 then takeFitting longer rest else (n, c :: rest)

def powerOfTen (k : Nat) : Binary64 := .ofRatio false (Nat.pow 10 k) 1

/-- Times a power of ten. Powers below `10 ^ -308` are reached in several divisions. -/
def scale? (x : Binary64) (power : Int) : Option Binary64 :=
  if power.natAbs ≤ 308 then
    if power < 0 then some (x.div (powerOfTen power.natAbs))
    else
      let scaled := x.mul (powerOfTen power.natAbs)
      if scaled.isFinite then some scaled else none
  else if x.isZero then some x
  else if 0 < power then none
  else scale? (x.div (powerOfTen 308)) (power + 308)
termination_by (-power).toNat
decreasing_by omega

/-- Digits of the whole part that do not fit count as zeros, those of the fraction not at all. -/
def Numeral.value? (n : Numeral) : Option Binary64 :=
  let (integer, wholeLeft) := takeFitting 0 n.whole
  let (integer, fractionLeft) := takeFitting integer n.fraction
  let power := n.power + wholeLeft.length - (n.fraction.length - fractionLeft.length : Nat)
  let size? := scale? (Binary64.ofNat integer) power
  if n.negative then size?.map Binary64.negate else size?

def number? (t : Text) : Option Binary64 := (Numeral.ofText? t).bind Numeral.value?

end Hypertext.Json
