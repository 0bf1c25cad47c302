import Hypertext.Text.Basic

/-! Decimal digits and signs. -/

namespace Hypertext

/-- The natural number written by decimal digits; `none` if some character is not a digit. -/
def Text.toNat? (t : Text) : Option Nat :=
  t.foldlM (fun n c => if c.isDigit then some (10 * n + (c.toNat - '0'.toNat)) else none) 0

def Text.sign (t : Text) : Bool × Text :=
  match t with
  | '-' :: rest => (true, rest)
  | '+' :: rest => (false, rest)
  | _ => (false, t)

end Hypertext
