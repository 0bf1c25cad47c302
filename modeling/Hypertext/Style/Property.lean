import Hypertext.Text.Blank
import Hypertext.Number.Numeral
import Hypertext.Style.Basic
import Hypertext.Style.Error

/-! Properties as they are written: a name and a value, both trimmed and neither empty. -/

namespace Hypertext

structure Property where
  name : Text
  value : Text
  deriving DecidableEq, Repr

namespace Property

/-- The properties whose numbers are bare; all others are lengths in pixels. -/
def unitless : List Text :=
  ["animation-iteration-count", "aspect-ratio", "column-count", "columns", "fill-opacity", "flex",
   "flex-grow", "flex-shrink", "font-weight", "grid-column", "grid-row", "line-clamp",
   "line-height", "opacity", "order", "orphans", "stroke-opacity", "tab-size", "widows", "z-index",
   "zoom"].map String.toList

/-- Blanks go on both sides, and then spaces, semicolons and colons at the end. -/
def trim (t : Text) : Text := Text.dropEndWhile ([' ', ';', ':'].contains ·) (Text.trim t)

/-- Zero needs no unit. -/
def numberText (name : Text) (x : Binary64) : Text :=
  if x.isZero || unitless.contains name then x.toText else x.toText ++ ['p', 'x']

/-- The property written for an entry of the scope with the given selector. -/
def ofEntry (selector key : Text) (value : Scalar) : Except StyleError Property :=
  let name := trim key
  if name.isEmpty then .error (.blankProperty selector)
  else
    match value with
    | .text t =>
        let value := trim t
        if value.isEmpty then .error (.blankValue selector name) else .ok ⟨name, value⟩
    | .number x =>
        if x.isFinite then .ok ⟨name, numberText name x⟩
        else .error (.notFinite selector name)
    | .null => .error (.noValue selector name)

def toText (p : Property) : Text := p.name ++ ':' :: ' ' :: p.value ++ [';']

end Property

end Hypertext
