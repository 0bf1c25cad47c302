import Hypertext.Style.Sheet

/-! Sheets as CSS text: the rules with an empty line between them, indented by their depth. -/

namespace Hypertext

def Rule.padWidth (indent : Nat) (r : Rule) : Nat := indent * r.depth

/-- Each property has the spaces of one more level in front of it. -/
def Rule.toCss (indent : Nat) (r : Rule) : Text :=
  let pad := List.replicate (r.padWidth indent) ' '
  let inner := pad ++ List.replicate indent ' '
  pad ++ r.selector ++ [' ', '{', '\n'] ++
    (r.properties.flatMap fun p => inner ++ p.toText ++ ['\n']) ++ pad ++ ['}', '\n']

/-- No machine holds more spaces in a row; most hold fewer. -/
def Text.capacity : Nat := Nat.pow 2 63 - 1

namespace Sheet

def defaultIndent : Nat := 4

def toCss (indent : Nat) (s : Sheet) : Text :=
  List.intercalate ['\n'] (s.rules.map (Rule.toCss indent))

/-- The lengths of the pads that writing a sheet makes: one level, and the levels of each rule. -/
def padWidths (indent : Nat) (s : Sheet) : List Nat :=
  indent :: s.rules.map (Rule.padWidth indent)

/-- Whether there is room for every pad, where `holds` tells for how many spaces there is. Writing a
sheet breaks off at a pad without. -/
def hasRoom (holds : Nat → Bool) (indent : Nat) (s : Sheet) : Bool :=
  (s.padWidths indent).all holds

/-- The sheet of a style and its text, with the default indent unless another is given. -/
def withCss (s : Style) (indent? : Option Nat) : Except StyleError (Sheet × Text) :=
  (ofStyle s).map fun sheet => (sheet, sheet.toCss (indent?.getD defaultIndent))

end Sheet

end Hypertext
