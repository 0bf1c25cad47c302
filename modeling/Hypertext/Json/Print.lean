import Hypertext.Json.Basic
import Hypertext.Number.Numeral

/-! JSON as text, one value a line with two spaces a level. -/

namespace Hypertext.Json

def hexDigit (n : Nat) : Char := Nat.digitChar (n % 16)

/-- Quotes, backslashes and the characters below the space are escaped; all others stand as they
are. -/
def quoteChar (c : Char) : Text :=
  if c = '"' then ['\\', '"']
  else if c = '\\' then ['\\', '\\']
  else if c = '\x08' then ['\\', 'b']
  else if c = '\x0c' then ['\\', 'f']
  else if c = '\n' then ['\\', 'n']
  else if c = '\r' then ['\\', 'r']
  else if c = '\t' then ['\\', 't']
  else if c.toNat < 0x20 then ['\\', 'u', '0', '0', hexDigit (c.toNat / 16), hexDigit c.toNat]
  else [c]

def quote (t : Text) : Text := '"' :: t.flatMap quoteChar ++ ['"']

def newLine (level : Nat) : Text := '\n' :: List.replicate (2 * level) ' '

/-- Nothing is put between the brackets of an empty container. -/
def spread (left right : Char) (level : Nat) (items : List Text) : Text :=
  if items.isEmpty then [left, right]
  else
    left :: newLine (level + 1) ++ List.intercalate (',' :: newLine (level + 1)) items ++
      newLine level ++ [right]

mutual

/-- The text of a value that starts on a line of the given level. -/
def pretty (level : Nat) : Json → Text
  | .null => "null".toList
  | .bool b => (if b then "true" else "false").toList
  | .number x => x.toText
  | .text t => quote t
  | .array items => spread '[' ']' level (prettyItems (level + 1) items)
  | .object members => spread '{' '}' level (prettyMembers (level + 1) members)

def prettyItems (level : Nat) : List Json → List Text
  | [] => []
  | item :: rest => pretty level item :: prettyItems level rest

def prettyMembers (level : Nat) : List (Text × Json) → List Text
  | [] => []
  | member :: rest => prettyMember level member :: prettyMembers level rest

def prettyMember (level : Nat) : Text × Json → Text
  | (key, value) => quote key ++ ':' :: ' ' :: pretty level value

end

end Hypertext.Json
