import Hypertext.Json.Numeral

/-! The tokens of a JSON text, read one character at a time.

Outside of quotes a text falls into marks, blanks and words; a word is a number or one of the three
names. Inside, a character is written as it stands or escaped, and those beyond the basic plane may
be escaped as a pair of surrogate units. -/

namespace Hypertext.Json

inductive Token where
  | openObject
  | closeObject
  | openArray
  | closeArray
  | colon
  | comma
  | null
  | bool (b : Bool)
  | number (x : Binary64)
  | text (t : Text)
  deriving DecidableEq, Repr

/-- What a quoted text is made of: characters, and code units of four hexadecimal digits. -/
inductive Piece where
  | char (c : Char)
  | unit (n : Nat)
  deriving DecidableEq, Repr

def isHighSurrogate (n : Nat) : Bool := 0xD800 ≤ n && n < 0xDC00

def isLowSurrogate (n : Nat) : Bool := 0xDC00 ≤ n && n < 0xE000

/-- A high surrogate must stand before a low one, and none of them alone. -/
def Piece.textOf? : List Piece → Option Text
  | [] => some []
  | .char c :: rest => (textOf? rest).map (c :: ·)
  | .unit n :: rest =>
      if isLowSurrogate n then none
      else if isHighSurrogate n then
        match rest with
        | .unit m :: rest =>
            if isLowSurrogate m then
              (textOf? rest).map
                (Char.ofNat (0x10000 + (n - 0xD800) * 0x400 + (m - 0xDC00)) :: ·)
            else none
        | _ => none
      else (textOf? rest).map (Char.ofNat n :: ·)

def mark? : Char → Option Token
  | '{' => some .openObject
  | '}' => some .closeObject
  | '[' => some .openArray
  | ']' => some .closeArray
  | ':' => some .colon
  | ',' => some .comma
  | _ => none

def isSpace (c : Char) : Bool := c == ' ' || c == '\t' || c == '\n' || c == '\r'

def word? (word : Text) : Option Token :=
  if word = "null".toList then some .null
  else if word = "true".toList then some (.bool true)
  else if word = "false".toList then some (.bool false)
  else (number? word).map .number

def escaped? : Char → Option Char
  | '"' => some '"'
  | '\\' => some '\\'
  | '/' => some '/'
  | 'b' => some '\x08'
  | 'f' => some '\x0c'
  | 'n' => some '\n'
  | 'r' => some '\r'
  | 't' => some '\t'
  | _ => none

def hexValue? (c : Char) : Option Nat :=
  if '0' ≤ c && c ≤ '9' then some (c.toNat - '0'.toNat)
  else if 'a' ≤ c && c ≤ 'f' then some (c.toNat - 'a'.toNat + 10)
  else if 'A' ≤ c && c ≤ 'F' then some (c.toNat - 'A'.toNat + 10)
  else none

/-- Where the reader stands. What has been read of a word or a quoted text comes newest first. -/
inductive Place where
  | between
  | word (read : Text)
  | quoted (read : List Piece)
  | escape (read : List Piece)
  | unit (read : List Piece) (digits value : Nat)
  deriving DecidableEq, Repr

namespace Place

/-- The tokens that a character ends, newest first, and the place after it. -/
def step? (c : Char) : Place → Option (List Token × Place)
  | .between =>
      if isSpace c then some ([], .between)
      else if c = '"' then some ([], .quoted [])
      else match mark? c with
        | some mark => some ([mark], .between)
        | none => some ([], .word [c])
  | .word read =>
      if isSpace c then (word? read.reverse).map fun word => ([word], .between)
      else if c = '"' then none
      else match mark? c with
        | some mark => (word? read.reverse).map fun word => ([mark, word], .between)
        | none => some ([], .word (c :: read))
  | .quoted read =>
      if c = '"' then (Piece.textOf? read.reverse).map fun t => ([.text t], .between)
      else if c = '\\' then some ([], .escape read)
      else if c.toNat < 0x20 then none
      else some ([], .quoted (.char c :: read))
  | .escape read =>
      if c = 'u' then some ([], .unit read 0 0)
      else (escaped? c).map fun c => ([], .quoted (.char c :: read))
  | .unit read digits value =>
      (hexValue? c).map fun digit =>
        if digits = 3 then ([], .quoted (.unit (16 * value + digit) :: read))
        else ([], .unit read (digits + 1) (16 * value + digit))

def finish? : Place → Option (List Token)
  | .between => some []
  | .word read => (word? read.reverse).map ([·])
  | _ => none

end Place

def tokensFrom? (done : List Token) (place : Place) : Text → Option (List Token)
  | [] => place.finish?.map fun tokens => (tokens ++ done).reverse
  | c :: rest =>
      match place.step? c with
      | some (tokens, place) => tokensFrom? (tokens ++ done) place rest
      | none => none

def tokens? (t : Text) : Option (List Token) := tokensFrom? [] .between t

end Hypertext.Json
