import Hypertext.Text.Blank
import Hypertext.Number.Binary64

/-! Attributes. An application writes a key, and the element keeps the name that stands for it.

Underscores at the end of a key are dropped, so a reserved word can be a key (`class_`). In the
families of `hyphenated` every other underscore becomes a hyphen (`data_user_id`). -/

namespace Hypertext

inductive KeyFamily where
  | startingWith (start : Text)
  | exactly (key : Text)
  deriving DecidableEq, Repr

namespace KeyFamily

def contains (key : Text) : KeyFamily → Bool
  | .startingWith start => start.isPrefixOf key
  | .exactly only => key == only

def hyphenated : List KeyFamily :=
  [.startingWith "data_".toList, .startingWith "aria_".toList, .startingWith "hx_".toList,
   .startingWith "sse_".toList, .startingWith "ws_".toList, .exactly "accept_charset".toList,
   .exactly "http_equiv".toList]

end KeyFamily

inductive AttributeValue where
  | text (t : Text)
  | number (x : Binary64)
  /-- A bare name, or nothing at all. -/
  | flag (on : Bool)
  /-- Written with one space between the items. -/
  | list (items : List Text)
  | null
  deriving DecidableEq, Repr

def AttributeValue.isWritten : AttributeValue → Bool
  | .flag false => false
  | .null => false
  | _ => true

structure Attribute where
  name : Text
  value : AttributeValue
  deriving DecidableEq, Repr

namespace Attribute

/-- The name for a key. Its family is that of the key less the underscores at the end. -/
def nameOf (key : Text) : Text :=
  let stripped := Text.dropEndWhile (· == '_') key
  if KeyFamily.hyphenated.any (·.contains stripped) then
    stripped.map fun c => if c = '_' then '-' else c
  else stripped

/-- The characters that would end a name inside a start tag. -/
def endsName (c : Char) : Bool :=
  Text.isBlank c || Text.isControl c || ['"', '\'', '>', '/', '=', '<'].contains c

def isName (name : Text) : Bool := !name.isEmpty && name.all (!endsName ·)

end Attribute

end Hypertext
