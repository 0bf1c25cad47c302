import Hypertext.Json.Basic
import Hypertext.Json.Token

/-! Reading a JSON text. The tokens are taken one by one, and the containers that are still open
stand on a stack. -/

namespace Hypertext.Json

/-- A container that is still open, with what it holds so far, newest first. -/
inductive Container where
  | array (items : List Json)
  | object (members : List (Text × Json)) (key : Text)

/-- What may come next, inside the containers that are open, innermost first. -/
inductive Expected where
  | value (outer : List Container)
  | itemOrEnd (outer : List Container)
  | afterItem (items : List Json) (outer : List Container)
  | keyOrEnd (outer : List Container)
  | nextKey (members : List (Text × Json)) (outer : List Container)
  | afterKey (members : List (Text × Json)) (key : Text) (outer : List Container)
  | afterMember (members : List (Text × Json)) (outer : List Container)
  | nothing (whole : Json)

/-- So many containers may be open at a time. -/
def maxDepth : Nat := 127

namespace Expected

def accept (value : Json) : List Container → Expected
  | [] => .nothing value
  | .array items :: outer => .afterItem (value :: items) outer
  | .object members key :: outer => .afterMember ((key, value) :: members) outer

def begin? (token : Token) (outer : List Container) : Option Expected :=
  match token with
  | .null => some (accept .null outer)
  | .bool b => some (accept (.bool b) outer)
  | .number x => some (accept (.number x) outer)
  | .text t => some (accept (.text t) outer)
  | .openArray => if outer.length < maxDepth then some (.itemOrEnd outer) else none
  | .openObject => if outer.length < maxDepth then some (.keyOrEnd outer) else none
  | _ => none

def step? (token : Token) : Expected → Option Expected
  | .value outer => begin? token outer
  | .itemOrEnd outer =>
      match token with
      | .closeArray => some (accept (.array []) outer)
      | token => begin? token (.array [] :: outer)
  | .afterItem items outer =>
      match token with
      | .comma => some (.value (.array items :: outer))
      | .closeArray => some (accept (.array items.reverse) outer)
      | _ => none
  | .keyOrEnd outer =>
      match token with
      | .text key => some (.afterKey [] key outer)
      | .closeObject => some (accept (.object []) outer)
      | _ => none
  | .nextKey members outer =>
      match token with
      | .text key => some (.afterKey members key outer)
      | _ => none
  | .afterKey members key outer =>
      match token with
      | .colon => some (.value (.object members key :: outer))
      | _ => none
  | .afterMember members outer =>
      match token with
      | .comma => some (.nextKey members outer)
      | .closeObject => some (accept (.object members.reverse) outer)
      | _ => none
  | .nothing _ => none

def run? (expected : Expected) : List Token → Option Json
  | [] =>
      match expected with
      | .nothing whole => some whole
      | _ => none
  | token :: rest =>
      match expected.step? token with
      | some expected => run? expected rest
      | none => none

end Expected

def ofText? (t : Text) : Option Json := (tokens? t).bind (Expected.value []).run?

end Hypertext.Json
