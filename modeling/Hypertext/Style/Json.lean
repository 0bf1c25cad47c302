import Hypertext.Json.Read
import Hypertext.Json.Print
import Hypertext.Style.Sheet

/-! Styles and sheets as JSON. A style is read from an object, nested objects are its scopes, and a
boolean or an array at any depth is refused, even under a key that is written again later. -/

namespace Hypertext

mutual

def Value.ofJson? : Json → Option Value
  | .null => some (.scalar .null)
  | .text t => some (.scalar (.text t))
  | .number x => some (.scalar (.number x))
  | .object members => (Value.ofMembers? members).map fun entries => .scope (.ofEntries entries)
  | .bool _ => none
  | .array _ => none

/-- The entries of an object as they are written, repeated keys included. -/
def Value.ofMembers? : List (Text × Json) → Option (List (Text × Value))
  | [] => some []
  | member :: rest => do
      let entry ← Value.ofMember? member
      let entries ← Value.ofMembers? rest
      some (entry :: entries)

def Value.ofMember? : Text × Json → Option (Text × Value)
  | (key, value) => (Value.ofJson? value).map (key, ·)

end

namespace Style

/-- Only an object is a style. -/
def ofJson? : Json → Option Style
  | .object members => (Value.ofMembers? members).map ofEntries
  | _ => none

def ofJsonText? (t : Text) : Option Style := (Json.ofText? t).bind ofJson?

end Style

def Property.toJson (p : Property) : Json := .array [.text p.name, .text p.value]

def Rule.toJson (r : Rule) : Json :=
  .object
    [("selector".toList, .text r.selector),
      ("properties".toList, .array (r.properties.map Property.toJson)),
      ("depth".toList, .number (.ofNat r.depth))]

def Sheet.toJson (s : Sheet) : Json :=
  .object [("rules".toList, .array (s.rules.map Rule.toJson))]

end Hypertext
