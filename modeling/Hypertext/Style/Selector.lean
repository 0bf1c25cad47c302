import Hypertext.Text.Blank
import Hypertext.Style.Error

/-! Selectors of nested scopes.

The key of a scope is a list of alternatives between commas, and so is the selector of the scope
around it. Their combination has one alternative for each pair, the outer one varying slowest:
`&` attaches a key to its parent, `>`, `+` and `~` stay between the two, and any other key is a
descendant of its parent. -/

namespace Hypertext.Selector

def combinators : List Char := ['>', '+', '~']

/-- Whether a key says how it stands to its parent, and so cannot be without one. -/
def isDependent : Text → Bool
  | c :: _ => c == '&' || combinators.contains c
  | [] => false

/-- The bracket depth after a character. A closing bracket too many leaves it at zero. -/
def depthAfter (depth : Nat) (c : Char) : Nat :=
  if c = '(' || c = '[' then depth + 1
  else if c = ')' || c = ']' then depth - 1
  else depth

/-- The stretches between the commas outside parentheses and brackets, from a given depth on. -/
def stretches : Nat → Text → List Text
  | _, [] => [[]]
  | depth, c :: rest =>
      if c = ',' && depth = 0 then [] :: stretches depth rest
      else (stretches (depthAfter depth c) rest).modifyHead (c :: ·)

/-- The alternatives of a list, trimmed. An empty one is an error, blamed on `parent`. -/
def alternatives (parent list : Text) : Except StyleError (List Text) :=
  let parts := (stretches 0 list).map Text.trim
  if parts.any List.isEmpty then .error (.blankSelector parent) else .ok parts

def attach (parent key : Text) : Except StyleError Text :=
  match key with
  | [] => .ok (parent ++ [' '])
  | c :: rest =>
      if c = '&' then .ok (parent ++ rest)
      else if combinators.contains c then
        let target := Text.trimStart rest
        if target.isEmpty then .error (.blankSelector parent)
        else .ok (parent ++ ' ' :: c :: ' ' :: target)
      else .ok (parent ++ ' ' :: key)

def list (alternatives : List Text) : Text := List.intercalate [',', ' '] alternatives

/-- The selector of a scope with the given key in a scope with the given selector. The parent is
empty at the top level, where the key stands for itself. -/
def combine (parent key : Text) : Except StyleError Text := do
  let keys ← alternatives parent key
  if parent.isEmpty then
    match keys.find? isDependent with
    | some orphan => .error (.orphanKey orphan)
    | none => .ok (list keys)
  else
    let parents ← alternatives [] parent
    let combined ← (parents.flatMap fun p => keys.map (p, ·)).mapM fun pair => attach pair.1 pair.2
    .ok (list combined)

end Hypertext.Selector
