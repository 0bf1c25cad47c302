import Hypertext.Text.Split
import Hypertext.Style.Property

/-! Inline styles, the bodies of `style` attributes: statements between semicolons, each a key, a
colon and a value. -/

namespace Hypertext.Style

/-- The key and the value of a statement with exactly one colon. -/
def statement? (statement : Text) : Except StyleError (Text × Text) :=
  match Text.splitFirst? ':' statement with
  | some (key, value) =>
      if value.contains ':' then .error (.malformedStatement (Text.trim statement))
      else .ok (Text.trim key, Text.trim value)
  | none => .error (.malformedStatement (Text.trim statement))

/-- Inserts the statements in order and passes over the blank ones. -/
def insertStatements (s : Style) : List Text → Except StyleError Style
  | [] => .ok s
  | statement :: rest =>
      if (Text.trim statement).isEmpty then insertStatements s rest
      else do
        let (key, value) ← statement? statement
        insertStatements (s.insert key (.scalar (.text value))) rest

def ofInline (css : Text) : Except StyleError Style :=
  insertStatements .nil (Text.splitOn ';' css)

def inlineProperties : Style → Except StyleError (List Property)
  | .nil => .ok []
  | .scope key _ _ => .error (.scopeInline key)
  | .property key value rest => do
      let property ← Property.ofEntry [] key value
      let others ← inlineProperties rest
      .ok (property :: others)

def inlineText (s : Style) : Except StyleError Text :=
  (inlineProperties s).map fun properties => List.intercalate [' '] (properties.map Property.toText)

end Hypertext.Style
