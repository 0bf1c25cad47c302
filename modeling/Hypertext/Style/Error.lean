import Hypertext.Text.Basic

/-! Why a style cannot be written as CSS. -/

namespace Hypertext

inductive StyleError where
  | noValue (selector property : Text)
  | blankValue (selector property : Text)
  | blankProperty (selector : Text)
  | notFinite (selector property : Text)
  /-- A property after a nested scope. -/
  | propertyAfterScope (selector key : Text)
  | orphanKey (key : Text)
  | blankSelector (parent : Text)
  | propertyOutside (property : Text)
  | scopeInline (key : Text)
  | malformedStatement (statement : Text)
  deriving DecidableEq, Repr

namespace StyleError

def message : StyleError → Text
  | .noValue selector property => inSelector property selector ++ " has no value".toList
  | .blankValue selector property => inSelector property selector ++ " has an empty value".toList
  | .blankProperty selector => "Empty property name in ".toList ++ quoted selector
  | .notFinite selector property =>
      inSelector property selector ++ " is not a finite number".toList
  | .propertyAfterScope selector key =>
      "Ambiguous scope ".toList ++ quoted selector ++ ": property ".toList ++ quoted key ++
        " follows a nested scope".toList
  | .orphanKey key =>
      "Selector ".toList ++ quoted key ++ " needs a parent selector".toList
  | .blankSelector parent => "Empty selector under ".toList ++ quoted parent
  | .propertyOutside property =>
      "Property ".toList ++ quoted property ++ " declared outside of any selector".toList
  | .scopeInline key =>
      "Nested scope ".toList ++ quoted key ++ " cannot be used as an inline style".toList
  | .malformedStatement statement => "Malformed declaration ".toList ++ quoted statement
where
  quoted (t : Text) : Text := '\'' :: t ++ ['\'']
  inSelector (property selector : Text) : Text :=
    "Property ".toList ++ quoted property ++ " in ".toList ++ quoted selector

end StyleError

end Hypertext
