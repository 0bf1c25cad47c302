/-! Texts as lists of characters, and what every format here asks of them. -/

namespace Hypertext

/-- The characters of a text in order; a statement about a text is one about a list. -/
abbrev Text := List Char

namespace Text

/-- ASCII capitals become small letters; every other character stays. -/
def lower (t : Text) : Text := t.map Char.toLower

/-- The number of bytes of the UTF-8 form. -/
def utf8Size (t : Text) : Nat := t.foldr (fun c size => c.utf8Size + size) 0

theorem lower_lower (t : Text) : lower (lower t) = lower t := by
  have again : ∀ c : Char, c.toLower.toLower = c.toLower := by
    delta Char.toLower
    grind
  simp [lower, again]

end Text

end Hypertext
