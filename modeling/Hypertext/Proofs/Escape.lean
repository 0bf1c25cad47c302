import Hypertext.Markup.Escape
import Hypertext.Number.Numeral

/-! Escaped texts read back, and none of their characters but the ampersand has a meaning in markup.
Numbers are written with digits, hyphens and points, which need no escaping. -/

namespace Hypertext

theorem escape_append (a b : Text) : escape (a ++ b) = escape a ++ escape b := by
  simp only [escape_eq_flatMap, List.flatMap_append]

theorem reference?_cases {c : Char} {r : Text} (h : reference? c = some r) :
    (c = '&' ∧ r = "&amp;".toList) ∨ (c = '<' ∧ r = "&lt;".toList) ∨
      (c = '>' ∧ r = "&gt;".toList) ∨ (c = '"' ∧ r = "&quot;".toList) ∨
      (c = '\'' ∧ r = "&#x27;".toList) := by
  unfold reference? at h
  split at h <;> simp_all

theorem unescape_cons {c : Char} {rest : Text} (plain : c ≠ '&') :
    unescape (c :: rest) = c :: unescape rest := by
  rw [unescape.eq_6] <;> simp [plain]

theorem unescape_escapeChar_append (c : Char) (rest : Text) :
    unescape (escapeChar c ++ rest) = c :: unescape rest := by
  cases h : reference? c with
  | none =>
      have plain : c ≠ '&' := by
        rintro rfl
        cases h
      rw [escapeChar_of_reference?_eq_none h]
      exact unescape_cons plain
  | some r =>
      have written : escapeChar c = r := by simp [escapeChar, h]
      rw [written]
      have known := reference?_cases h
      rcases known with ⟨rfl, rfl⟩ | ⟨rfl, rfl⟩ | ⟨rfl, rfl⟩ | ⟨rfl, rfl⟩ | ⟨rfl, rfl⟩ <;> rfl

theorem unescape_escape (t : Text) : unescape (escape t) = t := by
  rw [escape_eq_flatMap]
  induction t with
  | nil => rfl
  | cons c rest ih => rw [List.flatMap_cons, unescape_escapeChar_append, ih]

theorem escape_injective {a b : Text} (h : escape a = escape b) : a = b := by
  rw [← unescape_escape a, h, unescape_escape]

theorem reference?_of_mem_reference {c : Char} {r : Text} (h : reference? c = some r) :
    ∀ d ∈ r, d ≠ '&' → reference? d = none := by
  rcases reference?_cases h with ⟨_, rfl⟩ | ⟨_, rfl⟩ | ⟨_, rfl⟩ | ⟨_, rfl⟩ | ⟨_, rfl⟩ <;>
    simp [reference?]

theorem reference?_of_mem_escapeChar {c d : Char} (h : d ∈ escapeChar c) (other : d ≠ '&') :
    reference? d = none := by
  cases plain : reference? c with
  | none =>
      rw [escapeChar_of_reference?_eq_none plain] at h
      rw [List.mem_singleton.mp h]
      exact plain
  | some r =>
      have written : escapeChar c = r := by simp [escapeChar, plain]
      rw [written] at h
      exact reference?_of_mem_reference plain d h other

theorem reference?_of_mem_escape {t : Text} {d : Char} (h : d ∈ escape t) (other : d ≠ '&') :
    reference? d = none := by
  rw [escape_eq_flatMap] at h
  rcases List.mem_flatMap.mp h with ⟨c, _, here⟩
  exact reference?_of_mem_escapeChar here other

/-- The references in the order of the characters they stand for. -/
def references : List Text :=
  ["&amp;", "&lt;", "&gt;", "&quot;", "&#x27;"].map String.toList

theorem mem_references {c : Char} {r : Text} (h : reference? c = some r) : r ∈ references := by
  rcases reference?_cases h with ⟨_, rfl⟩ | ⟨_, rfl⟩ | ⟨_, rfl⟩ | ⟨_, rfl⟩ | ⟨_, rfl⟩ <;> decide

theorem reference_eq_cons {r : Text} (h : r ∈ references) :
    ∃ name, r = '&' :: name ∧ '&' ∉ name := by
  have each : ∀ r ∈ references, r = '&' :: r.tail ∧ '&' ∉ r.tail := by decide
  exact ⟨r.tail, each r h⟩

/-- An ampersand among the characters that are written for one stands at their start, and then a
reference does too. -/
theorem reference_of_escapeChar {c : Char} {before after : Text}
    (h : escapeChar c = before ++ '&' :: after) : before = [] ∧ escapeChar c ∈ references := by
  cases found : reference? c with
  | none =>
      rw [escapeChar_of_reference?_eq_none found] at h
      have here : '&' ∈ [c] := h ▸ List.mem_append_right before List.mem_cons_self
      rw [← List.mem_singleton.mp here] at found
      cases found
  | some r =>
      have written : escapeChar c = r := by simp [escapeChar, found]
      have known := mem_references found
      rw [written] at h ⊢
      refine ⟨?_, known⟩
      obtain ⟨name, rfl, single⟩ := reference_eq_cons known
      cases before with
      | nil => rfl
      | cons d before =>
          have later : '&' ∈ name := by
            rw [(List.cons.inj h).2]
            exact List.mem_append_right before List.mem_cons_self
          exact absurd later single

theorem reference_of_ampersand {t before after : Text} (h : escape t = before ++ '&' :: after) :
    ∃ r ∈ references, r <+: '&' :: after := by
  rw [escape_eq_flatMap] at h
  induction t generalizing before with
  | nil =>
      rw [List.flatMap_nil, List.nil_eq_append_iff] at h
      cases h.2
  | cons c rest ih =>
      rw [List.flatMap_cons] at h
      rcases List.append_eq_append_iff.mp h with ⟨inside, _, later⟩ | ⟨inside, here, tail⟩
      · exact ih later
      · cases inside with
        | nil =>
            have atStart : rest.flatMap escapeChar = [] ++ '&' :: after := tail.symm
            exact ih atStart
        | cons d inside =>
            obtain ⟨rfl, rest_eq⟩ := List.cons.inj tail
            obtain ⟨rfl, known⟩ := reference_of_escapeChar here
            refine ⟨escapeChar c, known, ?_⟩
            rw [here, rest_eq]
            exact List.cons_prefix_cons.mpr ⟨rfl, List.prefix_append _ _⟩

/-- Escaping is safe and can be undone. Of the five characters only ampersands are left, each at the
start of a reference; one pass that reads the references gives the text back; and a text is escaped
character by character, so its parts can be escaped apart. -/
theorem escape_laws (s : Text) :
    (∀ c ∈ escape s, c ∉ ['<', '>', '"', '\'']) ∧
    (∀ before after, escape s = before ++ '&' :: after → ∃ r ∈ references, r <+: '&' :: after) ∧
    unescape (escape s) = s ∧
    (∀ t, escape s = escape t → s = t) ∧
    escape s = s.flatMap escapeChar ∧
    ∀ t, escape (s ++ t) = escape s ++ escape t := by
  refine ⟨?_, fun _ _ => reference_of_ampersand, unescape_escape s, fun _ => escape_injective,
    escape_eq_flatMap s, escape_append s⟩
  intro c member marked
  have other : c ≠ '&' := by
    rintro rfl
    revert marked
    decide
  have plain := reference?_of_mem_escape member other
  have all : ['<', '>', '"', '\''].all (fun d => (reference? d).isSome) := by decide
  have meant := List.all_eq_true.mp all c marked
  rw [plain] at meant
  cases meant

-- A text that already looks escaped is escaped again, so it reads back as it was.
example : escape "&lt;".toList = "&amp;lt;".toList := by decide

theorem escape_ne_nil {t : Text} (h : t ≠ []) : escape t ≠ [] :=
  fun empty => h (escape_injective empty)

theorem escape_of_plain {t : Text} (plain : ∀ c ∈ t, reference? c = none) : escape t = t := by
  unfold escape
  rw [if_neg]
  simpa using plain

namespace Text

def isNumeral (c : Char) : Bool := c.isDigit || c == '-' || c == '.'

theorem reference?_of_isNumeral {c : Char} (h : isNumeral c) : reference? c = none := by
  cases written : reference? c with
  | none => rfl
  | some r =>
      rcases reference?_cases written with
        ⟨rfl, _⟩ | ⟨rfl, _⟩ | ⟨rfl, _⟩ | ⟨rfl, _⟩ | ⟨rfl, _⟩ <;> cases h

theorem ofNat_isNumeral (n : Nat) : ∀ c ∈ ofNat n, isNumeral c := by
  intro c member
  have digit : c.isDigit := Nat.isDigit_of_mem_toDigits (by decide) (by decide) member
  simp [isNumeral, digit]

theorem zeros_isNumeral (n : Nat) : ∀ c ∈ List.replicate n '0', isNumeral c := by
  intro c member
  rw [List.eq_of_mem_replicate member]
  decide

theorem positional_isNumeral (digits : Nat) (place : Int) :
    ∀ c ∈ positional digits place, isNumeral c := by
  have shown := ofNat_isNumeral digits
  intro c member
  simp only [positional] at member
  split at member
  · rcases List.mem_append.mp member with member | member
    · exact shown c member
    · exact zeros_isNumeral _ c member
  · have padded : ∀ c ∈ List.replicate ((-place).toNat + 1 - (ofNat digits).length) '0' ++
        ofNat digits, isNumeral c := by
      intro c member
      rcases List.mem_append.mp member with member | member
      · exact zeros_isNumeral _ c member
      · exact shown c member
    rcases List.mem_append.mp member with member | member
    · exact padded c (List.mem_of_mem_take member)
    · rcases List.mem_cons.mp member with rfl | member
      · decide
      · exact padded c (List.mem_of_mem_drop member)

theorem ofNat_ne_nil (n : Nat) : ofNat n ≠ [] := Nat.toDigits_ne_nil

theorem positional_ne_nil (digits : Nat) (place : Int) : positional digits place ≠ [] := by
  simp only [positional]
  split
  · exact List.append_ne_nil_of_left_ne_nil (ofNat_ne_nil digits) _
  · exact List.append_ne_nil_of_right_ne_nil _ (List.cons_ne_nil _ _)

end Text

namespace Binary64

theorem sizeText_isNumeral (significand : Nat) (exponent : Int) :
    ∀ c ∈ sizeText significand exponent, Text.isNumeral c := by
  unfold sizeText
  split
  · split
    · exact Text.ofNat_isNumeral _
    · exact Text.positional_isNumeral _ _
  · exact Text.positional_isNumeral _ _

theorem toText_isNumeral {x : Binary64} (finite : x.isFinite) :
    ∀ c ∈ x.toText, Text.isNumeral c := by
  cases x with
  | nan => cases finite
  | infinite negative => cases finite
  | finite negative significand exponent =>
      intro c member
      simp only [toText] at member
      split at member
      · rcases List.mem_cons.mp member with rfl | member
        · decide
        · exact sizeText_isNumeral _ _ c member
      · exact sizeText_isNumeral _ _ c member

theorem sizeText_ne_nil (significand : Nat) (exponent : Int) :
    sizeText significand exponent ≠ [] := by
  unfold sizeText
  split
  · split
    · exact Text.ofNat_ne_nil _
    · exact Text.positional_ne_nil _ _
  · exact Text.positional_ne_nil _ _

theorem toText_ne_nil (x : Binary64) : x.toText ≠ [] := by
  cases x with
  | nan => simp [toText]
  | infinite negative => cases negative <;> simp [toText]
  | finite negative significand exponent =>
      rw [toText]
      split
      · exact List.cons_ne_nil _ _
      · exact sizeText_ne_nil _ _

theorem escape_toText (x : Binary64) : escape x.toText = x.toText := by
  cases x with
  | nan => decide
  | infinite negative => cases negative <;> decide
  | finite negative significand exponent =>
      apply escape_of_plain
      intro c member
      exact Text.reference?_of_isNumeral (toText_isNumeral rfl c member)

end Binary64

end Hypertext
