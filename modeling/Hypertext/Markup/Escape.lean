import Hypertext.Text.Basic

/-! Escaping. The five characters that markup gives a meaning are written as character references,
so no text can open or close a tag or an attribute value. -/

namespace Hypertext

def reference? : Char → Option Text
  | '&' => some "&amp;".toList
  | '<' => some "&lt;".toList
  | '>' => some "&gt;".toList
  | '"' => some "&quot;".toList
  | '\'' => some "&#x27;".toList
  | _ => none

def escapeChar (c : Char) : Text := (reference? c).getD [c]

/-- A text with none of the five is returned as it is. -/
def escape (t : Text) : Text :=
  if t.any fun c => (reference? c).isSome then t.flatMap escapeChar else t

/-- Reads the five references in one pass from the left; any other ampersand stays. -/
def unescape : Text → Text
  | '&' :: 'a' :: 'm' :: 'p' :: ';' :: rest => '&' :: unescape rest
  | '&' :: 'l' :: 't' :: ';' :: rest => '<' :: unescape rest
  | '&' :: 'g' :: 't' :: ';' :: rest => '>' :: unescape rest
  | '&' :: 'q' :: 'u' :: 'o' :: 't' :: ';' :: rest => '"' :: unescape rest
  | '&' :: '#' :: 'x' :: '2' :: '7' :: ';' :: rest => '\'' :: unescape rest
  | c :: rest => c :: unescape rest
  | [] => []

theorem escapeChar_of_reference?_eq_none {c : Char} (h : reference? c = none) :
    escapeChar c = [c] := by
  simp [escapeChar, h]

/-- The short way agrees with the loop over the characters. -/
theorem escape_eq_flatMap (t : Text) : escape t = t.flatMap escapeChar := by
  unfold escape
  split
  · rfl
  · next h =>
    induction t with
    | nil => rfl
    | cons c rest ih =>
        simp only [List.any_cons, Bool.or_eq_true, not_or, Bool.not_eq_true,
          Option.isSome_eq_false_iff, Option.isNone_iff_eq_none] at h
        simp only [List.flatMap_cons, escapeChar_of_reference?_eq_none h.1, List.singleton_append]
        rw [← ih (by simpa using h.2)]

end Hypertext
