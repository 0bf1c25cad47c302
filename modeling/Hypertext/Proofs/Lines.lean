import Hypertext.Style.Css
import Hypertext.Proofs.Flattening

/-! The lines of a sheet's text. Between the empty lines there is one block for each rule: its first
line holds the selector, its last one a brace, and each line between them a property. As long as the
parts hold no line feeds, the lines are read back from the text, and the rules from the lines. -/

theorem List.intercalate_ne_nil {α : Type} {mark : α} {xs : List (List α)} (some : xs ≠ [])
    (each : ∀ x ∈ xs, x ≠ []) : [mark].intercalate xs ≠ [] := by
  cases xs with
  | nil => exact absurd rfl some
  | cons x rest =>
      cases rest with
      | nil => simpa using each x List.mem_cons_self
      | cons y more => simp [List.intercalate_cons_cons]

theorem List.mem_of_mem_intercalate {α : Type} {between : List α} {xs : List (List α)} {a : α}
    (h : a ∈ between.intercalate xs) : a ∈ between ∨ ∃ x ∈ xs, a ∈ x := by
  induction xs with
  | nil => simp at h
  | cons x rest ih =>
      cases rest with
      | nil => exact .inr ⟨x, List.mem_cons_self, by simpa using h⟩
      | cons y more =>
          rw [List.intercalate_cons_cons, List.append_assoc] at h
          rcases List.mem_append.mp h with here | h
          · exact .inr ⟨x, List.mem_cons_self, here⟩
          rcases List.mem_append.mp h with here | h
          · exact .inl here
          · exact (ih h).imp id fun ⟨z, source, inside⟩ => ⟨z, .tail _ source, inside⟩

theorem List.intercalate_inj_of_not_mem {α : Type} [DecidableEq α] {mark : α}
    {xs ys : List (List α)} (hx : ∀ x ∈ xs, x ≠ [] ∧ mark ∉ x) (hy : ∀ y ∈ ys, y ≠ [] ∧ mark ∉ y)
    (same : [mark].intercalate xs = [mark].intercalate ys) : xs = ys := by
  by_cases noX : xs = []
  · by_contra different
    have someY : ys ≠ [] := fun noY => different (noX.trans noY.symm)
    apply List.intercalate_ne_nil someY fun y member => (hy y member).1
    rw [← same, noX, List.intercalate_nil]
  by_cases noY : ys = []
  · have none : [mark].intercalate xs = [] := by rw [same, noY, List.intercalate_nil]
    exact absurd none (List.intercalate_ne_nil noX fun x member => (hx x member).1)
  calc
    xs = List.splitOn mark ([mark].intercalate xs) :=
        (List.splitOn_intercalate mark (fun x member => (hx x member).2) noX).symm
    _ = ys := by
      rw [same, List.splitOn_intercalate mark (fun y member => (hy y member).2) noY]

theorem List.map_eq_map_of_inj {α β γ : Type} {f : α → β} {g : α → γ} {p : α → Prop}
    (inj : ∀ x y, p x → p y → f x = f y → g x = g y) {xs ys : List α} (hx : ∀ x ∈ xs, p x)
    (hy : ∀ y ∈ ys, p y) (same : xs.map f = ys.map f) : xs.map g = ys.map g := by
  induction xs generalizing ys with
  | nil =>
      cases ys with
      | nil => rfl
      | cons y ys => cases same
  | cons x xs ih =>
      cases ys with
      | nil => cases same
      | cons y ys =>
          obtain ⟨heads, tails⟩ := List.cons.inj same
          rw [List.forall_mem_cons] at hx hy
          rw [List.map_cons, List.map_cons, inj x y hx.1 hy.1 heads, ih hx.2 hy.2 tails]

namespace Hypertext

namespace Text

def unlines (lines : List Text) : Text := lines.flatMap (· ++ ['\n'])

theorem unlines_append (a b : List Text) : unlines (a ++ b) = unlines a ++ unlines b :=
  List.flatMap_append

theorem unlines_inj {a b : List Text} (ha : ∀ line ∈ a, '\n' ∉ line) (hb : ∀ line ∈ b, '\n' ∉ line)
    (same : unlines a = unlines b) : a = b := by
  -- the text after the last line feed is empty
  have read : ∀ {lines : List Text}, (∀ line ∈ lines, '\n' ∉ line) →
      List.splitOn '\n' (unlines lines) = lines ++ [[]] := by
    intro lines feedless
    have joined : unlines lines = ['\n'].intercalate (lines ++ [[]]) := by
      clear feedless
      induction lines with
      | nil => rfl
      | cons line rest ih =>
          rw [List.cons_append, List.intercalate_cons_of_ne_nil (by simp), ← ih]
          rfl
    rw [joined, List.splitOn_intercalate _ _ (by simp)]
    intro line member
    rcases List.mem_append.mp member with member | member
    · exact feedless line member
    · rw [List.mem_singleton.mp member]
      exact List.not_mem_nil
  have lines : a ++ [[]] = b ++ [[]] := by rw [← read ha, same, read hb]
  exact List.append_cancel_right lines

theorem pad_inj {m n : Nat} {t u : Text} (ht : t.Stops (· == ' ')) (hu : u.Stops (· == ' '))
    (same : List.replicate m ' ' ++ t = List.replicate n ' ' ++ u) : m = n ∧ t = u := by
  have spaces : ∀ k : Nat, ∀ c ∈ List.replicate k ' ', (c == ' ') = true := by
    intro k c member
    rw [List.eq_of_mem_replicate member]
    rfl
  obtain ⟨pads, rest⟩ := append_inj_of_stops (spaces m) (spaces n) ht hu same
  have widths := congrArg List.length pads
  rw [List.length_replicate, List.length_replicate] at widths
  exact ⟨widths, rest⟩

end Text

namespace Property

def mark : Text := [':', ' ']

theorem mark_append_eq {c x y : Text} (same : mark ++ x = c ++ (mark ++ y)) :
    c = [] ∨ mark <:+: c := by
  match c with
  | [] => exact .inl rfl
  | [d] => simp [mark] at same
  | d :: e :: more =>
      simp only [mark, List.cons_append, List.cons.injEq] at same
      obtain ⟨rfl, rfl, _⟩ := same
      exact .inr ⟨[], more, rfl⟩

theorem name_inj_of_mark {a b x y : Text} (ha : ¬mark <:+: a) (hb : ¬mark <:+: b)
    (same : a ++ (mark ++ x) = b ++ (mark ++ y)) : a = b ∧ x = y := by
  have equal : a = b := by
    rcases List.append_eq_append_iff.mp same with ⟨c, longer, rest⟩ | ⟨c, longer, rest⟩
    · rcases mark_append_eq rest with rfl | inside
      · rw [longer, List.append_nil]
      · exact absurd (longer ▸ inside.trans (List.suffix_append a c).isInfix) hb
    · rcases mark_append_eq rest with rfl | inside
      · rw [longer, List.append_nil]
      · exact absurd (longer ▸ inside.trans (List.suffix_append b c).isInfix) ha
  rw [equal] at same
  exact ⟨equal, List.append_cancel_left (List.append_cancel_left same)⟩

theorem toText_inj {p q : Property} (hp : ¬mark <:+: p.name) (hq : ¬mark <:+: q.name)
    (same : p.toText = q.toText) : p = q := by
  have unended : p.name ++ (mark ++ p.value) = q.name ++ (mark ++ q.value) :=
    List.append_cancel_right same
  obtain ⟨names, values⟩ := name_inj_of_mark hp hq unended
  cases p
  cases q
  simp_all

end Property

namespace Rule

def pad (indent : Nat) (r : Rule) : Text := List.replicate (r.padWidth indent) ' '

def header (indent : Nat) (r : Rule) : Text := r.pad indent ++ (r.selector ++ r" {".toList)

def footer (indent : Nat) (r : Rule) : Text := r.pad indent ++ ['}']

def propertyLine (indent : Nat) (r : Rule) (p : Property) : Text :=
  r.pad indent ++ List.replicate indent ' ' ++ p.toText

def lines (indent : Nat) (r : Rule) : List Text :=
  r.header indent :: (r.properties.map (r.propertyLine indent) ++ [r.footer indent])

theorem toCss_eq_unlines (indent : Nat) (r : Rule) :
    r.toCss indent = Text.unlines (r.lines indent) := by
  simp [toCss, Text.unlines, lines, header, footer, propertyLine, pad, List.flatMap_map]

/-- What the parts of a rule must not hold to be told apart in its text. -/
structure Legible (r : Rule) : Prop where
  selector : '\n' ∉ r.selector
  names : ∀ p ∈ r.properties, '\n' ∉ p.name
  values : ∀ p ∈ r.properties, '\n' ∉ p.value
  marks : ∀ p ∈ r.properties, ¬Property.mark <:+: p.name

variable {indent : Nat} {r q : Rule}

theorem line_ne_nil : ∀ line ∈ r.lines indent, line ≠ [] := by
  intro line member
  rcases List.mem_cons.mp member with rfl | member
  · simp [header]
  rcases List.mem_append.mp member with member | member
  · rcases List.mem_map.mp member with ⟨p, _, rfl⟩
    simp [propertyLine, Property.toText]
  · rw [List.mem_singleton.mp member]
    simp [footer]

theorem Legible.not_mem_line (h : r.Legible) : ∀ line ∈ r.lines indent, '\n' ∉ line := by
  intro line member
  rcases List.mem_cons.mp member with rfl | member
  · simp [header, pad, h.selector]
  rcases List.mem_append.mp member with member | member
  · rcases List.mem_map.mp member with ⟨p, own, rfl⟩
    simp [propertyLine, pad, Property.toText, h.names p own, h.values p own]
  · rw [List.mem_singleton.mp member]
    simp [footer, pad]

theorem header_inj (hr : Selector.IsCombined r.selector) (hq : Selector.IsCombined q.selector)
    (same : r.header indent = q.header indent) :
    r.padWidth indent = q.padWidth indent ∧ r.selector = q.selector := by
  have stops : ∀ {selector : Text}, Selector.IsCombined selector →
      (selector ++ r" {".toList).Stops (· == ' ') := by
    intro selector h c first
    rw [List.head?_append_of_ne_nil _ h.ne_nil] at first
    have ink := h.first c first
    rw [beq_eq_false_iff_ne]
    rintro rfl
    cases ink
  obtain ⟨widths, selectors⟩ := Text.pad_inj (stops hr) (stops hq) same
  exact ⟨widths, List.append_cancel_right selectors⟩

theorem lines_inj (hr : Selector.IsCombined r.selector) (hq : Selector.IsCombined q.selector)
    (legibleR : r.Legible) (legibleQ : q.Legible) (same : r.lines indent = q.lines indent) :
    r.padWidth indent = q.padWidth indent ∧ r.selector = q.selector ∧
      r.properties = q.properties := by
  obtain ⟨headers, others⟩ := List.cons.inj same
  obtain ⟨widths, selectors⟩ := header_inj hr hq headers
  obtain ⟨declared, _⟩ := List.append_inj' others rfl
  have inj : ∀ p p' : Property, ¬Property.mark <:+: p.name → ¬Property.mark <:+: p'.name →
      r.propertyLine indent p = r.propertyLine indent p' → id p = id p' :=
    fun p p' hp hp' equal => Property.toText_inj hp hp' (List.append_cancel_left equal)
  have indented : q.propertyLine indent = r.propertyLine indent := by
    funext p
    rw [propertyLine, propertyLine, pad, pad, widths]
  rw [indented] at declared
  have properties := List.map_eq_map_of_inj inj legibleR.marks legibleQ.marks declared
  rw [List.map_id, List.map_id] at properties
  exact ⟨widths, selectors, properties⟩

end Rule

namespace Sheet

def lines (indent : Nat) (a : Sheet) : List Text :=
  [[]].intercalate (a.rules.map (Rule.lines indent))

theorem toCss_eq_unlines (indent : Nat) (a : Sheet) :
    a.toCss indent = Text.unlines (a.lines indent) := by
  rw [toCss, lines]
  induction a.rules with
  | nil => rfl
  | cons r rest ih =>
      cases rest with
      | nil => simp [Rule.toCss_eq_unlines]
      | cons q more =>
          simp only [List.map_cons, List.intercalate_cons_cons, Text.unlines_append] at ih ⊢
          rw [ih, Rule.toCss_eq_unlines]
          rfl

variable {indent : Nat} {a b : Sheet}

theorem not_mem_line (legible : ∀ r ∈ a.rules, r.Legible) :
    ∀ line ∈ a.lines indent, '\n' ∉ line := by
  intro line member
  rcases List.mem_of_mem_intercalate member with empty | ⟨block, source, inside⟩
  · rw [List.mem_singleton.mp empty]
    exact List.not_mem_nil
  · rcases List.mem_map.mp source with ⟨r, own, rfl⟩
    exact (legible r own).not_mem_line line inside

theorem map_lines_inj (same : a.lines indent = b.lines indent) :
    a.rules.map (Rule.lines indent) = b.rules.map (Rule.lines indent) := by
  have blocks : ∀ c : Sheet, ∀ block ∈ c.rules.map (Rule.lines indent),
      block ≠ [] ∧ [] ∉ block := by
    intro c block member
    rcases List.mem_map.mp member with ⟨r, _, rfl⟩
    exact ⟨List.cons_ne_nil _ _, fun empty => Rule.line_ne_nil [] empty rfl⟩
  exact List.intercalate_inj_of_not_mem (blocks a) (blocks b) same

/-- The text of a sheet determines its selectors and properties, and the depths too unless nothing
is indented. -/
theorem items_eq_of_toCss_eq {s t : Style} (compiledA : ofStyle s = .ok a)
    (compiledB : ofStyle t = .ok b) (legibleA : ∀ r ∈ a.rules, r.Legible)
    (legibleB : ∀ r ∈ b.rules, r.Legible) (same : a.toCss indent = b.toCss indent) :
    a.items = b.items ∧ (1 ≤ indent → a.rules.map (·.depth) = b.rules.map (·.depth)) := by
  have lines : a.lines indent = b.lines indent := by
    apply Text.unlines_inj (not_mem_line legibleA) (not_mem_line legibleB)
    rw [← toCss_eq_unlines, same, toCss_eq_unlines]
  have blocks := map_lines_inj lines
  have readableA : ∀ r ∈ a.rules, Selector.IsCombined r.selector ∧ r.Legible :=
    fun r own => ⟨isCombined_of_mem_rules compiledA r own, legibleA r own⟩
  have readableB : ∀ r ∈ b.rules, Selector.IsCombined r.selector ∧ r.Legible :=
    fun r own => ⟨isCombined_of_mem_rules compiledB r own, legibleB r own⟩
  constructor
  · refine List.map_eq_map_of_inj ?_ readableA readableB blocks
    intro r q hr hq equal
    obtain ⟨_, selectors, properties⟩ := Rule.lines_inj hr.1 hq.1 hr.2 hq.2 equal
    rw [selectors, properties]
  · intro indented
    refine List.map_eq_map_of_inj ?_ readableA readableB blocks
    intro r q hr hq equal
    obtain ⟨widths, _, _⟩ := Rule.lines_inj hr.1 hq.1 hr.2 hq.2 equal
    exact Nat.eq_of_mul_eq_mul_left indented widths

def note : Property := ⟨"content".toList, r#"": }""#.toList⟩

def noteSelector : Text := r#"nav a[title="{: ;"]"#.toList

/-- One scope inside another, or one scope alone: only the indentation of the text tells them
apart. -/
def nestedNote : Style :=
  .scope "nav".toList
    (.scope r#"a[title="{: ;"]"#.toList (.property note.name (.text note.value) .nil) .nil) .nil

def flatNote : Style :=
  .scope noteSelector (.property note.name (.text note.value) .nil) .nil

def noteSheet (depth : Nat) : Sheet := ⟨[⟨noteSelector, [note], depth⟩]⟩

theorem items_eq_of_toCss_eq_note :
    ofStyle nestedNote = .ok (noteSheet 1) ∧ ofStyle flatNote = .ok (noteSheet 0) ∧
      (∀ depth, ∀ r ∈ (noteSheet depth).rules, r.Legible) ∧
      (noteSheet 1).toCss 0 = (noteSheet 0).toCss 0 ∧
      (noteSheet 1).items = (noteSheet 0).items := by
  have nested : ofStyle nestedNote = .ok (noteSheet 1) := rfl
  have flat : ofStyle flatNote = .ok (noteSheet 0) := rfl
  have feedless : '\n' ∉ noteSelector ∧ '\n' ∉ note.name ∧ '\n' ∉ note.value := by decide
  have unmarked : ¬Property.mark <:+: note.name := by
    intro inside
    have colon : ':' ∈ note.name := inside.subset List.mem_cons_self
    revert colon
    decide
  have legible : ∀ depth, ∀ r ∈ (noteSheet depth).rules, r.Legible := by
    intro depth r member
    obtain rfl := List.mem_singleton.mp member
    exact ⟨feedless.1, List.forall_mem_singleton.mpr feedless.2.1,
      List.forall_mem_singleton.mpr feedless.2.2, List.forall_mem_singleton.mpr unmarked⟩
  have same : (noteSheet 1).toCss 0 = (noteSheet 0).toCss 0 := rfl
  obtain ⟨items, _⟩ := items_eq_of_toCss_eq nested flat (legible 1) (legible 0) same
  exact ⟨nested, flat, legible, same, items⟩

end Sheet

end Hypertext
