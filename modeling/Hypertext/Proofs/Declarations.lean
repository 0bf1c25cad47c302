import Hypertext.Proofs.Escape
import Hypertext.Proofs.Flat
import Mathlib.Data.List.Nodup

/-! The declarations of a rule. Trimming takes the blanks from both ends of a name or a value, and
then the spaces, semicolons and colons from its end. Something is always left, but if another blank
stood right before what is dropped last, that blank is the end now. And keys that differ only in what
is trimmed become one name, so a rule can have it twice. -/

namespace Hypertext

theorem Text.isBlank_of_isNumeral {c : Char} (h : isNumeral c) : isBlank c = false := by
  simp only [isNumeral, Bool.or_eq_true, beq_iff_eq] at h
  rcases h with (digit | rfl) | rfl
  · obtain ⟨low, high⟩ := Char.isDigit_iff_toNat.mp digit
    have apart : ∀ range ∈ blankRanges, range.2 < '0'.toNat ∨ '9'.toNat < range.1 := by decide
    rw [isBlank, List.any_eq_false]
    intro range member
    have outside := apart range member
    rw [Bool.and_eq_true, decide_eq_true_eq, decide_eq_true_eq]
    omega
  · rfl
  · rfl

namespace Property

/-- A name or a value with nothing at its ends that trimming takes away. -/
structure Clean (t : Text) : Prop where
  nonempty : t ≠ []
  trimmed : t.Trimmed
  unmarked : ∀ c ∈ t.getLast?, c ∉ [';', ':']

/-- What is sure of every name and value. -/
structure Shorn (t : Text) : Prop where
  nonempty : t ≠ []
  first : ∀ c ∈ t.head?, Text.isBlank c = false
  last : ∀ c ∈ t.getLast?, c ∉ [' ', ';', ':']

/-- A blank that is no space stands right before the marks at the end. -/
def HidesBlank (t : Text) : Prop :=
  ∃ front blank marks, Text.trim t = front ++ blank :: marks ∧ Text.isBlank blank ∧ blank ≠ ' ' ∧
    ∀ c ∈ marks, c ∈ [' ', ';', ':']

variable {t : Text}

theorem Clean.trim_eq (clean : Clean t) : trim t = t :=
  trim_eq_self clean.trimmed clean.unmarked

theorem exists_marks (t : Text) :
    ∃ marks, Text.trim t = trim t ++ marks ∧ ∀ c ∈ marks, c ∈ [' ', ';', ':'] := by
  refine ⟨(Text.trim t).rtakeWhile ([' ', ';', ':'].contains ·),
    List.rdropWhile_append_rtakeWhile.symm, fun c member => ?_⟩
  exact List.contains_iff_mem.mp (List.mem_rtakeWhile_imp member)

theorem shorn_trim (some : trim t ≠ []) : Shorn (trim t) := by
  obtain ⟨marks, split, _⟩ := exists_marks t
  refine ⟨some, ?_, ?_⟩
  · intro c first
    apply (Text.trimmed_trim t).first c
    rw [split, List.head?_append_of_ne_nil _ some]
    exact first
  · intro c last marked
    have stop := List.rdropWhile_last_not _ (Text.trim t) some
    rw [List.getLast?_eq_getLast_of_ne_nil some] at last
    obtain rfl := Option.some.inj last
    exact stop (List.contains_iff_mem.mpr marked)

theorem hidesBlank_iff : HidesBlank t ↔ ∃ c ∈ (trim t).getLast?, Text.isBlank c = true := by
  constructor
  · rintro ⟨front, blank, marks, split, isBlank, noSpace, dropped⟩
    have stays : ¬[' ', ';', ':'].contains blank = true := by
      intro marked
      rw [List.contains_iff_mem, List.mem_cons, List.mem_cons, List.mem_singleton] at marked
      rcases marked with same | rfl | rfl
      · exact noSpace same
      · cases isBlank
      · cases isBlank
    have left : trim t = front ++ [blank] := by
      rw [trim, split, List.append_cons, Text.dropEndWhile_append, Text.dropEndWhile_append_singleton,
        if_neg stays]
      exact fun c member => List.contains_iff_mem.mpr (dropped c member)
    exact ⟨blank, by simp [left], isBlank⟩
  · rintro ⟨blank, last, isBlank⟩
    obtain ⟨marks, split, dropped⟩ := exists_marks t
    obtain ⟨front, left⟩ := List.getLast?_eq_some_iff.mp last
    have some : trim t ≠ [] := by simp [left]
    refine ⟨front, blank, marks, ?_, isBlank, ?_, dropped⟩
    · rw [split, left, List.append_assoc, List.singleton_append]
    · rintro rfl
      exact (shorn_trim some).last ' ' last List.mem_cons_self

theorem clean_trim_iff (some : trim t ≠ []) : Clean (trim t) ↔ ¬HidesBlank t := by
  rw [hidesBlank_iff]
  have shorn := shorn_trim some
  constructor
  · rintro clean ⟨c, last, blank⟩
    rw [clean.trimmed.last c last] at blank
    cases blank
  · intro none
    refine ⟨some, ⟨shorn.first, fun c last => ?_⟩, fun c last marked => ?_⟩
    · rw [← Bool.not_eq_true]
      exact fun blank => none ⟨c, last, blank⟩
    · exact shorn.last c last (List.mem_cons_of_mem _ marked)

theorem trim_eq_self_iff (some : t ≠ []) : trim t = t ↔ Clean t := by
  refine ⟨fun same => ?_, Clean.trim_eq⟩
  obtain ⟨marks, split, _⟩ := exists_marks t
  obtain ⟨before, after, whole, _⟩ := Text.exists_trim t
  -- the text is no longer than what is left of it, so nothing was dropped
  have whole := congrArg List.length whole
  rw [split, same] at whole
  simp only [List.length_append] at whole
  have none : marks = [] := List.eq_nil_of_length_eq_zero (by omega)
  rw [same, none, List.append_nil] at split
  have shorn := shorn_trim (t := t) (by rwa [same])
  rw [same] at shorn
  refine ⟨some, split ▸ Text.trimmed_trim t, fun c last marked => ?_⟩
  exact shorn.last c last (List.mem_cons_of_mem _ marked)

theorem clean_of_forall (some : t ≠ [])
    (each : ∀ c ∈ t, Text.isBlank c = false ∧ c ∉ [';', ':']) : Clean t := by
  refine ⟨some, ⟨fun c first => ?_, fun c last => ?_⟩, fun c last => ?_⟩
  · exact (each c (List.mem_of_mem_head? first)).1
  · exact (each c (List.mem_of_getLast? last)).1
  · exact (each c (List.mem_of_getLast? last)).2

theorem clean_numberText (name : Text) {x : Binary64} (finite : x.isFinite) :
    Clean (numberText name x) := by
  have number : ∀ c ∈ x.toText, Text.isBlank c = false ∧ c ∉ [';', ':'] := by
    intro c member
    have numeral := Binary64.toText_isNumeral finite c member
    refine ⟨Text.isBlank_of_isNumeral numeral, fun marked => ?_⟩
    rw [List.mem_cons, List.mem_singleton] at marked
    rcases marked with rfl | rfl <;> cases numeral
  have some := x.toText_ne_nil
  rw [numberText]
  split
  · exact clean_of_forall some number
  · apply clean_of_forall (List.append_ne_nil_of_left_ne_nil some _)
    rw [List.forall_mem_append]
    refine ⟨number, fun c member => ?_⟩
    have unit : c = 'p' ∨ c = 'x' := by simpa using member
    rcases unit with rfl | rfl <;> exact ⟨rfl, by decide⟩

/-- What trimming makes of a key or a text. It can be trimmed further just if a blank was hidden. -/
structure Trims (source result : Text) : Prop where
  shorn : Shorn result
  clean_iff : Clean result ↔ ¬HidesBlank source
  again_iff : trim result = result ↔ ¬HidesBlank source

theorem trims_trim (some : trim t ≠ []) : Trims t (trim t) :=
  ⟨shorn_trim some, clean_trim_iff some, (trim_eq_self_iff some).trans (clean_trim_iff some)⟩

structure TrimsEntry (entry : Text × Scalar) (p : Property) : Prop where
  name : Trims entry.1 p.name
  text : ∀ t, entry.2 = .text t → Trims t p.value
  number : ∀ x, entry.2 = .number x → Clean p.value ∧ trim p.value = p.value

theorem trimsEntry_of_declared {entry : Text × Scalar} {p : Property}
    (declared : declared? entry = some p) (named : trim entry.1 ≠ []) (writable : entry.2.Writable) :
    TrimsEntry entry p := by
  obtain ⟨key, value⟩ := entry
  cases value with
  | null => cases declared
  | text t =>
      cases declared
      refine ⟨trims_trim named, ?_, ?_⟩
      · rintro _ ⟨⟩
        exact trims_trim writable
      · intro x other
        cases other
  | number x =>
      cases declared
      have clean := clean_numberText (trim key) writable
      refine ⟨trims_trim named, ?_, ?_⟩
      · intro t other
        cases other
      · rintro _ ⟨⟩
        exact ⟨clean, clean.trim_eq⟩

theorem trimsEntry_of_ofEntry {selector key : Text} {value : Scalar} {p : Property}
    (h : ofEntry selector key value = .ok p) : TrimsEntry (key, value) p := by
  have fine : error? selector key value = none := by
    rw [← error?_ofEntry, h]
    rfl
  obtain ⟨named, writable⟩ := error?_eq_none_iff.mp fine
  exact trimsEntry_of_declared (declared?_of_ofEntry h) named writable

end Property

theorem Rule.Describes.forall₂_declared {r : Rule} {scope : List Text × Style}
    (h : r.Describes scope) :
    List.Forall₂ (fun entry p => Property.declared? entry = some p) scope.2.scalars
      r.properties := by
  have same := h.properties.symm
  rw [← List.forall₂_eq_eq_eq, List.forall₂_map_left_iff, List.forall₂_map_right_iff] at same
  exact same

theorem Style.forall₂_trimsEntry_of_inlineProperties {s : Style} {properties : List Property}
    (h : s.inlineProperties = .ok properties) :
    List.Forall₂ Property.TrimsEntry s.scalars properties := by
  induction s generalizing properties with
  | nil =>
      cases h
      exact .nil
  | scope key inner rest _ _ => cases h
  | property key value rest ih =>
      obtain ⟨p, here, h⟩ := Except.bind_eq_ok_iff.mp h
      obtain ⟨others, below, h⟩ := Except.bind_eq_ok_iff.mp h
      cases h
      exact .cons (Property.trimsEntry_of_ofEntry here) (ih below)

namespace Sheet

/-- No name and no value of a sheet or of an inline text is empty, starts with a blank or ends with a
space, a semicolon or a colon. It ends with another blank just where its source has one right before
the marks at its end, and only then does trimming it again take more away. -/
theorem trims_entries (s : Style) :
    (∀ sheet, ofStyle s = .ok sheet → ∀ r ∈ sheet.rules, ∃ scope ∈ s.scopes [],
      r.Describes scope ∧ List.Forall₂ Property.TrimsEntry scope.2.scalars r.properties) ∧
    ∀ t, s.inlineText = .ok t → ∃ properties : List Property,
      t = List.intercalate [' '] (properties.map Property.toText) ∧
        List.Forall₂ Property.TrimsEntry s.scalars properties := by
  constructor
  · intro sheet compiled r member
    obtain ⟨scope, inside, describes⟩ := exists_describes_of_mem_rules compiled member
    refine ⟨scope, inside, describes, ?_⟩
    have right := (scopeAccepted_of_ofStyle compiled scope inside).scalars
    have entries := (List.forall₂_and_left _ _).mpr ⟨right, describes.forall₂_declared⟩
    exact entries.imp fun _ _ ⟨⟨named, writable⟩, declared⟩ =>
      Property.trimsEntry_of_declared declared named writable
  · intro t written
    obtain ⟨properties, built, rfl⟩ := Except.map_eq_ok_iff.mp written
    exact ⟨properties, rfl, Style.forall₂_trimsEntry_of_inlineProperties built⟩

theorem trims_entries_headings :
    ofStyle Style.headings = .ok headings ∧
      (∀ r ∈ headings.rules, ∃ scope ∈ Style.headings.scopes [],
        r.Describes scope ∧ List.Forall₂ Property.TrimsEntry scope.2.scalars r.properties) ∧
      Style.button.inlineText = .ok "color: blue; width: 1px;".toList ∧
      ∃ properties : List Property,
        "color: blue; width: 1px;".toList =
            List.intercalate [' '] (properties.map Property.toText) ∧
          List.Forall₂ Property.TrimsEntry Style.button.scalars properties := by
  have compiled : ofStyle Style.headings = .ok headings := rfl
  have written : Style.button.inlineText = .ok "color: blue; width: 1px;".toList := rfl
  exact ⟨compiled, (trims_entries _).1 _ compiled, written, (trims_entries _).2 _ written⟩

end Sheet

/-- A tab and an ideographic space stand before the marks, and of the last value nothing would be
left if the tab did not stop the trimming. -/
def Style.tabbed : Style :=
  .property "color\u3000:".toList (.text "red\t;".toList) <|
    .property "margin".toList (.text ";\t;".toList) .nil

def Sheet.tabbed : Sheet where
  rules :=
    [⟨"p".toList,
      [⟨"color\u3000".toList, "red\t".toList⟩, ⟨"margin".toList, ";\t".toList⟩], 0⟩]

theorem Sheet.not_clean_tabbed :
    ofStyle (Style.under "p".toList Style.tabbed) = .ok tabbed ∧
      Style.tabbed.inlineText = .ok "color\u3000: red\t; margin: ;\t;".toList ∧
      (∃ r ∈ tabbed.rules, ∃ p ∈ r.properties, ¬Property.Clean p.name ∧ ¬Property.Clean p.value) ∧
      Property.trim "red\t".toList = "red".toList ∧ Property.trim ";\t".toList = [] := by
  have name : ¬Property.Clean "color\u3000".toList :=
    fun clean => absurd clean.trim_eq (by decide)
  have value : ¬Property.Clean "red\t".toList :=
    fun clean => absurd clean.trim_eq (by decide)
  exact ⟨rfl, rfl, ⟨_, List.mem_cons_self, _, List.mem_cons_self, name, value⟩, rfl, rfl⟩

def Rule.names (r : Rule) : List Text := r.properties.map (·.name)

namespace Style

theorem sublist_keys_scalars (s : Style) : (s.scalars.map Prod.fst).Sublist s.keys := by
  induction s using consInduction with
  | nil => exact .slnil
  | cons key value rest ih =>
      cases value with
      | scalar v => exact ih.cons_cons key
      | scope inner => exact ih.cons key

theorem Everywhere.of_mem_scopes {p : Style → Prop} {s : Style} (h : s.Everywhere p)
    {scope : List Text × Style} (member : scope ∈ s.scopes []) : p scope.2 := by
  induction h generalizing scope with
  | intro _ below ih =>
      obtain ⟨key, inner, stored, rfl | ⟨deeper, inside, rfl⟩⟩ := exists_of_mem_scopes member
      · exact (below key inner stored).own
      · exact (ih key inner stored inside :)

/-- No two keys of its properties are the same name once they are trimmed. -/
def NamesApart (s : Style) : Prop :=
  ∀ a ∈ s.scalars, ∀ b ∈ s.scalars, Property.trim a.1 = Property.trim b.1 → a.1 = b.1

end Style

theorem Property.name_of_declared? {entry : Text × Scalar} {p : Property}
    (declared : declared? entry = some p) : trim entry.1 = p.name := by
  obtain ⟨key, value⟩ := entry
  cases value <;> cases declared <;> rfl

namespace Rule.Describes

variable {r : Rule} {scope : List Text × Style}

theorem names (h : r.Describes scope) :
    r.names = scope.2.scalars.map fun entry => Property.trim entry.1 := by
  have same : List.Forall₂ (· = ·) (scope.2.scalars.map fun entry => Property.trim entry.1)
      (r.properties.map (·.name)) := by
    rw [List.forall₂_map_left_iff, List.forall₂_map_right_iff]
    exact h.forall₂_declared.imp fun _ _ => Property.name_of_declared?
  rw [List.forall₂_eq_eq_eq] at same
  exact same.symm

theorem nodup_names_iff (h : r.Describes scope) (distinct : scope.2.keys.Nodup) :
    r.names.Nodup ↔ scope.2.NamesApart := by
  have keys := distinct.sublist scope.2.sublist_keys_scalars
  rw [h.names, List.nodup_map_iff_inj_on keys.of_map]
  constructor
  · intro apart a inA b inB same
    rw [apart a inA b inB same]
  · intro apart a inA b inB same
    exact List.inj_on_of_nodup_map keys inA inB (apart a inA b inB same)

theorem declared?_of_name (h : r.Describes scope) (distinct : r.names.Nodup)
    {entry : Text × Scalar} (stored : entry ∈ scope.2.scalars) {p : Property}
    (member : p ∈ r.properties) (same : p.name = Property.trim entry.1) :
    Property.declared? entry = some p := by
  obtain ⟨own, inside, declared⟩ := h.forall₂_declared.exists_of_mem_left stored
  have name := Property.name_of_declared? declared
  rw [declared, List.inj_on_of_nodup_map distinct member inside (same.trans name)]

end Rule.Describes

namespace Sheet

/-- Statements give keys that are trimmed, so their names are as distinct as the keys are. -/
theorem nodup_names_of_ofInline {selector css : Text} {sheet : Sheet}
    (h : ofInline selector css = .ok sheet) : ∀ r ∈ sheet.rules, r.names.Nodup := by
  obtain ⟨s, parsed, compiled⟩ := Except.bind_eq_ok_iff.mp h
  obtain ⟨child, top, _⟩ := Except.bind_eq_ok_iff.mp (ofStyle_eq_ok_iff.mp compiled).2
  rw [ofStyle_under_of_flat top (Style.flat_of_ofInline parsed)] at compiled
  obtain ⟨own, built, rfl⟩ := Except.map_eq_ok_iff.mp compiled
  have entries := Style.entries_of_inlineProperties (Style.stated_of_ofInline parsed)
    (Except.mapError_eq_ok_iff.mp built)
  have distinct : s.keys.Nodup := (Style.distinct_of_ofInline parsed).own
  rw [Style.keys, entries, List.map_map] at distinct
  intro r member
  rw [ownRule] at member
  split at member
  · cases member
  · rw [List.mem_singleton.mp member]
    exact distinct

/-- The names of a rule are the trimmed keys of its scope in order. They are distinct, and each entry
alone decides what stands under its name, unless trimming takes two keys of the scope to one name;
and it never does so to the keys of an inline style. -/
theorem nodup_names_iff_of_ofStyle (sheet : Sheet) :
    (∀ s : Style, s.Made → ofStyle s = .ok sheet → ∀ r ∈ sheet.rules, ∃ scope ∈ s.scopes [],
      r.Describes scope ∧
      r.names = scope.2.scalars.map (fun entry => Property.trim entry.1) ∧
      (r.names.Nodup ↔ scope.2.NamesApart) ∧
      (scope.2.NamesApart → ∀ entry ∈ scope.2.scalars, ∀ p ∈ r.properties,
        p.name = Property.trim entry.1 → Property.declared? entry = some p)) ∧
    ∀ selector css, ofInline selector css = .ok sheet → ∀ r ∈ sheet.rules, r.names.Nodup := by
  refine ⟨?_, fun _ _ => nodup_names_of_ofInline⟩
  intro s made compiled r member
  obtain ⟨scope, inside, describes⟩ := exists_describes_of_mem_rules compiled member
  have apart := describes.nodup_names_iff (made.distinct.of_mem_scopes inside)
  refine ⟨scope, inside, describes, describes.names, apart, ?_⟩
  intro names entry stored p own same
  exact describes.declared?_of_name (apart.mpr names) stored own same

theorem nodup_names_iff_of_ofStyle_button :
    (Style.under "a,.b".toList Style.button).Made ∧
      ofStyle (Style.under "a,.b".toList Style.button) = .ok buttonSheet ∧
      (∀ r ∈ buttonSheet.rules, ∃ scope ∈ (Style.under "a,.b".toList Style.button).scopes [],
        r.Describes scope ∧ (r.names.Nodup ↔ scope.2.NamesApart)) ∧
      ofInline "a,.b".toList "color: red; width: 1px; color:blue".toList = .ok buttonSheet ∧
      ∀ r ∈ buttonSheet.rules, r.names.Nodup := by
  have parsed : Style.ofInline "color: red; width: 1px; color:blue".toList = .ok Style.button := rfl
  have nested : (Style.nil.insert "a,.b".toList (.scope Style.button)).Made := by
    apply Style.Made.insert .empty
    intro inner same
    cases same
    exact .statements parsed
  have made : (Style.under "a,.b".toList Style.button).Made := nested
  have compiled : ofStyle (Style.under "a,.b".toList Style.button) = .ok buttonSheet := rfl
  have inline : ofInline "a,.b".toList "color: red; width: 1px; color:blue".toList =
      .ok buttonSheet := rfl
  obtain ⟨styles, inlines⟩ := nodup_names_iff_of_ofStyle buttonSheet
  refine ⟨made, compiled, ?_, inline, inlines _ _ inline⟩
  intro r member
  obtain ⟨scope, inside, describes, _, apart, _⟩ := styles _ made compiled r member
  exact ⟨scope, inside, describes, apart⟩

end Sheet

/-- Read from an object with two keys that a colon tells apart. -/
def Style.twiceColored : Style :=
  .under "p".toList <|
    .property "color".toList (.text "red".toList) <|
      .property "color:".toList (.text "blue".toList) .nil

def Sheet.twiceColored : Sheet where
  rules :=
    [⟨"p".toList,
      [⟨"color".toList, "red".toList⟩, ⟨"color".toList, "blue".toList⟩], 0⟩]

theorem Sheet.names_twiceColored :
    Style.twiceColored.Made ∧ ofStyle Style.twiceColored = .ok twiceColored ∧
      ¬∀ r ∈ twiceColored.rules, r.names.Nodup := by
  have read : Style.ofJsonText?
      r#"{"p": {"color": "red", "color:": "blue"}}"#.toList =
        some Style.twiceColored := by decide +kernel
  obtain ⟨json, _, read⟩ := Option.bind_eq_some_iff.mp read
  refine ⟨.json read, rfl, fun distinct => ?_⟩
  have names := distinct _ List.mem_cons_self
  revert names
  decide

end Hypertext
