import Hypertext.Proofs.Acceptance
import Hypertext.Proofs.Merge

/-! Inline styles read and written. What statements give is trimmed and holds none of the marks
between them, so writing it changes nothing, and reading what is written gives the style again. -/

namespace Hypertext

namespace Text

theorem mem_of_mem_trim {t : Text} {c : Char} (h : c ∈ trim t) : c ∈ t := by
  obtain ⟨before, after, split, _⟩ := exists_trim t
  rw [split]
  exact List.mem_append_right _ (List.mem_append_left _ h)

end Text

theorem Property.trim_eq_self {t : Text} (trimmed : t.Trimmed)
    (unmarked : ∀ c ∈ t.getLast?, c ∉ [';', ':']) : trim t = t := by
  rw [trim, Text.trim_eq_self trimmed]
  apply List.rdropWhile_eq_self_iff.mpr
  intro nonempty
  have last := List.getLast?_eq_getLast_of_ne_nil nonempty
  have ink := trimmed.last _ last
  intro dropped
  rw [List.contains_iff_mem, List.mem_cons] at dropped
  rcases dropped with same | marked
  · rw [same] at ink
    cases ink
  · exact unmarked _ last marked

namespace Style

structure Part (t : Text) : Prop where
  trimmed : t.Trimmed
  semicolon : ';' ∉ t
  colon : ':' ∉ t

theorem part_trim {t : Text} (semicolon : ';' ∉ t) (colon : ':' ∉ t) : Part (Text.trim t) :=
  ⟨Text.trimmed_trim t, fun member => semicolon (Text.mem_of_mem_trim member),
    fun member => colon (Text.mem_of_mem_trim member)⟩

theorem Part.trim_eq {t : Text} (part : Part t) : Property.trim t = t := by
  apply Property.trim_eq_self part.trimmed
  intro c last marked
  have member := List.mem_of_getLast? last
  rw [List.mem_cons, List.mem_singleton] at marked
  rcases marked with same | same
  · exact part.semicolon (same ▸ member)
  · exact part.colon (same ▸ member)

/-- The key and the value on the two sides of the only colon. -/
def Declares (statement : Text) (pair : Text × Text) : Prop :=
  ∃ before after, statement = before ++ ':' :: after ∧ ':' ∉ before ∧ ':' ∉ after ∧
    pair = (Text.trim before, Text.trim after)

theorem statement?_of_declares {statement : Text} {pair : Text × Text}
    (declares : Declares statement pair) : statement? statement = .ok pair := by
  obtain ⟨before, after, rfl, first, single, rfl⟩ := declares
  simp [statement?, Text.splitFirst?_append_mark first, single]

theorem exists_declares_iff {statement : Text} :
    (∃ pair, Declares statement pair) ↔ statement.count ':' = 1 := by
  have count : ∀ before after : Text, ':' ∉ before →
      ((before ++ ':' :: after).count ':' = 1 ↔ ':' ∉ after) := by
    intro before after first
    rw [List.count_append, List.count_cons_self, List.count_eq_zero.mpr first, Nat.zero_add,
      Nat.succ_inj, List.count_eq_zero]
  constructor
  · rintro ⟨pair, before, after, rfl, first, single, _⟩
    exact (count before after first).mpr single
  · intro one
    have some : ':' ∈ statement := List.count_pos_iff.mp (one ▸ Nat.one_pos)
    obtain ⟨before, after, rfl, first⟩ := List.eq_append_cons_of_mem some
    exact ⟨_, before, after, rfl, first, (count before after first).mp one, rfl⟩

theorem statement?_of_count_ne {statement : Text} (other : statement.count ':' ≠ 1) :
    statement? statement = .error (.malformedStatement (Text.trim statement)) := by
  rw [statement?]
  split
  · next before after split =>
    by_cases again : ':' ∈ after
    · simp [again]
    · refine absurd (exists_declares_iff.mp ⟨_, before, after, ?_, ?_, again, rfl⟩) other
      · exact Text.splitFirst?_eq_some split
      · exact Text.not_mem_of_splitFirst? split
  · rfl

theorem statement?_eq_ok_iff {statement : Text} {pair : Text × Text} :
    statement? statement = .ok pair ↔ Declares statement pair := by
  refine ⟨?_, statement?_of_declares⟩
  intro read
  by_cases one : statement.count ':' = 1
  · obtain ⟨other, declares⟩ := exists_declares_iff.mpr one
    obtain rfl := Except.ok.inj (read.symm.trans (statement?_of_declares declares))
    exact declares
  · cases read.symm.trans (statement?_of_count_ne one)

theorem parts_of_statement? {statement key value : Text} (semicolon : ';' ∉ statement)
    (read : statement? statement = .ok (key, value)) : Part key ∧ Part value := by
  obtain ⟨before, after, rfl, first, single, same⟩ := statement?_eq_ok_iff.mp read
  cases same
  rw [List.mem_append, List.mem_cons, not_or, not_or] at semicolon
  exact ⟨part_trim semicolon.1 first, part_trim semicolon.2.2 single⟩

def Stated (entry : Text × Value) : Prop :=
  ∃ value, entry.2 = .scalar (.text value) ∧ Part entry.1 ∧ Part value

theorem stated_of_ofInline {css : Text} {s : Style} (parsed : ofInline css = .ok s) :
    ∀ entry ∈ s.entries, Stated entry := by
  have none : ∀ entry ∈ Style.nil.entries, Stated entry := fun _ member => nomatch member
  refine insertStatements_induction (p := fun s => ∀ entry ∈ s.entries, Stated entry) none ?_ parsed
  intro statement member key value read s before entry stored
  have parts := parts_of_statement? (Text.not_mem_of_mem_splitOn member) read
  rcases mem_entries_insert stored with same | old
  · exact ⟨value, congrArg Prod.snd same, same ▸ parts.1, parts.2⟩
  · exact before entry old

def entryError? : Text × Value → Option StyleError
  | (key, .scalar value) => Property.error? [] key value
  | (key, .scope _) => some (.scopeInline key)

theorem error?_inlineProperties (s : Style) :
    s.inlineProperties.error? = s.entries.findSome? entryError? := by
  induction s with
  | nil => rfl
  | scope key inner rest _ _ => rfl
  | property key value rest ih =>
      rw [entries, List.findSome?_cons_eq_or, entryError?, ← Property.error?_ofEntry, ← ih,
        inlineProperties]
      apply Except.error?_bind
      intro property _
      exact Except.error?_bind_ok

theorem error?_inlineText (s : Style) : s.inlineText.error? = s.entries.findSome? entryError? := by
  rw [← error?_inlineProperties, inlineText]
  cases s.inlineProperties <;> rfl

def entryOf (p : Property) : Text × Value := (p.name, .scalar (.text p.value))

theorem entries_of_inlineProperties {s : Style} (stated : ∀ entry ∈ s.entries, Stated entry)
    {properties : List Property} (h : s.inlineProperties = .ok properties) :
    s.entries = properties.map entryOf := by
  induction s generalizing properties with
  | nil =>
      cases h
      rfl
  | scope key inner rest _ _ => cases h
  | property key value rest ih =>
      rw [entries, List.forall_mem_cons] at stated
      obtain ⟨⟨t, text, partKey, partValue⟩, later⟩ := stated
      cases text
      obtain ⟨p, here, h⟩ := Except.bind_eq_ok_iff.mp h
      obtain ⟨others, below, h⟩ := Except.bind_eq_ok_iff.mp h
      cases h
      have declared := Property.declared?_of_ofEntry here
      rw [Property.declared?, partKey.trim_eq, partValue.trim_eq, Option.some.injEq] at declared
      rw [entries, List.map_cons, ih later below, ← declared, entryOf]

theorem statement?_of_parts {key value : Text} (partKey : Part key) (partValue : Part value) :
    statement? (key ++ ':' :: ' ' :: value) = .ok (key, value) := by
  apply statement?_of_declares
  refine ⟨key, ' ' :: value, rfl, partKey.colon, ?_, ?_⟩
  · simpa using partValue.colon
  · rw [Text.trim_space, Text.trim_eq_self partKey.trimmed, Text.trim_eq_self partValue.trimmed]

theorem statement?_space (t : Text) : statement? (' ' :: t) = statement? t := by
  have split : Text.splitFirst? ':' (' ' :: t) =
      (Text.splitFirst? ':' t).map fun halves => (' ' :: halves.1, halves.2) := rfl
  rw [statement?, statement?, split, Text.trim_space]
  cases Text.splitFirst? ':' t with
  | none => rfl
  | some halves => rfl

theorem insertStatements_space (s : Style) (t : Text) :
    insertStatements s (Text.splitOn ';' (' ' :: t)) = insertStatements s (Text.splitOn ';' t) := by
  rw [Text.splitOn_of_ne (by decide)]
  obtain ⟨first, others, split⟩ := List.exists_cons_of_ne_nil (Text.splitOn_ne_nil ';' t)
  rw [split, List.modifyHead_cons, insertStatements, insertStatements, Text.trim_space,
    statement?_space]

theorem insertStatements_toText (s : Style) {p : Property} (name : Part p.name)
    (value : Part p.value) (t : Text) :
    insertStatements s (Text.splitOn ';' (p.toText ++ t)) =
      insertStatements (s.insert p.name (.scalar (.text p.value))) (Text.splitOn ';' t) := by
  have statement : p.toText ++ t = (p.name ++ ':' :: ' ' :: p.value) ++ ';' :: t := by
    rw [Property.toText, List.append_assoc]
    rfl
  have whole : ';' ∉ p.name ++ ':' :: ' ' :: p.value := by
    simp [name.semicolon, value.semicolon]
  have given : ¬(Text.trim (p.name ++ ':' :: ' ' :: p.value)).isEmpty = true := by
    rw [List.isEmpty_iff, Text.trim_eq_nil_iff]
    intro blank
    have colon := blank ':' (by simp)
    cases colon
  rw [statement, Text.splitOn_append_mark whole, insertStatements, if_neg given,
    statement?_of_parts name value]
  rfl

theorem insertStatements_written (s : Style) {properties : List Property}
    (parts : ∀ p ∈ properties, Part p.name ∧ Part p.value) :
    insertStatements s
        (Text.splitOn ';' (List.intercalate [' '] (properties.map Property.toText))) =
      .ok ((properties.map entryOf).foldl (fun s entry => s.insert entry.1 entry.2) s) := by
  -- every property but the first has a space in front of its name
  induction properties generalizing s with
  | nil => rfl
  | cons p rest ih =>
      rw [List.forall_mem_cons] at parts
      have later := ih (s.insert p.name (.scalar (.text p.value))) parts.2
      rw [List.map_cons, List.map_cons, List.foldl_cons, entryOf, ← later]
      cases rest with
      | nil =>
          have alone := insertStatements_toText s parts.1.1 parts.1.2 []
          rw [List.append_nil] at alone
          rw [List.map_nil, List.intercalate_singleton, alone, List.intercalate_nil]
      | cons q more =>
          rw [List.map_cons, List.intercalate_cons_cons, List.append_assoc,
            insertStatements_toText s parts.1.1 parts.1.2, List.singleton_append,
            insertStatements_space]

theorem ofInline_of_inlineText {s : Style} (distinct : s.keys.Nodup)
    (stated : ∀ entry ∈ s.entries, Stated entry) {t : Text} (written : s.inlineText = .ok t) :
    ofInline t = .ok s := by
  obtain ⟨properties, built, rfl⟩ := Except.map_eq_ok_iff.mp written
  have same := entries_of_inlineProperties stated built
  have parts : ∀ p ∈ properties, Part p.name ∧ Part p.value := by
    intro p member
    obtain ⟨value, text, partName, partValue⟩ := stated (entryOf p)
      (same ▸ List.mem_map_of_mem member)
    cases text
    exact ⟨partName, partValue⟩
  rw [ofInline, insertStatements_written _ parts, ← same, ← ofEntries, ofEntries_entries distinct]

/-- The errors of the entries that statements can give. -/
inductive BlankEntry : Text × Value → StyleError → Prop
  | key (value : Value) : BlankEntry ([], value) (.blankProperty [])
  | value {key : Text} (named : key ≠ []) :
      BlankEntry (key, .scalar (.text [])) (.blankValue [] key)

theorem Stated.error?_iff {entry : Text × Value} (stated : Stated entry) {e : StyleError} :
    entryError? entry = some e ↔ BlankEntry entry e := by
  obtain ⟨key, value⟩ := entry
  obtain ⟨t, text, partKey, partValue⟩ := stated
  cases text
  rw [entryError?, Property.error?, partKey.trim_eq, partValue.trim_eq]
  constructor
  · intro h
    split at h
    · next unnamed =>
      cases h
      cases unnamed
      exact .key _
    · next named =>
      split at h
      · next empty =>
        cases h
        cases empty
        exact .value named
      · cases h
  · intro blank
    cases blank with
    | key => rfl
    | value named => rw [if_neg named, if_pos rfl]

theorem Stated.error?_eq_none_iff {entry : Text × Value} (stated : Stated entry) :
    entryError? entry = none ↔ ∀ e, ¬BlankEntry entry e := by
  rw [Option.eq_none_iff_forall_ne_some]
  exact forall_congr' fun e => not_congr stated.error?_iff

/-- A style that was read is written as a text that is read as the same style, and so is written the
same way again. It is refused only for a missing key or value, the first one. -/
theorem inlineText_of_ofInline {css : Text} {s : Style} (parsed : ofInline css = .ok s) :
    (∀ t, s.inlineText = .ok t → ofInline t = .ok s ∧ ofInline t >>= inlineText = .ok t) ∧
      ∀ e, s.inlineText = .error e ↔
        ∃ before entry after, s.entries = before ++ entry :: after ∧ BlankEntry entry e ∧
          ∀ earlier ∈ before, ∀ other, ¬BlankEntry earlier other := by
  have stated := stated_of_ofInline parsed
  have distinct : s.keys.Nodup := (distinct_of_ofInline parsed).own
  constructor
  · intro t written
    have again := ofInline_of_inlineText distinct stated written
    exact ⟨again, Except.bind_eq_ok_iff.mpr ⟨s, again, written⟩⟩
  · intro e
    rw [← Except.error?_eq_some_iff, error?_inlineText]
    apply List.findSome?_eq_some_iff_first
    · exact fun entry member => (stated entry member).error?_eq_none_iff
    · exact fun entry member => (stated entry member).error?_iff

/-- A statement without a value, and one without a key. -/
def unfinished : Style :=
  .property ['a'] (.text ['1']) <| .property ['b'] (.text []) <| .property [] (.text ['2']) .nil

theorem inlineText_of_ofInline_button :
    ofInline "color:red;\u00a0width :\t1px;;color: blue".toList = .ok button ∧
      button.inlineText = .ok "color: blue; width: 1px;".toList ∧
      ofInline "color: blue; width: 1px;".toList = .ok button ∧
      ofInline "a:1; b:; :2".toList = .ok unfinished ∧
      unfinished.inlineText = .error (.blankValue [] ['b']) := by
  have parsed : ofInline "color:red;\u00a0width :\t1px;;color: blue".toList = .ok button := rfl
  have written : button.inlineText = .ok "color: blue; width: 1px;".toList := rfl
  have parsedUnfinished : ofInline "a:1; b:; :2".toList = .ok unfinished := rfl
  obtain ⟨again, _⟩ := (inlineText_of_ofInline parsed).1 _ written
  refine ⟨parsed, written, again, parsedUnfinished, ?_⟩
  apply ((inlineText_of_ofInline parsedUnfinished).2 _).mpr
  refine ⟨[(['a'], .scalar (.text ['1']))], (['b'], .scalar (.text [])),
    [([], .scalar (.text ['2']))], rfl, .value (List.cons_ne_nil _ _), ?_⟩
  intro earlier member other blank
  rw [List.mem_singleton.mp member] at blank
  cases blank

end Style

end Hypertext
