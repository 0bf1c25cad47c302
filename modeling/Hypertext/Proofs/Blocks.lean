import Hypertext.Proofs.Merge
import Hypertext.Proofs.Nesting

/-! The rules of a sheet by top-level key. A scope at the top level compiles to the same rules
whatever stands beside it, so a sheet is made of one block for each key, and a merged style has the
blocks of the two it is made of. -/

namespace Hypertext

theorem Style.scopes_cons (key : Text) (value : Value) (rest : Style) :
    (cons key value rest).scopes [] = (cons key value .nil).scopes [] ++ rest.scopes [] := by
  cases value with
  | scalar v => rfl
  | scope inner => simp [cons, scopes]

theorem Style.head_of_mem_scopes {s : Style} {scope : List Text × Style}
    (h : scope ∈ s.scopes []) : ∃ key ∈ s.keys, scope.1.head? = some key := by
  induction s with
  | nil => cases h
  | property key value rest ih =>
      obtain ⟨first, member, starts⟩ := ih h
      exact ⟨first, List.mem_cons_of_mem _ member, starts⟩
  | scope key inner rest _ ih =>
      have inside := inner.scopes_append [key] []
      rw [List.append_nil] at inside
      rw [scopes, List.nil_append, inside] at h
      rcases List.mem_cons.mp h with rfl | h
      · exact ⟨key, List.mem_cons_self, rfl⟩
      rcases List.mem_append.mp h with h | h
      · obtain ⟨below, _, rfl⟩ := List.mem_map.mp h
        exact ⟨key, List.mem_cons_self, rfl⟩
      · obtain ⟨first, member, starts⟩ := ih h
        exact ⟨first, List.mem_cons_of_mem _ member, starts⟩

namespace Sheet

theorem properties_root_iff {nested : Bool} {s : Style} :
    properties [] nested s = .ok [] ↔ s.scalars = [] := by
  induction s generalizing nested with
  | nil => simp [properties, Style.scalars]
  | scope key inner rest _ ih => exact ih
  | property key value rest _ => cases nested <;> simp [properties, Style.scalars]

theorem nestedRules_scope_iff {selector : Text} {depth : Nat} {key : Text} {inner : Style}
    (rest : Style) {rules : List Rule} :
    nestedRules selector depth (.scope key inner rest) = .ok rules ↔
      ∃ first others, nestedRules selector depth (.scope key inner .nil) = .ok first ∧
        nestedRules selector depth rest = .ok others ∧ first ++ others = rules := by
  constructor
  · intro h
    obtain ⟨child, joined, h⟩ := Except.bind_eq_ok_iff.mp h
    obtain ⟨own, ownBuilt, h⟩ := Except.bind_eq_ok_iff.mp h
    obtain ⟨below, belowBuilt, h⟩ := Except.bind_eq_ok_iff.mp h
    obtain ⟨others, othersBuilt, h⟩ := Except.bind_eq_ok_iff.mp h
    cases h
    refine ⟨_, others, nestedRules_scope joined ownBuilt belowBuilt rfl, othersBuilt, ?_⟩
    rw [List.append_nil]
  · rintro ⟨first, others, h, othersBuilt, rfl⟩
    obtain ⟨child, joined, h⟩ := Except.bind_eq_ok_iff.mp h
    obtain ⟨own, ownBuilt, h⟩ := Except.bind_eq_ok_iff.mp h
    obtain ⟨below, belowBuilt, h⟩ := Except.bind_eq_ok_iff.mp h
    cases h
    rw [nestedRules_scope joined ownBuilt belowBuilt othersBuilt, List.append_nil]

theorem ofStyle_cons_iff {key : Text} {value : Value} {rest : Style} {sheet : Sheet} :
    ofStyle (Style.cons key value rest) = .ok sheet ↔
      ∃ first others, ofStyle (Style.cons key value .nil) = .ok first ∧
        ofStyle rest = .ok others ∧ first.rules ++ others.rules = sheet.rules := by
  simp only [ofStyle_eq_ok_iff, properties_root_iff]
  cases value with
  | scalar v => simp [Style.cons, Style.scalars]
  | scope inner =>
      simp only [Style.cons, Style.scalars, nestedRules_scope_iff rest, true_and]
      constructor
      · rintro ⟨none, first, others, firstBuilt, othersBuilt, same⟩
        exact ⟨⟨first⟩, ⟨others⟩, firstBuilt, ⟨none, othersBuilt⟩, same⟩
      · rintro ⟨first, others, firstBuilt, ⟨none, othersBuilt⟩, same⟩
        exact ⟨none, first.rules, others.rules, firstBuilt, othersBuilt, same⟩

/-- A style has a sheet if each of its entries alone has one. -/
theorem exists_ofStyle_iff {s : Style} :
    (∃ sheet, ofStyle s = .ok sheet) ↔
      ∀ entry ∈ s.entries, ∃ sheet, ofStyle (Style.cons entry.1 entry.2 .nil) = .ok sheet := by
  induction s using Style.consInduction with
  | nil =>
      constructor
      · intro _ entry member
        cases member
      · intro _
        exact ⟨⟨[]⟩, rfl⟩
  | cons key value rest ih =>
      rw [Style.entries_cons, List.forall_mem_cons, ← ih]
      constructor
      · rintro ⟨sheet, compiled⟩
        obtain ⟨first, others, here, later, _⟩ := ofStyle_cons_iff.mp compiled
        exact ⟨⟨first, here⟩, others, later⟩
      · rintro ⟨⟨first, here⟩, others, later⟩
        exact ⟨⟨first.rules ++ others.rules⟩, ofStyle_cons_iff.mpr ⟨first, others, here, later, rfl⟩⟩

theorem length_scopes {s : Style} {sheet : Sheet} (compiled : ofStyle s = .ok sheet) :
    ((s.scopes []).filter hasScalars).length = sheet.rules.length :=
  (nestedRules_describe rfl rfl (ofStyle_eq_ok_iff.mp compiled).2).length_eq.symm

/-- The rules of a sheet, each with the scope it stands for. -/
def withScopes (s : Style) (sheet : Sheet) : List ((List Text × Style) × Rule) :=
  ((s.scopes []).filter hasScalars).zip sheet.rules

/-- The rules that a top-level key contributes to the sheet of a style: those of the scopes that are
reached through it. -/
def block (s : Style) (sheet : Sheet) (key : Text) : List Rule :=
  ((withScopes s sheet).filter fun pair => pair.1.1.head? = some key).map Prod.snd

theorem head_of_mem_withScopes {s : Style} {sheet : Sheet} {pair : (List Text × Style) × Rule}
    (member : pair ∈ withScopes s sheet) : ∃ key ∈ s.keys, pair.1.1.head? = some key := by
  obtain ⟨inside, _⟩ := List.of_mem_zip member
  exact Style.head_of_mem_scopes (List.mem_of_mem_filter inside)

theorem block_of_not_mem {s : Style} {key : Text} (absent : key ∉ s.keys) (sheet : Sheet) :
    block s sheet key = [] := by
  rw [block, List.map_eq_nil_iff, List.filter_eq_nil_iff]
  intro pair member starts
  obtain ⟨first, known, head⟩ := head_of_mem_withScopes member
  rw [decide_eq_true_eq, head, Option.some.injEq] at starts
  exact absent (starts ▸ known)

theorem block_singleton {key : Text} {value : Value} {sheet : Sheet}
    (compiled : ofStyle (Style.cons key value .nil) = .ok sheet) :
    block (Style.cons key value .nil) sheet key = sheet.rules := by
  have all : ∀ pair ∈ withScopes (Style.cons key value .nil) sheet,
      decide (pair.1.1.head? = some key) = true := by
    intro pair member
    obtain ⟨first, known, head⟩ := head_of_mem_withScopes member
    rw [Style.keys_cons, Style.keys_nil] at known
    rw [decide_eq_true_eq, head, List.mem_singleton.mp known]
  rw [block, List.filter_eq_self.mpr all, withScopes, List.map_snd_zip]
  exact (length_scopes compiled).ge

section Cons

variable {key : Text} {value : Value} {rest : Style} {sheet first others : Sheet}

theorem block_cons (here : ofStyle (Style.cons key value .nil) = .ok first)
    (split : first.rules ++ others.rules = sheet.rules) (k : Text) :
    block (Style.cons key value rest) sheet k =
      block (Style.cons key value .nil) first k ++ block rest others k := by
  simp only [block, withScopes]
  rw [Style.scopes_cons, ← split, List.filter_append, List.zip_append (length_scopes here),
    List.filter_append, List.map_append]

theorem block_cons_self (here : ofStyle (Style.cons key value .nil) = .ok first)
    (split : first.rules ++ others.rules = sheet.rules) (absent : key ∉ rest.keys) :
    block (Style.cons key value rest) sheet key = first.rules := by
  rw [block_cons here split, block_singleton here, block_of_not_mem absent, List.append_nil]

theorem block_cons_of_ne (here : ofStyle (Style.cons key value .nil) = .ok first)
    (split : first.rules ++ others.rules = sheet.rules) {k : Text} (other : k ≠ key) :
    block (Style.cons key value rest) sheet k = block rest others k := by
  have absent : k ∉ (Style.cons key value .nil).keys := by simpa using other
  rw [block_cons here split, block_of_not_mem absent, List.nil_append]

end Cons

section Keys

variable {s : Style} {sheet : Sheet}

theorem rules_eq_flatMap_block (distinct : s.keys.Nodup) (compiled : ofStyle s = .ok sheet) :
    sheet.rules = s.keys.flatMap (block s sheet) := by
  induction s using Style.consInduction generalizing sheet with
  | nil =>
      cases compiled
      rfl
  | cons key value rest ih =>
      obtain ⟨first, others, here, later, split⟩ := ofStyle_cons_iff.mp compiled
      rw [Style.keys_cons, List.nodup_cons] at distinct
      have own : block (Style.cons key value rest) sheet key = first.rules :=
        block_cons_self here split distinct.1
      have below : rest.keys.flatMap (block (Style.cons key value rest) sheet) =
          rest.keys.flatMap (block rest others) := by
        apply List.flatMap_congr
        intro k member
        exact block_cons_of_ne here split fun same => distinct.1 (same ▸ member)
      rw [Style.keys_cons, List.flatMap_cons, own, below, ← ih distinct.2 later, split]

/-- A block is what its entry compiles to alone. -/
theorem ofStyle_entry (distinct : s.keys.Nodup) (compiled : ofStyle s = .ok sheet) {key : Text}
    {value : Value} (stored : s.get? key = some value) :
    ofStyle (Style.cons key value .nil) = .ok ⟨block s sheet key⟩ := by
  induction s using Style.consInduction generalizing sheet with
  | nil => cases stored
  | cons k v rest ih =>
      obtain ⟨first, others, here, later, split⟩ := ofStyle_cons_iff.mp compiled
      rw [Style.keys_cons, List.nodup_cons] at distinct
      rw [Style.get?_cons] at stored
      by_cases same : k = key
      · rw [if_pos same, Option.some.injEq] at stored
        obtain rfl := same
        obtain rfl := stored
        rw [block_cons_self here split distinct.1, here]
      · rw [if_neg same] at stored
        rw [block_cons_of_ne here split (Ne.symm same)]
        exact ih distinct.2 later stored

theorem block_eq_of_get?_eq {t : Style} {other : Sheet} (distinctS : s.keys.Nodup)
    (distinctT : t.keys.Nodup) (compiledS : ofStyle s = .ok sheet)
    (compiledT : ofStyle t = .ok other) {key : Text} (same : s.get? key = t.get? key) :
    block s sheet key = block t other key := by
  cases stored : s.get? key with
  | none =>
      rw [block_of_not_mem (Style.get?_eq_none_iff.mp stored),
        block_of_not_mem (Style.get?_eq_none_iff.mp (same ▸ stored))]
  | some value =>
      have alone := ofStyle_entry distinctS compiledS stored
      have again := ofStyle_entry distinctT compiledT (same ▸ stored)
      rw [alone, Except.ok.injEq, Sheet.mk.injEq] at again
      exact again

end Keys

section Merge

variable {a b : Style} {sheetA sheetB : Sheet}

theorem exists_ofStyle_merge (compiledA : ofStyle a = .ok sheetA)
    (compiledB : ofStyle b = .ok sheetB) : ∃ sheet, ofStyle (a ++ b) = .ok sheet := by
  rw [exists_ofStyle_iff]
  intro entry member
  rcases Style.mem_entries_merge member with member | member
  · exact exists_ofStyle_iff.mp ⟨sheetA, compiledA⟩ entry member
  · exact exists_ofStyle_iff.mp ⟨sheetB, compiledB⟩ entry member

theorem block_merge {sheet : Sheet} (distinctA : a.keys.Nodup) (distinctB : b.keys.Nodup)
    (compiledA : ofStyle a = .ok sheetA) (compiledB : ofStyle b = .ok sheetB)
    (compiled : ofStyle (a ++ b) = .ok sheet) (key : Text) :
    block (a ++ b) sheet key = if key ∈ b.keys then block b sheetB key else block a sheetA key := by
  have distinct := Style.nodup_keys_merge distinctA b
  have merged := Style.get?_merge a distinctB key
  split
  · next known =>
    apply block_eq_of_get?_eq distinct distinctB compiled compiledB
    obtain ⟨value, stored⟩ := Option.ne_none_iff_exists'.mp
      (mt Style.get?_eq_none_iff.mp (not_not.mpr known))
    rw [merged, stored, Option.some_or]
  · next unknown =>
    apply block_eq_of_get?_eq distinct distinctA compiled compiledA
    rw [merged, Style.get?_eq_none_iff.mpr unknown, Option.none_or]

/-- The sheet of a merged style has the blocks of the two sheets: those of the keys on the left in
their places, each taken from the right where the right has the key, and then those of the keys that
are on the right alone. -/
theorem ofStyle_merge (madeA : a.Made) (madeB : b.Made) (compiledA : ofStyle a = .ok sheetA)
    (compiledB : ofStyle b = .ok sheetB) :
    sheetA.rules = a.keys.flatMap (block a sheetA) ∧
      sheetB.rules = b.keys.flatMap (block b sheetB) ∧
      ∃ sheet, ofStyle (a ++ b) = .ok sheet ∧
        sheet.rules =
          (a.keys.flatMap fun key =>
              if key ∈ b.keys then block b sheetB key else block a sheetA key) ++
            (b.keys.filter (· ∉ a.keys)).flatMap (block b sheetB) := by
  have distinctA := madeA.distinct.own
  have distinctB := madeB.distinct.own
  refine ⟨rules_eq_flatMap_block distinctA compiledA, rules_eq_flatMap_block distinctB compiledB, ?_⟩
  obtain ⟨sheet, compiled⟩ := exists_ofStyle_merge compiledA compiledB
  have each := block_merge distinctA distinctB compiledA compiledB compiled
  have fresh : (b.keys.filter (· ∉ a.keys)).flatMap (block (a ++ b) sheet) =
      (b.keys.filter (· ∉ a.keys)).flatMap (block b sheetB) := by
    apply List.flatMap_congr
    intro key member
    rw [each, if_pos (List.mem_of_mem_filter member)]
  refine ⟨sheet, compiled, ?_⟩
  calc
    sheet.rules = (a ++ b).keys.flatMap (block (a ++ b) sheet) :=
        rules_eq_flatMap_block (Style.nodup_keys_merge distinctA b) compiled
    _ = a.keys.flatMap (block (a ++ b) sheet) ++
          (b.keys.filter (· ∉ a.keys)).flatMap (block (a ++ b) sheet) := by
        rw [Style.keys_merge a distinctB, List.flatMap_append]
    _ = _ := by
        rw [fresh]
        congr 1
        exact List.flatMap_congr fun key _ => each key

end Merge

def paragraphs : Sheet where
  rules :=
    [⟨['p'], [⟨"color".toList, "blue".toList⟩], 0⟩, ⟨"h1, h2".toList, [⟨"margin".toList, ['0']⟩], 0⟩]

end Sheet

def Style.paragraphs : Style :=
  .scope ['p'] (.property "color".toList (.text "blue".toList) .nil) <|
    .scope "h1, h2".toList (.property "margin".toList (.number (.ofNat 0)) .nil) .nil

def Style.paragraphsJson : Json :=
  .object
    [(['p'], .object [("color".toList, .text "blue".toList)]),
      ("h1, h2".toList, .object [("margin".toList, .number (.ofNat 0))])]

def Style.headingsJson : Json :=
  .object
    [("h1, h2".toList, .object
        [("color:".toList, .text " red;".toList),
          ("&:hover".toList, .object
            [("> a".toList, .object [("width".toList, .number (.ofNat 5))])])]),
      (".x".toList, .object [])]

/-- The headings replace the second block where it stands; the key they add has no rules. -/
theorem Sheet.ofStyle_merge_headings :
    Style.paragraphs.Made ∧ Style.headings.Made ∧ ofStyle Style.paragraphs = .ok paragraphs ∧
      ofStyle Style.headings = .ok headings ∧
      ∃ sheet, ofStyle (Style.paragraphs ++ Style.headings) = .ok sheet ∧
        sheet.rules = ⟨['p'], [⟨"color".toList, "blue".toList⟩], 0⟩ :: headings.rules := by
  have readLeft : Style.ofJson? Style.paragraphsJson = some Style.paragraphs := rfl
  have readRight : Style.ofJson? Style.headingsJson = some Style.headings := rfl
  have left : Style.paragraphs.Made := .json readLeft
  have right : Style.headings.Made := .json readRight
  have compiledLeft : ofStyle Style.paragraphs = .ok paragraphs := by decide +kernel
  have compiledRight : ofStyle Style.headings = .ok headings := by decide +kernel
  obtain ⟨_, _, sheet, compiled, rules⟩ := ofStyle_merge left right compiledLeft compiledRight
  refine ⟨left, right, compiledLeft, compiledRight, sheet, compiled, ?_⟩
  rw [rules]
  rfl

end Hypertext
