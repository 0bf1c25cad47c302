import Hypertext.Style.Inline
import Hypertext.Style.Json
import Hypertext.Proofs.Outcome
import Mathlib.Data.List.Induction

/-! Styles as ordered mappings. Every operation keeps the keys of a style distinct, and a style with
distinct keys is known by the order of its keys and by what stands under each. Merging is read off
in both, so its laws are laws of lists of keys and of look-ups. -/

namespace Hypertext

namespace Style

/-- An entry in front is either of the two kinds, and most of what follows does not ask which. -/
@[elab_as_elim]
theorem consInduction {p : Style → Prop} (nil : p .nil)
    (cons : ∀ key value rest, p rest → p (cons key value rest)) (s : Style) : p s := by
  induction s with
  | nil => exact nil
  | property key v rest ih => exact cons key (.scalar v) rest ih
  | scope key inner rest _ ih => exact cons key (.scope inner) rest ih

section Cons

variable (key : Text) (value : Value) (rest : Style)

@[simp]
theorem keys_nil : Style.nil.keys = [] := rfl

@[simp]
theorem keys_cons : (cons key value rest).keys = key :: rest.keys := by
  cases value <;> rfl

@[simp]
theorem get?_nil : Style.nil.get? key = none := rfl

@[simp]
theorem get?_cons (k : Text) :
    (cons k value rest).get? key = if k = key then some value else rest.get? key := by
  cases value <;> rfl

@[simp]
theorem insert_nil : Style.nil.insert key value = cons key value .nil := rfl

@[simp]
theorem insert_cons (k : Text) (v : Value) :
    (cons k v rest).insert key value =
      if k = key then cons key value rest else cons k v (rest.insert key value) := by
  cases v <;> rfl

theorem merge_nil (a : Style) : a ++ Style.nil = a := rfl

theorem merge_cons (a : Style) : a ++ cons key value rest = a.insert key value ++ rest := by
  cases value <;> rfl

end Cons

theorem get?_eq_none_iff {s : Style} {key : Text} : s.get? key = none ↔ key ∉ s.keys := by
  induction s using consInduction with
  | nil => simp
  | cons k v rest ih =>
      by_cases same : k = key
      · simp [same]
      · simp [same, Ne.symm same, ih]

/-- The order of the keys and the values under them are all there is to a style. -/
theorem eq_of_keys_eq {a b : Style} (distinct : a.keys.Nodup) (keys : a.keys = b.keys)
    (values : ∀ key, a.get? key = b.get? key) : a = b := by
  induction a using consInduction generalizing b with
  | nil =>
      cases b with
      | nil => rfl
      | property key v rest => cases keys
      | scope key inner rest => cases keys
  | cons k v rest ih =>
      induction b using consInduction with
      | nil => cases (keys_cons k v rest).symm.trans keys
      | cons l w more _ =>
          rw [keys_cons, keys_cons, List.cons.injEq] at keys
          obtain ⟨rfl, keys⟩ := keys
          rw [keys_cons, List.nodup_cons] at distinct
          have here : v = w := by simpa using values k
          have below : rest = more := by
            apply ih distinct.2 keys
            intro key
            by_cases same : k = key
            · have absent : key ∉ rest.keys := same ▸ distinct.1
              rw [get?_eq_none_iff.mpr absent, get?_eq_none_iff.mpr (keys ▸ absent)]
            · simpa [same] using values key
          rw [here, below]

theorem keys_insert (s : Style) (key : Text) (value : Value) :
    (s.insert key value).keys = if key ∈ s.keys then s.keys else s.keys ++ [key] := by
  induction s using consInduction with
  | nil => simp
  | cons k v rest ih =>
      by_cases same : k = key
      · simp [same]
      · by_cases later : key ∈ rest.keys <;> simp [same, Ne.symm same, ih, later]

theorem get?_insert (s : Style) (key : Text) (value : Value) (k : Text) :
    (s.insert key value).get? k = if key = k then some value else s.get? k := by
  induction s using consInduction with
  | nil => simp
  | cons l v rest ih =>
      by_cases same : l = key
      · by_cases asked : key = k <;> simp [same, asked]
      · by_cases first : l = k
        · have other : key ≠ k := fun asked => same (first.trans asked.symm)
          simp [first, other, Ne.symm other]
        · simp [same, first, ih]

theorem mem_entries_insert {s : Style} {key : Text} {value : Value} {entry : Text × Value}
    (member : entry ∈ (s.insert key value).entries) : entry = (key, value) ∨ entry ∈ s.entries := by
  induction s using consInduction with
  | nil => simpa using member
  | cons k v rest ih =>
      by_cases same : k = key
      · rw [insert_cons, if_pos same, entries_cons] at member
        rw [entries_cons]
        exact (List.mem_cons.mp member).imp id (List.mem_cons_of_mem _)
      · rw [insert_cons, if_neg same, entries_cons] at member
        rw [entries_cons]
        rcases List.mem_cons.mp member with first | member
        · exact .inr (first ▸ List.mem_cons_self)
        · exact (ih member).imp id (List.mem_cons_of_mem _)

theorem nodup_keys_insert {s : Style} (distinct : s.keys.Nodup) (key : Text) (value : Value) :
    (s.insert key value).keys.Nodup := by
  rw [keys_insert]
  split
  · exact distinct
  · next absent =>
    rw [List.nodup_append]
    refine ⟨distinct, List.nodup_cons.mpr ⟨List.not_mem_nil, List.nodup_nil⟩, ?_⟩
    intro k member l last same
    rw [same, List.mem_singleton.mp last] at member
    exact absent member

theorem keys_merge (a : Style) {b : Style} (distinct : b.keys.Nodup) :
    (a ++ b).keys = a.keys ++ b.keys.filter (· ∉ a.keys) := by
  -- `b` goes into `a` entry by entry, and no key of it comes twice
  induction b using consInduction generalizing a with
  | nil => simp [merge_nil]
  | cons k v rest ih =>
      rw [keys_cons, List.nodup_cons] at distinct
      rw [merge_cons, ih (a.insert k v) distinct.2, keys_insert, keys_cons]
      by_cases present : k ∈ a.keys
      · simp [present]
      · have others : rest.keys.filter (· ∉ a.keys ++ [k]) = rest.keys.filter (· ∉ a.keys) := by
          apply List.filter_congr
          intro key member
          have other : key ≠ k := fun same => distinct.1 (same ▸ member)
          simp [other]
        simp only [present, if_false, others]
        simp [present]

theorem get?_merge (a : Style) {b : Style} (distinct : b.keys.Nodup) (key : Text) :
    (a ++ b).get? key = (b.get? key).or (a.get? key) := by
  induction b using consInduction generalizing a with
  | nil => simp [merge_nil]
  | cons k v rest ih =>
      rw [keys_cons, List.nodup_cons] at distinct
      rw [merge_cons, ih (a.insert k v) distinct.2, get?_insert, get?_cons]
      by_cases same : k = key
      · have absent : rest.get? key = none := get?_eq_none_iff.mpr (same ▸ distinct.1)
        simp [same, absent]
      · simp [same]

theorem mem_entries_merge {a b : Style} {entry : Text × Value}
    (member : entry ∈ (a ++ b).entries) : entry ∈ a.entries ∨ entry ∈ b.entries := by
  induction b using consInduction generalizing a with
  | nil => exact .inl member
  | cons k v rest ih =>
      rw [merge_cons] at member
      rw [entries_cons]
      rcases ih member with before | later
      · rcases mem_entries_insert before with inserted | old
        · exact .inr (inserted ▸ List.mem_cons_self)
        · exact .inl old
      · exact .inr (List.mem_cons_of_mem _ later)

theorem nodup_keys_merge {a : Style} (distinct : a.keys.Nodup) (b : Style) :
    (a ++ b).keys.Nodup := by
  induction b using consInduction generalizing a with
  | nil => exact distinct
  | cons k v rest ih =>
      rw [merge_cons]
      exact ih (nodup_keys_insert distinct k v)

section Laws

variable {a b c : Style}

theorem merge_assoc (distinctA : a.keys.Nodup) (distinctB : b.keys.Nodup)
    (distinctC : c.keys.Nodup) : (a ++ b) ++ c = a ++ (b ++ c) := by
  have distinctBC : (b ++ c).keys.Nodup := nodup_keys_merge distinctB c
  apply eq_of_keys_eq (nodup_keys_merge (nodup_keys_merge distinctA b) c)
  · rw [keys_merge _ distinctC, keys_merge _ distinctBC, keys_merge _ distinctB,
      keys_merge _ distinctC, List.filter_append, List.filter_filter, List.append_assoc]
    congr 2
    apply List.filter_congr
    intro key _
    by_cases inA : key ∈ a.keys <;> by_cases inB : key ∈ b.keys <;> simp [inA, inB]
  · intro key
    rw [get?_merge _ distinctC, get?_merge _ distinctBC, get?_merge _ distinctB,
      get?_merge _ distinctC, Option.or_assoc]

theorem nil_merge (distinct : a.keys.Nodup) : Style.nil ++ a = a := by
  have distinctNil : Style.nil.keys.Nodup := List.nodup_nil
  apply eq_of_keys_eq (nodup_keys_merge distinctNil a)
  · simp [keys_merge _ distinct]
  · intro key
    simp [get?_merge _ distinct]

theorem merge_self (distinct : a.keys.Nodup) : a ++ a = a := by
  apply eq_of_keys_eq (nodup_keys_merge distinct a)
  · have none : a.keys.filter (· ∉ a.keys) = [] := by simp
    rw [keys_merge _ distinct, none, List.append_nil]
  · intro key
    rw [get?_merge _ distinct, Option.or_self]

end Laws

theorem ofEntries_concat (entries : List (Text × Value)) (entry : Text × Value) :
    ofEntries (entries ++ [entry]) = (ofEntries entries).insert entry.1 entry.2 :=
  List.foldl_concat ..

theorem nodup_keys_ofEntries (entries : List (Text × Value)) :
    (ofEntries entries).keys.Nodup := by
  induction entries using List.reverseRecOn with
  | nil => exact List.nodup_nil
  | append_singleton entries entry ih =>
      rw [ofEntries_concat]
      exact nodup_keys_insert ih entry.1 entry.2

theorem mem_entries_ofEntries {entries : List (Text × Value)} {entry : Text × Value}
    (member : entry ∈ (ofEntries entries).entries) : entry ∈ entries := by
  induction entries using List.reverseRecOn with
  | nil => cases member
  | append_singleton entries last ih =>
      rw [ofEntries_concat] at member
      rw [List.mem_append]
      rcases mem_entries_insert member with rfl | old
      · exact .inr List.mem_cons_self
      · exact .inl (ih old)

/-- `p` holds of a style and of every scope inside it, at any depth. -/
inductive Everywhere (p : Style → Prop) : Style → Prop
  | intro {s : Style} (here : p s)
      (below : ∀ key inner, (key, Value.scope inner) ∈ s.entries → Everywhere p inner) :
      Everywhere p s

/-- No key occurs twice at any level. -/
abbrev Distinct (s : Style) : Prop := s.Everywhere fun level => level.keys.Nodup

theorem Everywhere.own {p : Style → Prop} {s : Style} (h : s.Everywhere p) : p s := by
  cases h
  assumption

theorem Everywhere.scope {p : Style → Prop} {s : Style} (h : s.Everywhere p) {key : Text}
    {inner : Style} (member : (key, Value.scope inner) ∈ s.entries) : inner.Everywhere p := by
  cases h with
  | intro _ below => exact below key inner member

theorem distinct_nil : Distinct .nil :=
  .intro List.nodup_nil fun _ _ member => nomatch member

theorem Distinct.insert {s : Style} {key : Text} {value : Value} (receiver : s.Distinct)
    (inserted : ∀ inner, value = .scope inner → inner.Distinct) :
    (s.insert key value).Distinct := by
  refine .intro (nodup_keys_insert receiver.own key value) ?_
  intro k inner member
  rcases mem_entries_insert member with same | old
  · cases same
    exact inserted inner rfl
  · exact receiver.scope old

theorem Distinct.merge {a b : Style} (left : a.Distinct) (right : b.Distinct) :
    (a ++ b).Distinct := by
  refine .intro (nodup_keys_merge left.own b) ?_
  intro key inner member
  rcases mem_entries_merge member with member | member
  · exact left.scope member
  · exact right.scope member

theorem distinct_ofEntries {entries : List (Text × Value)}
    (each : ∀ key inner, (key, Value.scope inner) ∈ entries → inner.Distinct) :
    (ofEntries entries).Distinct := by
  refine .intro (nodup_keys_ofEntries entries) ?_
  intro key inner member
  exact each key inner (mem_entries_ofEntries member)

theorem insertStatements_induction {p : Style → Prop} {s after : Style} {statements : List Text}
    (start : p s)
    (step : ∀ statement ∈ statements, ∀ key value, statement? statement = .ok (key, value) →
      ∀ s, p s → p (s.insert key (.scalar (.text value))))
    (done : insertStatements s statements = .ok after) : p after := by
  induction statements generalizing s with
  | nil =>
      cases done
      exact start
  | cons statement rest ih =>
      rw [List.forall_mem_cons] at step
      rw [insertStatements] at done
      split at done
      · exact ih start step.2 done
      · obtain ⟨⟨key, value⟩, read, done⟩ := Except.bind_eq_ok_iff.mp done
        exact ih (step.1 key value read s start) step.2 done

theorem distinct_of_ofInline {css : Text} {s : Style} (parsed : ofInline css = .ok s) :
    s.Distinct := by
  apply insertStatements_induction distinct_nil _ parsed
  intro statement _ key value _ s distinct
  exact distinct.insert fun inner same => nomatch same

end Style

theorem Value.ofMembers?_eq_some_iff {members : List (Text × Json)}
    {entries : List (Text × Value)} :
    ofMembers? members = some entries ↔
      List.Forall₂ (fun member entry => member.1 = entry.1 ∧ ofJson? member.2 = some entry.2)
        members entries := by
  induction members generalizing entries with
  | nil => simp [ofMembers?, eq_comm]
  | cons member rest ih =>
      obtain ⟨key, json⟩ := member
      simp only [ofMembers?, ofMember?, Option.bind_eq_bind, Option.bind_eq_some_iff,
        Option.map_eq_some_iff, Option.some.injEq, List.forall₂_cons_left_iff, ih]
      constructor
      · rintro ⟨_, ⟨value, read, rfl⟩, others, below, rfl⟩
        exact ⟨(key, value), others, ⟨rfl, read⟩, below, rfl⟩
      · rintro ⟨⟨_, value⟩, others, ⟨rfl, read⟩, below, rfl⟩
        exact ⟨_, ⟨value, read, rfl⟩, others, below, rfl⟩

theorem Value.exists_of_mem_ofMembers? {members : List (Text × Json)}
    {entries : List (Text × Value)} (read : ofMembers? members = some entries)
    {entry : Text × Value} (inside : entry ∈ entries) :
    ∃ member ∈ members, ofJson? member.2 = some entry.2 := by
  obtain ⟨member, given, _, value⟩ :=
    (ofMembers?_eq_some_iff.mp read).flip.exists_of_mem_left inside
  exact ⟨member, given, value⟩

theorem Value.distinct_of_ofJson? {j : Json} {s : Style} (read : ofJson? j = some (.scope s)) :
    s.Distinct := by
  induction j using Json.induction generalizing s with
  | object members ih =>
      obtain ⟨entries, listed, same⟩ := Option.map_eq_some_iff.mp read
      cases same
      apply Style.distinct_ofEntries
      intro key inner inside
      obtain ⟨member, given, value⟩ := exists_of_mem_ofMembers? listed inside
      exact ih member given value
  | _ => cases read

namespace Style

/-- The styles that the operations make. Setting and nesting are insertions. -/
inductive Made : Style → Prop
  | empty : Made .nil
  | insert {s : Style} {key : Text} {value : Value} (receiver : Made s)
      (inserted : ∀ inner, value = .scope inner → Made inner) : Made (s.insert key value)
  | entries {entries : List (Text × Value)}
      (each : ∀ key inner, (key, Value.scope inner) ∈ entries → Made inner) :
      Made (ofEntries entries)
  | merge {a b : Style} (left : Made a) (right : Made b) : Made (a ++ b)
  | statements {css : Text} {s : Style} (parsed : ofInline css = .ok s) : Made s
  | json {json : Json} {s : Style} (read : ofJson? json = some s) : Made s

theorem ofJson?_eq_some_iff {j : Json} {s : Style} :
    ofJson? j = some s ↔ Value.ofJson? j = some (.scope s) := by
  cases j <;> simp [ofJson?, Value.ofJson?]

theorem Made.distinct {s : Style} (made : s.Made) : s.Distinct := by
  induction made with
  | empty => exact distinct_nil
  | insert _ _ receiver inserted => exact receiver.insert inserted
  | entries _ each => exact distinct_ofEntries each
  | merge _ _ left right => exact left.merge right
  | statements parsed => exact distinct_of_ofInline parsed
  | json read => exact Value.distinct_of_ofJson? (ofJson?_eq_some_iff.mp read)

theorem ofEntries_entries {s : Style} (distinct : s.keys.Nodup) : ofEntries s.entries = s := by
  rw [ofEntries, ← merge_eq_foldl, nil_merge distinct]

/-- What can be made is what has distinct keys. -/
theorem made_iff_distinct {s : Style} : s.Made ↔ s.Distinct := by
  constructor
  · exact Made.distinct
  · intro distinct
    induction distinct with
    | @intro s keys _ ih =>
        have made : (ofEntries s.entries).Made := .entries ih
        rwa [ofEntries_entries keys] at made

/-- A style is an ordered mapping at every level, and merging is a monoid on styles: what the right
one has replaces what the left one has in its place, and its other keys follow in their order. -/
theorem Made.merge_laws {a b c : Style} (madeA : a.Made) (madeB : b.Made) (madeC : c.Made) :
    a.Everywhere (fun level => level.keys.Nodup) ∧
      (a ++ b) ++ c = a ++ (b ++ c) ∧ a ++ Style.nil = a ∧ Style.nil ++ a = a ∧ a ++ a = a ∧
      (∀ key, (a ++ b).get? key = (b.get? key).or (a.get? key)) ∧
      (a ++ b).keys = a.keys ++ b.keys.filter (· ∉ a.keys) := by
  have distinctA := madeA.distinct.own
  have distinctB := madeB.distinct.own
  have distinctC := madeC.distinct.own
  exact ⟨madeA.distinct, merge_assoc distinctA distinctB distinctC, merge_nil a,
    nil_merge distinctA, merge_self distinctA, get?_merge a distinctB, keys_merge a distinctB⟩

/-- Read from statements that name one key twice. -/
def button : Style :=
  .property "color".toList (.text "blue".toList) <| .property "width".toList (.text "1px".toList) .nil

/-- Read from an object that has a key twice, and so has a scope in it. -/
def buttonOverlay : Style :=
  .property "width".toList (.number (.ofNat 3)) <|
    .scope ".x".toList
      (.property "b".toList (.number (.ofNat 2)) <| .property "a".toList .null .nil) .nil

def buttonJson : Json :=
  .object
    [("width".toList, .object []),
      (".x".toList, .object
        [("b".toList, .text "1".toList), ("a".toList, .null), ("b".toList, .number (.ofNat 2))]),
      ("width".toList, .number (.ofNat 3))]

theorem Made.merge_laws_button :
    button.Made ∧ buttonOverlay.Made ∧ buttonOverlay.Everywhere (fun level => level.keys.Nodup) ∧
      (buttonOverlay ++ button) ++ buttonOverlay = buttonOverlay ++ (button ++ buttonOverlay) ∧
      button ++ button = button ∧
      (button ++ buttonOverlay).get? "width".toList = some (.scalar (.number (.ofNat 3))) ∧
      (button ++ buttonOverlay).keys = ["color".toList, "width".toList, ".x".toList] := by
  have parsed : ofInline "color:red; width : 1px;;color: blue".toList = .ok button := rfl
  have read : ofJson? buttonJson = some buttonOverlay := rfl
  have made : button.Made := .statements parsed
  have overlay : buttonOverlay.Made := .json read
  obtain ⟨distinct, assoc, _⟩ := overlay.merge_laws made overlay
  obtain ⟨_, _, _, _, same, values, keys⟩ := made.merge_laws overlay made
  exact ⟨made, overlay, distinct, assoc, same, values _, keys⟩

end Style

end Hypertext
