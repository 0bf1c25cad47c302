import Hypertext.Proofs.Acceptance

/-! Who is to blame for a selector that cannot be combined with a key. A selector that came out of a
combination is never at fault, whatever brackets it leaves open: it is trimmed, and split again it
has no empty alternative. So only the key can be wrong, and all that the parent decides is the text
that the error shows. -/

namespace Hypertext

namespace Selector

variable {parent key selector : Text}

theorem pieces_nonempty_of_combine (given : parent ≠ [])
    (h : combine parent key = .ok selector) : [] ∉ pieces parent := by
  intro empty
  obtain ⟨keys, _, h⟩ := Except.bind_eq_ok_iff.mp h
  rw [if_neg (by simpa using given)] at h
  obtain ⟨parents, split, _⟩ := Except.bind_eq_ok_iff.mp h
  rw [alternatives_eq, if_pos empty] at split
  cases split

/-- What is combined can stand over other scopes, whatever it was made of. -/
theorem isCombined_of_combine_eq_ok (h : combine parent key = .ok selector) :
    IsCombined selector := by
  by_cases root : parent = []
  · exact isCombined_of_combine (.inl root) h
  · have parents := pieces_nonempty_of_combine root h
    obtain ⟨joins, rfl⟩ := combine_eq_ok parents h
    exact ⟨_, joined_ne_nil (pieces_ne_nil parent) (pieces_ne_nil key),
      solid_joined (solid_pieces parents) joins, rfl⟩

/-- What a parent refuses a key for. An empty alternative of the key is blamed on the whole parent,
and otherwise a combinator without a target on the first alternative of the parent. -/
inductive Refuses (parent key : Text) : StyleError → Prop
  | empty (blank : [] ∈ pieces key) : Refuses parent key (.blankSelector parent)
  | lone (filled : [] ∉ pieces key) {piece : Text} (member : piece ∈ pieces key)
      (lone : piece ∈ [['>'], ['+'], ['~']]) {first : Text} {others : List Text}
      (split : pieces parent = first :: others) : Refuses parent key (.blankSelector first)

theorem keyError?_eq_some_iff (given : parent ≠ []) {e : StyleError} :
    keyError? parent key = some e ↔ Refuses parent key e := by
  obtain ⟨first, others, split⟩ := List.exists_cons_of_ne_nil (pieces_ne_nil parent)
  by_cases empty : [] ∈ pieces key
  · rw [keyError?, if_pos empty, Option.some.injEq]
    constructor
    · rintro rfl
      exact .empty empty
    · intro refused
      cases refused with
      | empty => rfl
      | lone filled => exact absurd empty filled
  · rw [keyError?, if_neg empty, if_neg given, split, List.headD_cons,
      Option.ite_none_right_eq_some, List.any_eq_true, Option.some.injEq]
    constructor
    · rintro ⟨⟨piece, member, lone⟩, rfl⟩
      exact .lone empty member (isLone_iff.mp lone) split
    · intro refused
      cases refused with
      | empty blank => exact absurd blank empty
      | lone _ member lone again =>
          rw [split] at again
          cases again
          exact ⟨⟨_, member, isLone_iff.mpr lone⟩, rfl⟩

theorem combine_eq_error_iff (parents : [] ∉ pieces parent) {e : StyleError} :
    combine parent key = .error e ↔ Refuses parent key e := by
  rw [← keyError?_eq_some_iff (ne_nil_of_pieces parents), combine_inner parents]
  cases keyError? parent key <;> simp

theorem exists_refuses_iff (parent key : Text) :
    (∃ e, Refuses parent key e) ↔
      ∃ piece ∈ pieces key, piece = [] ∨ piece ∈ [['>'], ['+'], ['~']] := by
  constructor
  · rintro ⟨e, refused⟩
    cases refused with
    | empty blank => exact ⟨[], blank, .inl rfl⟩
    | lone _ member lone => exact ⟨_, member, .inr lone⟩
  · rintro ⟨piece, member, wrong⟩
    by_cases empty : [] ∈ pieces key
    · exact ⟨_, .empty empty⟩
    · rcases wrong with rfl | lone
      · exact absurd member empty
      · obtain ⟨first, others, split⟩ := List.exists_cons_of_ne_nil (pieces_ne_nil parent)
        exact ⟨_, .lone empty member lone split⟩

theorem not_refuses_blank (parents : [] ∉ pieces parent) :
    ¬Refuses parent key (.blankSelector []) := by
  intro refused
  have given := ne_nil_of_pieces parents
  generalize blamed : StyleError.blankSelector [] = e at refused
  cases refused with
  | empty =>
      cases blamed
      exact given rfl
  | lone _ _ _ split =>
      cases blamed
      exact parents (split ▸ List.mem_cons_self)

end Selector

namespace Style

variable {path : List Text} {s : Style}

theorem exists_of_mem_propertyChecks {late : Bool} {check : Check}
    (member : check ∈ s.propertyChecks path late) :
    ∃ after name value, check = .property path after name value := by
  induction s generalizing late with
  | nil => cases member
  | scope _ _ rest _ ih => exact ih member
  | property key value rest ih =>
      rcases List.mem_cons.mp member with rfl | later
      · exact ⟨late, key, value, rfl⟩
      · exact ih later

/-- Where a check below the top level comes from. -/
theorem nestedChecks_cases {key : Text} {inner rest : Style} {check : Check}
    (member : check ∈ (Style.scope key inner rest).nestedChecks path) :
    check = .scope path key ∨
      (∃ after name value, check = .property (path ++ [key]) after name value) ∨
      check ∈ inner.nestedChecks (path ++ [key]) ∨ check ∈ rest.nestedChecks path := by
  rw [nestedChecks, List.mem_cons, List.mem_append, List.mem_append] at member
  rcases member with own | (direct | below) | later
  · exact .inl own
  · exact .inr (.inl (exists_of_mem_propertyChecks direct))
  · exact .inr (.inr (.inl below))
  · exact .inr (.inr (.inr later))

theorem length_path_of_mem_nestedChecks {check : Check}
    (member : check ∈ s.nestedChecks path) : path.length ≤ check.path.length := by
  induction s generalizing path with
  | nil => cases member
  | property _ _ rest ih => exact ih member
  | scope key inner rest ihInner ihRest =>
      rcases nestedChecks_cases member with rfl | ⟨_, _, _, rfl⟩ | below | later
      · exact Nat.le_refl _
      · rw [Check.path, List.length_append]
        exact Nat.le_add_right _ _
      · have deeper := ihInner below
        rw [List.length_append] at deeper
        exact Nat.le_of_add_right_le deeper
      · exact ihRest later

/-- A key that is checked on a path is one of the keys at its end. -/
theorem mem_entries_of_mem_nestedChecks {name : Text}
    (member : Check.scope path name ∈ s.nestedChecks path) :
    ∃ inner, (name, Value.scope inner) ∈ s.entries := by
  induction s with
  | nil => cases member
  | property _ _ rest ih =>
      obtain ⟨inner, stored⟩ := ih member
      exact ⟨inner, List.mem_cons_of_mem _ stored⟩
  | scope key inner rest _ ih =>
      rcases nestedChecks_cases member with same | ⟨_, _, _, same⟩ | below | later
      · cases same
        exact ⟨inner, List.mem_cons_self⟩
      · cases same
      · have deeper := length_path_of_mem_nestedChecks below
        rw [List.length_append, List.length_singleton] at deeper
        exact absurd deeper (Nat.not_succ_le_self _)
      · obtain ⟨other, stored⟩ := ih later
        exact ⟨other, List.mem_cons_of_mem _ stored⟩

theorem Check.errorIn?_property_ne {late : Bool} {name selector blamed : Text} {value : Scalar} :
    (Check.property path late name value).errorIn? selector ≠ some (.blankSelector blamed) := by
  cases value <;> simp only [errorIn?, Property.error?] <;> split_ifs <;> simp

/-- An empty selector is blamed on no parent only for a key that has none. -/
theorem mem_entries_of_error? {check : Check} (checked : check ∈ s.checks)
    (blank : check.error? = some (.blankSelector [])) :
    ∃ key inner, (key, Value.scope inner) ∈ s.entries ∧ [] ∈ Selector.pieces key := by
  cases reached : Selector.along check.path with
  | error e =>
      rw [Check.error?, reached] at blank
      cases blank
  | ok selector =>
      rw [check.error?_eq reached] at blank
      cases check with
      | property path late name value => exact absurd blank Check.errorIn?_property_ne
      | scope path name =>
          rcases Selector.root_or_isCombined reached with ⟨root, rfl⟩ | ⟨_, isCombined⟩
          · cases root
            rcases List.mem_append.mp checked with direct | nested
            · obtain ⟨_, _, _, same⟩ := exists_of_mem_propertyChecks direct
              cases same
            · obtain ⟨inner, stored⟩ := mem_entries_of_mem_nestedChecks nested
              refine ⟨name, inner, stored, ?_⟩
              by_contra filled
              simp [Check.errorIn?, Selector.keyError?, filled] at blank
          · have refused := (Selector.keyError?_eq_some_iff isCombined.ne_nil).mp blank
            exact absurd refused (Selector.not_refuses_blank isCombined.pieces_nonempty)

end Style

namespace Selector

structure Answers (parent key : Text) : Prop where
  fails : (∃ e, combine parent key = .error e) ↔
    ∃ piece ∈ pieces key, piece = [] ∨ piece ∈ [['>'], ['+'], ['~']]
  blames : ∀ e, combine parent key = .error e ↔ Refuses parent key e
  shows : combine parent key ≠ .error (.blankSelector [])
  combined : ∀ selector, combine parent key = .ok selector → selector ≠ [] ∧ selector.Trimmed

theorem answers_of_isCombined (h : IsCombined parent) (key : Text) : Answers parent key := by
  have parents := h.pieces_nonempty
  have refuses : ∀ e, combine parent key = .error e ↔ Refuses parent key e :=
    fun _ => combine_eq_error_iff parents
  constructor
  · rw [← exists_refuses_iff parent key]
    exact exists_congr refuses
  · exact refuses
  · rw [ne_eq, refuses]
    exact not_refuses_blank parents
  · intro selector combined
    have below := isCombined_of_combine_eq_ok combined
    exact ⟨below.ne_nil, below.trimmed⟩

/-- What was combined is split again without an empty alternative, and combines with every key that
is not wrong itself. So a blank selector is blamed on an empty parent at the top level alone. -/
theorem combine_blames :
    (∀ outer first parent, combine outer first = .ok parent →
      parent ≠ [] ∧ parent.Trimmed ∧ [] ∉ pieces parent ∧
      (∀ blamed, alternatives blamed parent = .ok (pieces parent)) ∧
      ∀ key, Answers parent key) ∧
    ∀ s, Sheet.ofStyle s = .error (.blankSelector []) →
      ∃ key inner, (key, Value.scope inner) ∈ s.entries ∧ [] ∈ pieces key := by
  constructor
  · intro outer first parent made
    have isCombined := isCombined_of_combine_eq_ok made
    have filled := isCombined.pieces_nonempty
    refine ⟨isCombined.ne_nil, isCombined.trimmed, filled, ?_, answers_of_isCombined isCombined⟩
    intro blamed
    rw [alternatives_eq, if_neg filled]
  · intro s refused
    rw [← Except.error?_eq_some_iff, Sheet.error?_ofStyle] at refused
    obtain ⟨check, checked, blank⟩ := List.exists_of_findSome?_eq_some refused
    exact Style.mem_entries_of_error? checked blank

/-- The brackets are never closed, so the two alternatives are split again as one. -/
def unclosedList : Text := "a( b, a( c".toList

theorem combine_blames_unclosedList :
    combine "a(".toList "b, c".toList = .ok unclosedList ∧ Answers unclosedList "x, >".toList ∧
      combine unclosedList "x, >".toList = .error (.blankSelector unclosedList) ∧
      combine [] "h1,h2".toList = .ok "h1, h2".toList ∧
      combine "h1, h2".toList "+".toList = .error (.blankSelector "h1".toList) ∧
      combine "h1, h2".toList "p,,".toList = .error (.blankSelector "h1, h2".toList) ∧
      Sheet.ofStyle (.under "p,".toList .nil) = .error (.blankSelector []) ∧
      ∃ key inner, (key, Value.scope inner) ∈ (Style.under "p,".toList .nil).entries ∧
        [] ∈ pieces key := by
  have unclosed : combine "a(".toList "b, c".toList = .ok unclosedList := rfl
  have headings : combine [] "h1,h2".toList = .ok "h1, h2".toList := rfl
  have compiled : Sheet.ofStyle (.under "p,".toList .nil) = .error (.blankSelector []) := rfl
  obtain ⟨below, top⟩ := combine_blames
  obtain ⟨_, _, _, _, fused⟩ := below _ _ _ unclosed
  obtain ⟨_, _, _, _, list⟩ := below _ _ _ headings
  have answers := fused "x, >".toList
  have target : Refuses unclosedList "x, >".toList (.blankSelector unclosedList) :=
    .lone (by decide) (by decide : ['>'] ∈ _) (by decide) (rfl : pieces unclosedList = [_])
  have sibling : Refuses "h1, h2".toList "+".toList (.blankSelector "h1".toList) :=
    .lone (by decide) (by decide : ['+'] ∈ _) (by decide) (rfl : pieces "h1, h2".toList = [_, _])
  have blank : Refuses "h1, h2".toList "p,,".toList (.blankSelector "h1, h2".toList) :=
    .empty (by decide)
  exact ⟨unclosed, answers, (answers.blames _).mpr target, headings, ((list _).blames _).mpr sibling,
    ((list _).blames _).mpr blank, compiled, top _ compiled⟩

end Selector

end Hypertext
