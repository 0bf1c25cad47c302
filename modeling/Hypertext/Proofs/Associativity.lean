import Hypertext.Proofs.Product

/-! Combination is associative. What a key adds to its parent it also adds when another key has been
put under it first, so three lists can be combined from either end. -/

namespace Hypertext.Selector

theorem suffix_append {key : Text} (hk : Joinable key) (t : Text) :
    suffix (key ++ t) = suffix key ++ t := by
  rcases suffix_cases hk with
    ⟨rest, rfl, added⟩ | ⟨c, rest, combinator, modifier, rfl, target, added⟩ |
    ⟨independent, added⟩
  · rw [added]
    rfl
  · rw [added, List.cons_append, suffix, if_neg modifier,
      if_pos (List.contains_iff_mem.mpr combinator), Text.trimStart_append_left target]
    rfl
  · obtain ⟨c, rest, rfl⟩ := List.exists_cons_of_ne_nil hk.nonempty
    have longer : isDependent (c :: rest ++ t) = false := independent
    rw [added, suffix_of_independent longer]
    rfl

theorem joinable_append_suffix {parent key : Text} (hp : Joinable parent) (hk : Joinable key) :
    Joinable (parent ++ suffix key) := by
  refine ⟨solid_append_suffix hp.toSolid hk, ?_⟩
  rw [Bool.eq_false_iff]
  intro lone
  obtain ⟨c, combinator, same⟩ := List.any_eq_true.mp lone
  rcases List.append_eq_singleton_iff.mp (beq_iff_eq.mp same) with ⟨empty, _⟩ | ⟨alone, _⟩
  · exact hp.nonempty empty
  · have lone : isLone parent = true := by
      rw [alone]
      exact List.any_eq_true.mpr ⟨c, combinator, beq_self_eq_true _⟩
    rw [hp.notLone] at lone
    cases lone

theorem joinable_joined {parents keys : List Text} (hp : ∀ p ∈ parents, Joinable p)
    (hk : ∀ k ∈ keys, Joinable k) : ∀ t ∈ joined parents keys, Joinable t := by
  intro t member
  rcases List.mem_map.mp member with ⟨pair, chosen, rfl⟩
  obtain ⟨parent, key⟩ := mem_choices.mp chosen
  exact joinable_append_suffix (hp _ parent) (hk _ key)

theorem joined_eq_flatMap (parents keys : List Text) :
    joined parents keys = parents.flatMap fun p => keys.map fun k => p ++ suffix k := by
  simp [joined, choices, List.map_flatMap, Function.comp_def]

/-- Each side has one alternative for each choice of three, in the same order. -/
theorem joined_assoc (parents : List Text) {first : List Text} (hf : ∀ k ∈ first, Joinable k)
    (second : List Text) :
    joined (joined parents first) second = joined parents (joined first second) := by
  have step : ∀ p : Text, ∀ k ∈ first,
      (second.map fun l => p ++ suffix (k ++ suffix l)) =
        second.map fun l => p ++ suffix k ++ suffix l := by
    intro p k member
    apply List.map_congr_left
    intro l _
    rw [suffix_append (hf k member), List.append_assoc]
  calc
    joined (joined parents first) second
      = parents.flatMap fun p => first.flatMap fun k =>
          second.map fun l => p ++ suffix k ++ suffix l := by
        simp only [joined_eq_flatMap, List.flatMap_assoc, List.flatMap_map]
    _ = parents.flatMap fun p => first.flatMap fun k =>
          second.map fun l => p ++ suffix (k ++ suffix l) :=
        List.flatMap_congr fun p _ => (List.flatMap_congr (step p)).symm
    _ = joined parents (joined first second) := by
        simp only [joined_eq_flatMap, List.map_flatMap, List.map_map, Function.comp_def]

/-- The list that a combination writes is split where its alternatives meet. -/
theorem pieces_of_combine {parent key selector : Text} (parents : [] ∉ pieces parent)
    (closedParent : Closed parent) (closedKey : Closed key)
    (combined : combine parent key = .ok selector) :
    pieces selector = joined (pieces parent) (pieces key) := by
  obtain ⟨keys, rfl⟩ := combine_eq_ok parents combined
  apply pieces_list (joined_ne_nil (pieces_ne_nil parent) (pieces_ne_nil key))
  intro t member
  constructor
  · exact solid_joined (solid_pieces parents) keys t member
  · refine closed_joined ?_ keys ?_ t member
    · exact fun p own => closed_of_mem_pieces closedParent own
    · exact fun k own => closed_of_mem_pieces closedKey own

/-- Two keys, one inside the other, lead to the same selector whether they are put under a parent one
after the other or combined first. -/
theorem combine_assoc {parent first second outer inner : Text}
    (parents : ∀ piece ∈ pieces parent, piece ≠ []) (closedParent : Closed parent)
    (closedFirst : Closed first) (closedSecond : Closed second)
    (above : combine parent first = .ok outer) (below : combine first second = .ok inner) :
    ∃ selector, combine outer second = .ok selector ∧ combine parent inner = .ok selector := by
  have given : [] ∉ pieces parent := fun empty => parents [] empty rfl
  have firstJoins := (combine_eq_ok given above).1
  have firstGiven : [] ∉ pieces first := fun empty => (firstJoins [] empty).nonempty rfl
  have secondJoins := (combine_eq_ok firstGiven below).1
  have outerPieces := pieces_of_combine given closedParent closedFirst above
  have innerPieces := pieces_of_combine firstGiven closedFirst closedSecond below
  have outerGiven : [] ∉ pieces outer := by
    rw [outerPieces]
    exact fun empty => (solid_joined (solid_pieces given) firstJoins [] empty).nonempty rfl
  have innerJoins : ∀ k ∈ pieces inner, Joinable k := by
    rw [innerPieces]
    exact joinable_joined firstJoins secondJoins
  refine ⟨_, combine_joined outerGiven secondJoins, ?_⟩
  rw [combine_joined given innerJoins, outerPieces, innerPieces,
    joined_assoc (pieces parent) firstJoins]

/-- Every kind of key in either place, a bare `&` among them, and a comma that splits nothing. -/
theorem combine_assoc_list :
    combine "a:is(b, c)".toList ">  li, &".toList =
        .ok "a:is(b, c) > li, a:is(b, c)".toList ∧
      combine ">  li, &".toList "&:hover,~p, i".toList =
        .ok ">  li:hover, >  li ~ p, >  li i, &:hover, & ~ p, & i".toList ∧
      ∃ selector,
        combine "a:is(b, c) > li, a:is(b, c)".toList "&:hover,~p, i".toList = .ok selector ∧
        combine "a:is(b, c)".toList
          ">  li:hover, >  li ~ p, >  li i, &:hover, & ~ p, & i".toList = .ok selector := by
  have parents : ∀ piece ∈ pieces "a:is(b, c)".toList, piece ≠ [] := by decide
  have above : combine "a:is(b, c)".toList ">  li, &".toList =
      .ok "a:is(b, c) > li, a:is(b, c)".toList := rfl
  have below : combine ">  li, &".toList "&:hover,~p, i".toList =
      .ok ">  li:hover, >  li ~ p, >  li i, &:hover, & ~ p, & i".toList := rfl
  exact ⟨above, below, combine_assoc parents rfl rfl rfl above below⟩

end Hypertext.Selector
