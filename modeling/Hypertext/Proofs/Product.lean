import Mathlib.Algebra.BigOperators.Group.List.Basic
import Hypertext.Proofs.Selector

/-! The alternatives of a scope's selector are the product of those of the keys on the way to it. A
list that closes its brackets does so at every comma that splits it, so its alternatives can be put
next to each other, written as a list and read back. -/

namespace Hypertext.Selector

/-- No bracket is open at the end. -/
abbrev Closed (t : Text) : Prop := endDepth 0 t = 0

theorem endDepth_append (d : Nat) (u v : Text) :
    endDepth d (u ++ v) = endDepth (endDepth d u) v :=
  List.foldl_append

theorem endDepth_cons (d : Nat) (c : Char) (rest : Text) :
    endDepth d (c :: rest) = endDepth (depthAfter d c) rest := rfl

theorem endDepth_of_isPlain {t : Text} (plain : ∀ c ∈ t, isPlain c) (d : Nat) :
    endDepth d t = d := by
  induction t with
  | nil => rfl
  | cons c rest ih =>
      rw [endDepth_cons, depthAfter_of_isPlain (plain c List.mem_cons_self)]
      exact ih fun e member => plain e (List.mem_cons_of_mem _ member)

theorem endDepth_trimStart (d : Nat) (t : Text) : endDepth d (Text.trimStart t) = endDepth d t := by
  have blank : ∀ c ∈ t.takeWhile Text.isBlank, isPlain c := fun c member =>
    isPlain_of_isBlank (List.mem_takeWhile_imp member)
  calc
    endDepth d (Text.trimStart t)
      = endDepth (endDepth d (t.takeWhile Text.isBlank)) (Text.trimStart t) := by
        rw [endDepth_of_isPlain blank]
    _ = endDepth d t := by rw [← endDepth_append, Text.trimStart_append]

theorem endDepth_trim (d : Nat) (t : Text) : endDepth d (Text.trim t) = endDepth d t := by
  obtain ⟨after, split, blank⟩ := Text.trimEnd_append (Text.trimStart t)
  have plain : ∀ c ∈ after, isPlain c := fun c member => isPlain_of_isBlank (blank c member)
  calc
    endDepth d (Text.trim t) = endDepth (endDepth d (Text.trim t)) after :=
        (endDepth_of_isPlain plain _).symm
    _ = endDepth d (Text.trimStart t) := by rw [← endDepth_append, Text.trim, ← split]
    _ = endDepth d t := endDepth_trimStart d t

theorem endDepth_suffix {key : Text} (hk : Joinable key) (d : Nat) :
    endDepth d (suffix key) = endDepth d key := by
  have skip : ∀ {c : Char} (rest : Text), isPlain c → endDepth d (c :: rest) = endDepth d rest := by
    intro c rest plain
    rw [endDepth_cons, depthAfter_of_isPlain plain]
  rcases suffix_cases hk with
    ⟨rest, rfl, added⟩ | ⟨c, rest, combinator, _, rfl, _, added⟩ | ⟨_, added⟩
  · rw [added, skip rest rfl]
  · have plain := isPlain_of_mem_combinators combinator
    rw [added, skip _ rfl, skip _ plain, skip _ rfl, skip _ plain, endDepth_trimStart]
  · rw [added, skip key rfl]

theorem closed_append {u v : Text} (hu : Closed u) (hv : Closed v) : Closed (u ++ v) := by
  rw [Closed, endDepth_append, hu, hv]

/-- The first stretch ends at depth zero as the others do, but starts where the text does. -/
theorem endDepth_stretches {d : Nat} {t : Text} (closed : endDepth d t = 0) :
    ∃ first others, stretches d t = first :: others ∧ endDepth d first = 0 ∧
      ∀ u ∈ others, Closed u := by
  induction t generalizing d with
  | nil => exact ⟨[], [], rfl, closed, by simp⟩
  | cons c rest ih =>
      by_cases comma : c = ',' ∧ d = 0
      · obtain ⟨rfl, rfl⟩ := comma
        obtain ⟨first, others, split, start, later⟩ := ih (d := 0) closed
        refine ⟨[], first :: others, ?_, rfl, List.forall_mem_cons.mpr ⟨start, later⟩⟩
        simp [stretches, split]
      · obtain ⟨first, others, split, start, later⟩ := ih closed
        refine ⟨c :: first, others, ?_, start, later⟩
        simp [stretches, comma, split]

theorem closed_of_mem_pieces {key piece : Text} (closed : Closed key) (h : piece ∈ pieces key) :
    Closed piece := by
  rcases List.mem_map.mp h with ⟨u, stretch, rfl⟩
  obtain ⟨first, others, split, start, later⟩ := endDepth_stretches closed
  rw [split] at stretch
  rw [Closed, endDepth_trim]
  rcases List.mem_cons.mp stretch with rfl | stretch
  · exact start
  · exact later u stretch

theorem closed_joined {parents keys : List Text} (hp : ∀ p ∈ parents, Closed p)
    (hk : ∀ k ∈ keys, Joinable k) (closed : ∀ k ∈ keys, Closed k) :
    ∀ t ∈ joined parents keys, Closed t := by
  intro t member
  rcases List.mem_map.mp member with ⟨pair, chosen, rfl⟩
  obtain ⟨parent, key⟩ := mem_choices.mp chosen
  apply closed_append (hp _ parent)
  rw [Closed, endDepth_suffix (hk _ key)]
  exact closed _ key

theorem map_trim_space (ts : List Text) :
    (ts.modifyHead (' ' :: ·)).map Text.trim = ts.map Text.trim := by
  cases ts <;> simp [Text.trim_space]

theorem list_singleton (p : Text) : list [p] = p := List.intercalate_singleton

theorem pieces_of_solid {p : Text} (hp : Solid p) : pieces p = [p] := by
  rw [pieces, hp.whole 0, List.map_singleton, Text.trim_eq_self hp.trimmed]

theorem pieces_list {parts : List Text} (some : parts ≠ [])
    (h : ∀ t ∈ parts, Solid t ∧ Closed t) : pieces (list parts) = parts := by
  induction parts with
  | nil => exact absurd rfl some
  | cons p rest ih =>
      obtain ⟨solid, closed⟩ := h p List.mem_cons_self
      cases rest with
      | nil => rw [list_singleton, pieces_of_solid solid]
      | cons q more =>
          have later : pieces (list (q :: more)) = q :: more :=
            ih (List.cons_ne_nil q more) fun t member => h t (List.mem_cons_of_mem _ member)
          calc
            pieces (list (p :: q :: more))
              = Text.trim p :: pieces (list (q :: more)) := by
                rw [list_cons, pieces, stretches_append_left (solid.whole 0), closed,
                  stretches_comma, List.modifyHead_cons, List.append_nil, List.map_cons,
                  map_trim_space, pieces]
            _ = p :: q :: more := by rw [Text.trim_eq_self solid.trimmed, later]

theorem closed_list {parts : List Text} (h : ∀ t ∈ parts, Closed t) : Closed (list parts) := by
  induction parts with
  | nil => rfl
  | cons p rest ih =>
      have first := h p List.mem_cons_self
      cases rest with
      | nil => rwa [list_singleton]
      | cons q more =>
          rw [list_cons]
          exact closed_append first (ih fun t member => h t (List.mem_cons_of_mem _ member))

/-- One element from each list, in lexicographic order. -/
def selections {α : Type} : List (List α) → List (List α)
  | [] => [[]]
  | xs :: rest => xs.flatMap fun x => (selections rest).map (x :: ·)

theorem selections_concat {α : Type} (lists : List (List α)) (xs : List α) :
    selections (lists ++ [xs]) =
      (selections lists).flatMap fun choice => xs.map fun x => choice ++ [x] := by
  induction lists with
  | nil => simp [selections, List.map_eq_flatMap]
  | cons ys rest ih =>
      simp [selections, ih, List.map_flatMap, List.flatMap_map, List.flatMap_assoc,
        Function.comp_def]

theorem length_selections {α : Type} (lists : List (List α)) :
    (selections lists).length = (lists.map List.length).prod := by
  induction lists with
  | nil => rfl
  | cons xs rest ih => simp [selections, ih]

theorem mem_selections_cons {α : Type} {xs : List α} {rest : List (List α)} {choice : List α} :
    choice ∈ selections (xs :: rest) ↔
      ∃ x ∈ xs, ∃ others ∈ selections rest, choice = x :: others := by
  simp [selections, eq_comm]

theorem exists_mem_of_selections {α : Type} {lists : List (List α)} {choice : List α}
    (h : choice ∈ selections lists) : ∀ x ∈ choice, ∃ xs ∈ lists, x ∈ xs := by
  induction lists generalizing choice with
  | nil =>
      obtain rfl := List.mem_singleton.mp h
      simp
  | cons xs rest ih =>
      obtain ⟨y, own, others, chosen, rfl⟩ := mem_selections_cons.mp h
      intro x member
      rcases List.mem_cons.mp member with rfl | member
      · exact ⟨xs, List.mem_cons_self, own⟩
      · obtain ⟨ys, source, own⟩ := ih chosen x member
        exact ⟨ys, List.mem_cons_of_mem _ source, own⟩

/-- One alternative of each key, attached from left to right. -/
def attachAll : List Text → Except StyleError Text
  | [] => .ok []
  | first :: rest => rest.foldlM attach first

def chain : List Text → Text
  | [] => []
  | first :: rest => first ++ rest.flatMap suffix

theorem attachAll_eq_chain {first : Text} {rest : List Text} (h : ∀ k ∈ rest, Joinable k) :
    attachAll (first :: rest) = .ok (chain (first :: rest)) := by
  induction rest generalizing first with
  | nil =>
      rw [chain, List.flatMap_nil, List.append_nil]
      rfl
  | cons k rest ih =>
      have later : attachAll ((first ++ suffix k) :: rest) =
          .ok (chain ((first ++ suffix k) :: rest)) :=
        ih fun j member => h j (List.mem_cons_of_mem _ member)
      calc
        attachAll (first :: k :: rest) = attachAll ((first ++ suffix k) :: rest) := by
          rw [attachAll, List.foldlM_cons, attach_eq_append (h k List.mem_cons_self)]
          rfl
        _ = .ok (chain (first :: k :: rest)) := by
          rw [later, chain, chain, List.flatMap_cons, List.append_assoc]

theorem chain_concat {choice : List Text} (some : choice ≠ []) (k : Text) :
    chain (choice ++ [k]) = chain choice ++ suffix k := by
  cases choice with
  | nil => exact absurd rfl some
  | cons first rest => simp [chain]

def expansion (path : List Text) : List Text := (selections (path.map pieces)).map chain

theorem expansion_singleton (key : Text) : expansion [key] = pieces key := by
  simp [expansion, selections, ← List.map_eq_flatMap, Function.comp_def, chain]

/-- One more key joins its alternatives to those of the path. -/
theorem expansion_concat (first : Text) (rest : List Text) (key : Text) :
    expansion (first :: rest ++ [key]) = joined (expansion (first :: rest)) (pieces key) := by
  have step : ∀ choice ∈ selections ((first :: rest).map pieces),
      ((pieces key).map fun k => chain (choice ++ [k])) =
        (pieces key).map fun k => chain choice ++ suffix k := by
    intro choice chosen
    have some : choice ≠ [] := by
      obtain ⟨_, _, _, _, rfl⟩ := mem_selections_cons.mp chosen
      exact List.cons_ne_nil _ _
    apply List.map_congr_left
    intro k _
    exact chain_concat some k
  calc
    expansion (first :: rest ++ [key])
      = (selections ((first :: rest).map pieces)).flatMap fun choice =>
          (pieces key).map fun k => chain (choice ++ [k]) := by
        rw [expansion, List.map_append, List.map_singleton, selections_concat, List.map_flatMap]
        simp [Function.comp_def]
    _ = (selections ((first :: rest).map pieces)).flatMap fun choice =>
          (pieces key).map fun k => chain choice ++ suffix k := List.flatMap_congr step
    _ = joined (expansion (first :: rest)) (pieces key) := by
        simp [joined, choices, expansion, List.map_flatMap, List.flatMap_map, Function.comp_def]

/-- What a path of closed keys leads to: every key can stand where it does, and the selector is the
list of their expansion. -/
structure Expands (first : Text) (rest : List Text) (selector : Text) : Prop where
  top : ∀ k ∈ pieces first, Independent k
  below : ∀ key ∈ rest, ∀ k ∈ pieces key, Joinable k
  selector : selector = list (expansion (first :: rest))
  some : expansion (first :: rest) ≠ []
  solid : ∀ t ∈ expansion (first :: rest), Solid t
  closed : ∀ t ∈ expansion (first :: rest), Closed t

theorem Expands.pieces {first : Text} {rest : List Text} {selector : Text}
    (h : Expands first rest selector) : pieces selector = expansion (first :: rest) := by
  rw [h.selector]
  exact pieces_list h.some fun t member => ⟨h.solid t member, h.closed t member⟩

theorem expands_singleton {first selector : Text} (closed : Closed first)
    (top : combine [] first = .ok selector) : Expands first [] selector := by
  obtain ⟨keys, same⟩ := combine_root_eq_ok top
  refine ⟨keys, by simp, ?_, ?_, ?_, ?_⟩
  all_goals rw [expansion_singleton]
  · exact same
  · exact pieces_ne_nil first
  · exact fun t member => (keys t member).toSolid
  · exact fun t member => closed_of_mem_pieces closed member

theorem Expands.concat {first : Text} {rest : List Text} {parent key selector : Text}
    (above : Expands first rest parent) (isCombined : IsCombined parent) (closed : Closed key)
    (combined : combine parent key = .ok selector) : Expands first (rest ++ [key]) selector := by
  obtain ⟨keys, same⟩ := combine_eq_ok isCombined.pieces_nonempty combined
  rw [above.pieces] at same
  refine ⟨above.top, ?_, ?_, ?_, ?_, ?_⟩
  · intro k member
    rcases List.mem_append.mp member with member | member
    · exact above.below k member
    · obtain rfl := List.mem_singleton.mp member
      exact keys
  all_goals rw [← List.cons_append, expansion_concat]
  · exact same
  · exact joined_ne_nil above.some (pieces_ne_nil key)
  · exact solid_joined above.solid keys
  · exact closed_joined above.closed keys fun k member => closed_of_mem_pieces closed member

theorem expands_of_along {first : Text} {rest : List Text} {selector : Text}
    (closed : ∀ key ∈ first :: rest, Closed key) (reached : along (first :: rest) = .ok selector) :
    Expands first rest selector := by
  -- a scope's key is the last on the path, and the one that is combined last
  induction rest using List.reverseRecOn generalizing selector with
  | nil =>
      rw [along_singleton] at reached
      exact expands_singleton (closed first List.mem_cons_self) reached
  | append_singleton rest key ih =>
      obtain ⟨parent, above, isCombined, combined⟩ := along_concat_eq_ok reached
      have before : ∀ k ∈ first :: rest, Closed k := by
        intro k member
        apply closed k
        rw [← List.cons_append]
        exact List.mem_append_left _ member
      exact (ih before above).concat isCombined (closed key (by simp)) combined

theorem length_expansion (path : List Text) :
    (expansion path).length = (path.map fun key => (pieces key).length).prod := by
  rw [expansion, List.length_map, length_selections, List.map_map]
  rfl

theorem Expands.attachAll_eq {first : Text} {rest : List Text} {selector : Text}
    (h : Expands first rest selector) {choice : List Text}
    (chosen : choice ∈ selections ((first :: rest).map Selector.pieces)) :
    attachAll choice = .ok (chain choice) := by
  obtain ⟨c, _, others, later, rfl⟩ := mem_selections_cons.mp chosen
  apply attachAll_eq_chain
  intro k member
  obtain ⟨alternatives, source, own⟩ := exists_mem_of_selections later k member
  rcases List.mem_map.mp source with ⟨key, there, rfl⟩
  exact h.below key there k own

/-- A selector has one alternative for each choice of one from every key on the way to it. -/
theorem forall₂_attachAll_of_along {first : Text} {rest : List Text} {selector : Text}
    (closed : ∀ key ∈ first :: rest, Closed key) (reached : along (first :: rest) = .ok selector) :
    (∀ key ∈ first :: rest, ∀ parent, alternatives parent key = .ok (pieces key)) ∧
    (∀ parent, alternatives parent selector = .ok (pieces selector)) ∧
    List.Forall₂ (fun choice piece => attachAll choice = .ok piece)
      (selections ((first :: rest).map pieces)) (pieces selector) ∧
    (pieces selector).length = ((first :: rest).map fun key => (pieces key).length).prod ∧
    Closed selector := by
  have h := expands_of_along closed reached
  refine ⟨?_, ?_, ?_, ?_, ?_⟩
  · intro key member
    apply alternatives_of_solid
    rcases List.mem_cons.mp member with rfl | member
    · exact fun k own => (h.top k own).toSolid
    · exact fun k own => (h.below key member k own).toSolid
  · apply alternatives_of_solid
    rw [h.pieces]
    exact h.solid
  · rw [h.pieces, expansion, List.forall₂_map_right_iff, List.forall₂_same]
    intro choice chosen
    exact h.attachAll_eq chosen
  · rw [h.pieces, length_expansion]
  · rw [h.selector]
    exact closed_list h.closed

/-- The stray bracket of the first key and the comma inside the second split nothing. -/
def headingPath : List Text := ["h1), h2".toList, "> :is(a, b), &:hover".toList, "i".toList]

def headingSelector : Text := "h1) > :is(a, b) i, h1):hover i, h2 > :is(a, b) i, h2:hover i".toList

theorem forall₂_attachAll_of_headings :
    (∀ key ∈ headingPath, Closed key) ∧ along headingPath = .ok headingSelector ∧
    (∀ parent, alternatives parent headingSelector = .ok (pieces headingSelector)) ∧
    List.Forall₂ (fun choice piece => attachAll choice = .ok piece)
      (selections (headingPath.map pieces)) (pieces headingSelector) ∧
    (pieces headingSelector).length = 4 ∧ Closed headingSelector := by
  have closed : ∀ key ∈ headingPath, Closed key := by decide
  have reached : along headingPath = .ok headingSelector := rfl
  obtain ⟨_, split, each, count, closedAgain⟩ := forall₂_attachAll_of_along closed reached
  exact ⟨closed, reached, split, each, count.trans rfl, closedAgain⟩

end Hypertext.Selector
