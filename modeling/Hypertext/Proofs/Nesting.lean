import Hypertext.Proofs.Flattening
import Hypertext.Proofs.Product

/-! A style nested under a key. Its rules stay in their order, and each selector is combined with
the key as a whole: what the keys inside add to one another does not depend on what is in front. -/

namespace Hypertext

namespace Selector

theorem isDependent_chain {first : Text} (rest : List Text) (h : Independent first) :
    isDependent (chain (first :: rest)) = false := by
  cases first with
  | nil => exact absurd rfl h.nonempty
  | cons c more => exact h.notDependent

theorem Expands.independent {first : Text} {rest : List Text} {selector : Text}
    (h : Expands first rest selector) : ∀ t ∈ expansion (first :: rest), Independent t := by
  intro t member
  refine ⟨h.solid t member, ?_⟩
  rcases List.mem_map.mp member with ⟨choice, chosen, rfl⟩
  obtain ⟨c, own, others, _, rfl⟩ := mem_selections_cons.mp chosen
  exact isDependent_chain others (h.top c own)

theorem chain_cons (k : Text) {first : Text} (rest : List Text) (h : Independent first) :
    chain (k :: first :: rest) = k ++ suffix (chain (first :: rest)) := by
  rw [suffix_of_independent (isDependent_chain rest h), chain, chain, List.flatMap_cons,
    suffix_of_independent h.notDependent]
  rfl

theorem Expands.expansion_cons {first : Text} {rest : List Text} {selector : Text}
    (h : Expands first rest selector) (key : Text) :
    expansion (key :: first :: rest) =
      joined (Selector.pieces key) (expansion (first :: rest)) := by
  have step : ∀ k : Text, ∀ choice ∈ selections ((first :: rest).map Selector.pieces),
      chain (k :: choice) = k ++ suffix (chain choice) := by
    intro k choice chosen
    obtain ⟨c, own, others, _, rfl⟩ := mem_selections_cons.mp chosen
    exact chain_cons k others (h.top c own)
  calc
    expansion (key :: first :: rest)
      = (Selector.pieces key).flatMap fun k =>
          (selections ((first :: rest).map Selector.pieces)).map fun choice =>
            chain (k :: choice) := by
        rw [expansion, List.map_cons, selections, List.map_flatMap]
        simp [Function.comp_def]
    _ = (Selector.pieces key).flatMap fun k =>
          (selections ((first :: rest).map Selector.pieces)).map fun choice =>
            k ++ suffix (chain choice) :=
        List.flatMap_congr fun k _ => List.map_congr_left (step k)
    _ = joined (Selector.pieces key) (expansion (first :: rest)) := by
        simp [joined, choices, expansion, List.map_flatMap, Function.comp_def]

/-- The combination of selectors is associative along a path. -/
theorem combine_of_along {key first : Text} {rest : List Text} {p inner outer : Text}
    (closed : ∀ k ∈ key :: first :: rest, Closed k) (top : combine [] key = .ok p)
    (reached : along (first :: rest) = .ok inner)
    (nested : along (key :: first :: rest) = .ok outer) : combine p inner = .ok outer := by
  have isCombined : IsCombined p := isCombined_of_combine (.inl rfl) top
  have front := expands_singleton (closed key List.mem_cons_self) top
  have back := expands_of_along (fun k member => closed k (List.mem_cons_of_mem _ member)) reached
  have whole := expands_of_along closed nested
  have keys : ∀ t ∈ pieces inner, Joinable t := by
    rw [back.pieces]
    exact fun t member => (back.independent t member).joinable
  calc
    combine p inner = .ok (list (joined (pieces p) (pieces inner))) :=
        combine_joined isCombined.pieces_nonempty keys
    _ = .ok (list (joined (pieces key) (expansion (first :: rest)))) := by
      rw [front.pieces, expansion_singleton, back.pieces]
    _ = .ok outer := by rw [← back.expansion_cons key, ← whole.selector]

/-- A key that stands at the top or below some selector stands below any other. -/
theorem keyError?_below {selector outer key : Text} (given : outer ≠ [])
    (h : keyError? selector key = none) : keyError? outer key = none := by
  by_cases empty : [] ∈ pieces key
  · simp [keyError?, empty] at h
  · by_cases root : selector = []
    · have independent : ∀ k ∈ pieces key, isDependent k = false := by
        simpa [keyError?, empty, root] using h
      simpa [keyError?, empty, given] using
        fun k member => isLone_of_independent (independent k member)
    · simpa [keyError?, empty, root, given] using h

theorem combine_below {selector outer key child : Text} (hs : selector = [] ∨ IsCombined selector)
    (ho : IsCombined outer) (h : combine selector key = .ok child) :
    ∃ other, combine outer key = .ok other ∧ IsCombined other := by
  have spec := combine_spec hs key
  cases fine : keyError? selector key with
  | some e =>
      rw [fine] at spec
      cases spec.symm.trans h
  | none =>
      have other := combine_spec (.inr ho) key
      rwa [keyError?_below ho.ne_nil fine] at other

end Selector

theorem Property.ofEntry_congr {selector outer key : Text} {value : Scalar} {p : Property}
    (h : ofEntry selector key value = .ok p) : ofEntry outer key value = .ok p := by
  rw [ofEntry_within] at h ⊢
  cases alone : ofEntry [] key value with
  | error e =>
      rw [alone] at h
      cases h
  | ok q => rwa [alone] at h

namespace Sheet

variable {selector outer : Text}

theorem properties_below (given : outer ≠ []) {nested : Bool} {s : Style} {ps : List Property}
    (h : properties selector nested s = .ok ps) : properties outer nested s = .ok ps := by
  induction s generalizing nested ps with
  | nil => exact h
  | scope key inner rest _ ih => exact ih h
  | property key value rest ih =>
      simp only [properties] at h ⊢
      split_ifs at h with late root
      obtain ⟨p, here, h⟩ := Except.bind_eq_ok_iff.mp h
      obtain ⟨others, later, h⟩ := Except.bind_eq_ok_iff.mp h
      rw [if_neg late, if_neg (by simpa using given), Property.ofEntry_congr here]
      apply Except.bind_eq_ok_iff.mpr
      exact ⟨p, rfl, Except.bind_eq_ok_iff.mpr ⟨others, ih later, h⟩⟩

theorem nestedRules_scope {depth : Nat} {key child : Text} {inner rest : Style}
    {own : List Property} {below others : List Rule}
    (joined : Selector.combine selector key = .ok child)
    (ownBuilt : properties child false inner = .ok own)
    (belowBuilt : nestedRules child (depthWithin selector depth) inner = .ok below)
    (othersBuilt : nestedRules selector depth rest = .ok others) :
    nestedRules selector depth (.scope key inner rest) =
      .ok (ownRule child (depthWithin selector depth) own ++ below ++ others) := by
  simp only [nestedRules, bind, Except.bind, joined, ownBuilt, belowBuilt, othersBuilt]

theorem nestedRules_below (hs : selector = [] ∨ Selector.IsCombined selector)
    (ho : Selector.IsCombined outer) {depth : Nat} {s : Style} {rules : List Rule}
    (h : nestedRules selector depth s = .ok rules) (other : Nat) :
    ∃ moved, nestedRules outer other s = .ok moved := by
  induction s generalizing selector outer depth other rules with
  | nil => exact ⟨[], rfl⟩
  | property key value rest ih => exact ih hs ho h other
  | scope key inner rest ihInner ihRest =>
      obtain ⟨child, joined, h⟩ := Except.bind_eq_ok_iff.mp h
      obtain ⟨own, ownBuilt, h⟩ := Except.bind_eq_ok_iff.mp h
      obtain ⟨below, belowBuilt, h⟩ := Except.bind_eq_ok_iff.mp h
      obtain ⟨others, othersBuilt, h⟩ := Except.bind_eq_ok_iff.mp h
      obtain ⟨moved, movedJoined, isCombined⟩ := Selector.combine_below hs ho joined
      have childCombined := Selector.isCombined_of_combine hs joined
      obtain ⟨inside, insideBuilt⟩ :=
        ihInner (.inr childCombined) isCombined belowBuilt (depthWithin outer other)
      obtain ⟨after, afterBuilt⟩ := ihRest hs ho othersBuilt other
      have movedOwn := properties_below isCombined.ne_nil ownBuilt
      exact ⟨_, nestedRules_scope movedJoined movedOwn insideBuilt afterBuilt⟩

end Sheet

/-- What a rule becomes when all of its style is nested in a scope. -/
structure Rule.Nested (selector : Text) (r nested : Rule) : Prop where
  selector : Selector.combine selector r.selector = .ok nested.selector
  properties : nested.properties = r.properties
  depth : nested.depth = r.depth + 1

theorem Rule.nested_of_describes {r outer : Rule} {key selector : Text} {scope : List Text × Style}
    (closed : ∀ k ∈ key :: scope.1, Selector.Closed k)
    (top : Selector.combine [] key = .ok selector) (inside : r.Describes scope)
    (below : outer.Describes (key :: scope.1, scope.2)) : r.Nested selector outer := by
  obtain ⟨path, inner⟩ := scope
  constructor
  · cases path with
    | nil => exact absurd (Except.ok.inj inside.selector).symm inside.nonempty
    | cons first rest => exact Selector.combine_of_along closed top inside.selector below.selector
  · apply (List.map_inj_right fun _ _ => Option.some.inj).mp
    exact below.properties.trans inside.properties.symm
  · have longer := below.depth
    have length := inside.depth
    simp only [List.length_cons] at longer length
    omega

namespace Sheet

theorem scopes_below (key : Text) (s : Style) :
    (s.scopes [key]).filter hasScalars =
      ((s.scopes []).filter hasScalars).map fun scope => (key :: scope.1, scope.2) := by
  have moved := s.scopes_append [key] []
  rw [List.append_nil] at moved
  rw [moved, List.filter_map]
  rfl

/-- A style nested under a key has the rules of the style, each one level deeper and with the
selector of the key in front of its own. -/
theorem ofStyle_insert_scope {s : Style} {sheet : Sheet} {key selector : Text}
    (compiled : ofStyle s = .ok sheet) (top : Selector.combine [] key = .ok selector)
    (keyClosed : Selector.Closed key)
    (closed : ∀ scope ∈ s.scopes [], ∀ k ∈ scope.1, Selector.Closed k) :
    ∃ nested, ofStyle (Style.nil.insert key (.scope s)) = .ok nested ∧
      List.Forall₂ (Rule.Nested selector) sheet.rules nested.rules := by
  obtain ⟨none, built⟩ := ofStyle_eq_ok_iff.mp compiled
  have isCombined : Selector.IsCombined selector := Selector.isCombined_of_combine (.inl rfl) top
  -- that the rules exist is shown scope by scope; what they are follows from their paths alone
  obtain ⟨rules, moved⟩ := nestedRules_below (.inl rfl) isCombined built 0
  refine ⟨⟨rules⟩, ofStyle_eq_ok_iff.mpr ⟨rfl, ?_⟩, ?_⟩
  · have noOwn := properties_below isCombined.ne_nil none
    change nestedRules [] 0 (.scope key s .nil) = .ok rules
    rw [nestedRules_scope top noOwn moved rfl]
    simp [ownRule]
  · have reached : Selector.along [key] = .ok selector := by rw [Selector.along_singleton, top]
    have level : depthWithin selector 0 = [key].length := by
      simp [depthWithin, isCombined.ne_nil]
    have inside : List.Forall₂ Rule.Describes sheet.rules ((s.scopes []).filter hasScalars) :=
      nestedRules_describe rfl rfl built
    have below := nestedRules_describe reached level moved
    rw [scopes_below, List.forall₂_map_right_iff] at below
    apply List.forall₂_of_common inside below
    intro r outer scope member describes describesOuter
    refine Rule.nested_of_describes ?_ top describes describesOuter
    have within := closed scope (List.mem_of_mem_filter member)
    exact List.forall_mem_cons.mpr ⟨keyClosed, within⟩

/-- The headings nested in a scope, each alternative of the key in front of each of theirs. -/
def navHeadings : Sheet where
  rules :=
    [⟨"nav h1, nav h2, .y h1, .y h2".toList, [⟨"color".toList, "red".toList⟩], 1⟩,
      ⟨"nav h1:hover > a, nav h2:hover > a, .y h1:hover > a, .y h2:hover > a".toList,
        [⟨"width".toList, "5px".toList⟩], 3⟩]

theorem ofStyle_insert_scope_headings :
    ofStyle Style.headings = .ok headings ∧
      Selector.combine [] "nav,.y".toList = .ok "nav, .y".toList ∧
      Selector.Closed "nav,.y".toList ∧
      (∀ scope ∈ Style.headings.scopes [], ∀ k ∈ scope.1, Selector.Closed k) ∧
      ofStyle (Style.nil.insert "nav,.y".toList (.scope Style.headings)) = .ok navHeadings ∧
      List.Forall₂ (Rule.Nested "nav, .y".toList) headings.rules navHeadings.rules := by
  have compiled : ofStyle Style.headings = .ok headings := by decide +kernel
  have top : Selector.combine [] "nav,.y".toList = .ok "nav, .y".toList := rfl
  have closed : ∀ scope ∈ Style.headings.scopes [], ∀ k ∈ scope.1, Selector.Closed k := by decide
  have compiledInside :
      ofStyle (Style.nil.insert "nav,.y".toList (.scope Style.headings)) = .ok navHeadings := by
    decide +kernel
  obtain ⟨nested, built, each⟩ := ofStyle_insert_scope compiled top rfl closed
  obtain rfl := Except.ok.inj (built.symm.trans compiledInside)
  exact ⟨compiled, top, rfl, closed, compiledInside, each⟩

end Sheet

end Hypertext
