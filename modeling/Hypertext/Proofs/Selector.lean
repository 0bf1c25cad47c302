import Hypertext.Proofs.Outcome
import Hypertext.Proofs.Stretches

/-! Combining selectors. A combined selector is written as a list and split again one level further
down. Each of its alternatives is whole, so the split can only miss commas between alternatives, and
never meets an empty one. -/

namespace Hypertext.Selector

/-- The alternatives of a list as they stand, empty ones included. -/
def pieces (list : Text) : List Text := (stretches 0 list).map Text.trim

theorem pieces_ne_nil (list : Text) : pieces list ≠ [] := by
  obtain ⟨first, others, split, _⟩ := exists_stretches 0 list
  simp [pieces, split]

theorem ne_nil_of_pieces {list : Text} (h : [] ∉ pieces list) : list ≠ [] := by
  rintro rfl
  exact h List.mem_cons_self

theorem alternatives_eq (parent list : Text) :
    alternatives parent list =
      if [] ∈ pieces list then .error (.blankSelector parent) else .ok (pieces list) := by
  have empty : ((pieces list).any List.isEmpty = true) ↔ [] ∈ pieces list := by
    simp [List.any_eq_true]
  change (if (pieces list).any List.isEmpty then _ else _) = _
  simp only [empty]
  rfl

/-- An alternative that can stand alone or in a list. -/
structure Solid (t : Text) : Prop where
  whole : Whole t
  trimmed : t.Trimmed
  nonempty : t ≠ []

theorem solid_of_mem_pieces {list t : Text} (h : t ∈ pieces list) (nonempty : t ≠ []) :
    Solid t := by
  rcases List.mem_map.mp h with ⟨u, stretch, rfl⟩
  exact ⟨(whole_of_mem_stretches stretch).trim, Text.trimmed_trim u, nonempty⟩

theorem alternatives_of_solid {list : Text} (solid : ∀ t ∈ pieces list, Solid t) (parent : Text) :
    alternatives parent list = .ok (pieces list) := by
  rw [alternatives_eq, if_neg fun empty => (solid [] empty).nonempty rfl]

theorem Solid.append {p t : Text} (hp : Solid p) (whole : Whole t) (nonempty : t ≠ [])
    (last : ∀ c ∈ t.getLast?, Text.isBlank c = false) : Solid (p ++ t) := by
  refine ⟨hp.whole.append whole, ⟨?_, ?_⟩, ?_⟩
  · intro c first
    rw [List.head?_append_of_ne_nil _ hp.nonempty] at first
    exact hp.trimmed.first c first
  · intro c ends
    rw [List.getLast?_append_of_ne_nil _ nonempty] at ends
    exact last c ends
  · intro empty
    exact nonempty (List.append_eq_nil_iff.mp empty).2

def isLone (key : Text) : Bool := combinators.any (key == [·])

/-- An alternative that can be put under any parent. -/
structure Joinable (t : Text) : Prop extends Solid t where
  notLone : isLone t = false

/-- An alternative that needs no parent. -/
structure Independent (t : Text) : Prop extends Solid t where
  notDependent : isDependent t = false

theorem isLone_of_independent {key : Text} (h : isDependent key = false) : isLone key = false := by
  cases key with
  | nil => rfl
  | cons c rest =>
      simp only [isDependent, Bool.or_eq_false_iff] at h
      simp only [isLone, List.any_eq_false, beq_iff_eq]
      rintro d combinator same
      obtain ⟨rfl, rfl⟩ := List.cons.inj same
      simp [combinator] at h

theorem Independent.joinable {key : Text} (h : Independent key) : Joinable key :=
  ⟨h.toSolid, isLone_of_independent h.notDependent⟩

theorem isPlain_of_mem_combinators {c : Char} (h : c ∈ combinators) : isPlain c := by
  simp only [combinators, List.mem_cons, List.not_mem_nil, or_false] at h
  rcases h with rfl | rfl | rfl <;> rfl

theorem attach_lone {key : Text} (lone : isLone key) (parent : Text) :
    attach parent key = .error (.blankSelector parent) := by
  simp only [isLone, combinators, List.any_cons, List.any_nil, Bool.or_false, Bool.or_eq_true,
    beq_iff_eq] at lone
  rcases lone with rfl | rfl | rfl <;> rfl

theorem last_of_cons {c : Char} {rest : Text} (h : Text.Trimmed (c :: rest)) :
    ∀ d ∈ rest.getLast?, Text.isBlank d = false := by
  intro d ends
  apply h.last d
  rw [List.getLast?_cons, show rest.getLast? = some d from ends]
  rfl

/-- What a key adds to the end of its parent. -/
def suffix : Text → Text
  | [] => [' ']
  | c :: rest =>
      if c = '&' then rest
      else if combinators.contains c then ' ' :: c :: ' ' :: Text.trimStart rest
      else ' ' :: c :: rest

theorem suffix_of_independent {key : Text} (h : isDependent key = false) :
    suffix key = ' ' :: key := by
  cases key with
  | nil => rfl
  | cons c rest =>
      simp only [isDependent, Bool.or_eq_false_iff, beq_eq_false_iff_ne] at h
      rw [suffix, if_neg h.1, h.2, if_neg Bool.false_ne_true]

theorem attach_of_independent {key : Text} (h : isDependent key = false) (parent : Text) :
    attach parent key = .ok (parent ++ ' ' :: key) := by
  cases key with
  | nil => rfl
  | cons c rest =>
      simp only [isDependent, Bool.or_eq_false_iff, beq_eq_false_iff_ne] at h
      rw [attach, if_neg h.1, h.2, if_neg Bool.false_ne_true]

theorem suffix_cases {key : Text} (hk : Joinable key) :
    (∃ rest, key = '&' :: rest ∧ suffix key = rest) ∨
      (∃ c rest, c ∈ combinators ∧ c ≠ '&' ∧ key = c :: rest ∧ Text.trimStart rest ≠ [] ∧
        suffix key = ' ' :: c :: ' ' :: Text.trimStart rest) ∨
      isDependent key = false ∧ suffix key = ' ' :: key := by
  cases key with
  | nil => exact absurd rfl hk.nonempty
  | cons c rest =>
      by_cases modifier : c = '&'
      · subst modifier
        exact .inl ⟨rest, rfl, rfl⟩
      by_cases combinator : c ∈ combinators
      · have target : rest ≠ [] := by
          rintro rfl
          have joins := hk.notLone
          simp [isLone] at joins
          exact joins c combinator rfl
        have nonempty := Text.trimStart_ne_nil target (last_of_cons hk.trimmed)
        refine .inr (.inl ⟨c, rest, combinator, modifier, rfl, nonempty, ?_⟩)
        simp [suffix, modifier, combinator]
      · have independent : isDependent (c :: rest) = false := by
          simp [isDependent, modifier, combinator]
        exact .inr (.inr ⟨independent, suffix_of_independent independent⟩)

theorem attach_eq_append {key : Text} (hk : Joinable key) (parent : Text) :
    attach parent key = .ok (parent ++ suffix key) := by
  rcases suffix_cases hk with
    ⟨rest, rfl, added⟩ | ⟨c, rest, combinator, modifier, rfl, target, added⟩ |
    ⟨independent, added⟩
  · rw [added]
    rfl
  · simp [attach, added, modifier, combinator, target]
  · rw [added, attach_of_independent independent]

theorem solid_append_suffix {parent key : Text} (hp : Solid parent) (hk : Joinable key) :
    Solid (parent ++ suffix key) := by
  rcases suffix_cases hk with
    ⟨rest, rfl, added⟩ | ⟨c, rest, combinator, _, rfl, target, added⟩ | ⟨_, added⟩
  · rw [added]
    by_cases empty : rest = []
    · simpa [empty] using hp
    · exact hp.append (hk.whole.tail rfl) empty (last_of_cons hk.trimmed)
  · rw [added]
    have plain := isPlain_of_mem_combinators combinator
    apply hp.append (.cons rfl (.cons plain (.cons rfl (hk.whole.tail plain).trimStart)))
      (List.cons_ne_nil _ _)
    intro d ends
    apply last_of_cons hk.trimmed d
    rw [← Text.getLast?_trimStart target]
    simpa [List.getLast?_cons, List.getLast?_eq_getLast_of_ne_nil target] using ends
  · rw [added]
    apply hp.append (.cons rfl hk.whole) (List.cons_ne_nil _ _)
    intro d ends
    apply hk.trimmed.last d
    rw [← List.getLast?_append_of_ne_nil [' '] hk.nonempty]
    exact ends

theorem list_cons {p q : Text} {rest : List Text} :
    list (p :: q :: rest) = p ++ ',' :: ' ' :: list (q :: rest) := by
  simp [list]

/-- Some of its characters are not blank. -/
def Inked (t : Text) : Prop := ∃ c ∈ t, Text.isBlank c = false

theorem inked_iff {t : Text} : Inked t ↔ Text.trim t ≠ [] := by
  rw [ne_eq, Text.trim_eq_nil_iff]
  simp [Inked]

theorem Solid.inked {t : Text} (h : Solid t) : Inked t := by
  rw [inked_iff, Text.trim_eq_self h.trimmed]
  exact h.nonempty

theorem Inked.append_left {u : Text} (h : Inked u) (v : Text) : Inked (u ++ v) := by
  obtain ⟨c, member, ink⟩ := h
  exact ⟨c, List.mem_append_left v member, ink⟩

theorem Inked.append_right {v : Text} (u : Text) (h : Inked v) : Inked (u ++ v) := by
  obtain ⟨c, member, ink⟩ := h
  exact ⟨c, List.mem_append_right u member, ink⟩

theorem inked_of_modifyHead {f : Text → Text} {ts : List Text} (head : ∀ t, Inked t → Inked (f t))
    (h : ∀ t ∈ ts, Inked t) : ∀ u ∈ ts.modifyHead f, Inked u := by
  cases ts with
  | nil => exact h
  | cons t rest =>
      intro u member
      rcases List.mem_cons.mp member with rfl | member
      · exact head t (h t List.mem_cons_self)
      · exact h u (List.mem_cons_of_mem _ member)

theorem inked_stretches_list {parts : List Text} (some : parts ≠ [])
    (solid : ∀ t ∈ parts, Solid t) (d : Nat) : ∀ u ∈ stretches d (list parts), Inked u := by
  induction parts generalizing d with
  | nil => exact absurd rfl some
  | cons p rest ih =>
      have first := solid p List.mem_cons_self
      cases rest with
      | nil =>
          have single : list [p] = p := List.intercalate_singleton
          rw [single, first.whole d]
          intro u member
          rw [List.mem_singleton.mp member]
          exact first.inked
      | cons q more =>
          have later := ih (List.cons_ne_nil q more)
            (fun t member => solid t (List.mem_cons_of_mem _ member)) (endDepth d p)
          rw [list_cons, stretches_append_left (first.whole d)]
          by_cases split : endDepth d p = 0
          · rw [split] at later ⊢
            rw [stretches_comma, List.modifyHead_cons, List.append_nil]
            intro u member
            rcases List.mem_cons.mp member with rfl | member
            · exact first.inked
            · exact inked_of_modifyHead (fun t ink => ink.append_right [' ']) later u member
          · rw [stretches_comma_inside split, List.modifyHead_modifyHead]
            exact inked_of_modifyHead (fun t _ => first.inked.append_left _) later

/-- The selector of a scope below the root. -/
def IsCombined (selector : Text) : Prop :=
  ∃ parts, parts ≠ [] ∧ (∀ t ∈ parts, Solid t) ∧ selector = list parts

theorem IsCombined.ne_nil {selector : Text} (h : IsCombined selector) : selector ≠ [] := by
  obtain ⟨parts, some, solid, rfl⟩ := h
  cases parts with
  | nil => exact absurd rfl some
  | cons p rest =>
      have first := (solid p List.mem_cons_self).nonempty
      cases rest with
      | nil => simpa [list] using first
      | cons q more => simp [list_cons]

theorem IsCombined.first {selector : Text} (h : IsCombined selector) :
    ∀ c ∈ selector.head?, Text.isBlank c = false := by
  obtain ⟨parts, some, solid, rfl⟩ := h
  cases parts with
  | nil => exact absurd rfl some
  | cons p rest =>
      have start := solid p List.mem_cons_self
      cases rest with
      | nil => simpa [list] using start.trimmed.first
      | cons q more =>
          rw [list_cons, List.head?_append_of_ne_nil _ start.nonempty]
          exact start.trimmed.first

theorem IsCombined.last {selector : Text} (h : IsCombined selector) :
    ∀ c ∈ selector.getLast?, Text.isBlank c = false := by
  obtain ⟨parts, some, solid, rfl⟩ := h
  induction parts with
  | nil => exact absurd rfl some
  | cons p rest ih =>
      cases rest with
      | nil => simpa [list] using (solid p List.mem_cons_self).trimmed.last
      | cons q more =>
          have others : ∀ t ∈ q :: more, Solid t :=
            fun t member => solid t (List.mem_cons_of_mem _ member)
          have below : IsCombined (list (q :: more)) := ⟨_, List.cons_ne_nil _ _, others, rfl⟩
          have ends : (list (p :: q :: more)).getLast? = (list (q :: more)).getLast? := by
            rw [list_cons, List.append_cons, List.append_cons,
              List.getLast?_append_of_ne_nil _ below.ne_nil]
          rw [ends]
          exact ih (List.cons_ne_nil _ _) others

theorem IsCombined.trimmed {selector : Text} (h : IsCombined selector) : selector.Trimmed :=
  ⟨h.first, h.last⟩

theorem IsCombined.pieces_nonempty {selector : Text} (h : IsCombined selector) :
    [] ∉ pieces selector := by
  obtain ⟨parts, some, solid, rfl⟩ := h
  intro empty
  rcases List.mem_map.mp empty with ⟨u, stretch, blank⟩
  exact inked_iff.mp (inked_stretches_list some solid 0 u stretch) blank

/-- What is wrong with a key under a parent, which is empty for a key at the top level. -/
def keyError? (parent key : Text) : Option StyleError :=
  if [] ∈ pieces key then some (.blankSelector parent)
  else if parent = [] then ((pieces key).find? isDependent).map .orphanKey
  else if (pieces key).any isLone then some (.blankSelector ((pieces parent).headD []))
  else none

theorem solid_pieces {key : Text} (nonempty : [] ∉ pieces key) : ∀ t ∈ pieces key, Solid t := by
  intro t member
  apply solid_of_mem_pieces member
  rintro rfl
  exact nonempty member

/-- The alternatives of the parent with those of the key, the parent's varying slowest. -/
def choices (parents keys : List Text) : List (Text × Text) :=
  parents.flatMap fun p => keys.map (p, ·)

theorem combine_eq (parent key : Text) (parents : [] ∉ pieces parent)
    (keys : [] ∉ pieces key) :
    combine parent key =
      ((choices (pieces parent) (pieces key)).mapM fun pair => attach pair.1 pair.2).map list := by
  have notEmpty : parent.isEmpty = false := by simpa using ne_nil_of_pieces parents
  simp only [combine, alternatives_eq, keys, parents, notEmpty, if_false]
  change (_ >>= fun combined => Except.ok (list combined)) = _
  cases h : (choices (pieces parent) (pieces key)).mapM fun pair => attach pair.1 pair.2 with
  | error e =>
      rw [choices] at h
      rw [h]
      rfl
  | ok combined =>
      rw [choices] at h
      rw [h]
      rfl

/-- The first alternative of a parent is blamed for a lone combinator. -/
theorem mapM_attach_lone {p : Text} {keys : List Text} (solid : ∀ k ∈ keys, Solid k)
    (lone : keys.any isLone) (more : List (Text × Text)) :
    (keys.map (p, ·) ++ more).mapM (fun pair => attach pair.1 pair.2) =
      .error (.blankSelector p) := by
  induction keys with
  | nil => cases lone
  | cons k rest ih =>
      rw [List.map_cons, List.cons_append, List.mapM_cons]
      cases here : isLone k with
      | true =>
          rw [attach_lone here]
          rfl
      | false =>
          rw [attach_eq_append ⟨solid k List.mem_cons_self, here⟩,
            ih (fun k member => solid k (List.mem_cons_of_mem _ member))
              (by simpa [here] using lone)]
          rfl

theorem mapM_attach {pairs : List (Text × Text)}
    (h : ∀ pair ∈ pairs, Joinable pair.2) :
    pairs.mapM (fun pair => attach pair.1 pair.2) =
      .ok (pairs.map fun pair => pair.1 ++ suffix pair.2) := by
  induction pairs with
  | nil => rfl
  | cons pair rest ih =>
      rw [List.mapM_cons, attach_eq_append (h pair List.mem_cons_self),
        ih fun pair member => h pair (List.mem_cons_of_mem _ member)]
      rfl

theorem combine_root (key : Text) :
    combine [] key = (keyError? [] key).elim (.ok (list (pieces key))) .error := by
  by_cases empty : [] ∈ pieces key
  · simp [combine, alternatives_eq, keyError?, empty]
    rfl
  · have keys : alternatives [] key = .ok (pieces key) := by
      rw [alternatives_eq, if_neg empty]
    have error : keyError? [] key = ((pieces key).find? isDependent).map .orphanKey := by
      rw [keyError?, if_neg empty, if_pos rfl]
    rw [error, combine, keys]
    cases orphan : (pieces key).find? isDependent with
    | none =>
        simp only [bind, Except.bind, List.isEmpty_nil, if_true, orphan]
        rfl
    | some k =>
        simp only [bind, Except.bind, List.isEmpty_nil, if_true, orphan]
        rfl

theorem combine_lone {parent key : Text} (parents : [] ∉ pieces parent) (keys : [] ∉ pieces key)
    (lone : (pieces key).any isLone = true) :
    combine parent key = .error (.blankSelector ((pieces parent).headD [])) := by
  rcases List.exists_cons_of_ne_nil (pieces_ne_nil parent) with ⟨p, others, split⟩
  rw [combine_eq parent key parents keys, split, choices, List.flatMap_cons,
    mapM_attach_lone (solid_pieces keys) lone]
  rfl

def joined (parents keys : List Text) : List Text :=
  (choices parents keys).map fun pair => pair.1 ++ suffix pair.2

theorem mem_choices {parents keys : List Text} {pair : Text × Text} :
    pair ∈ choices parents keys ↔ pair.1 ∈ parents ∧ pair.2 ∈ keys := by
  obtain ⟨p, k⟩ := pair
  simp [choices]

theorem joined_ne_nil {parents keys : List Text} (hp : parents ≠ []) (hk : keys ≠ []) :
    joined parents keys ≠ [] := by
  rcases List.exists_cons_of_ne_nil hp with ⟨p, others, rfl⟩
  rcases List.exists_cons_of_ne_nil hk with ⟨k, rest, rfl⟩
  simp [joined, choices]

theorem solid_joined {parents keys : List Text} (hp : ∀ p ∈ parents, Solid p)
    (hk : ∀ k ∈ keys, Joinable k) : ∀ t ∈ joined parents keys, Solid t := by
  intro t member
  rcases List.mem_map.mp member with ⟨pair, chosen, rfl⟩
  obtain ⟨parent, key⟩ := mem_choices.mp chosen
  exact solid_append_suffix (hp _ parent) (hk _ key)

theorem combine_joined {parent key : Text} (parents : [] ∉ pieces parent)
    (keys : ∀ k ∈ pieces key, Joinable k) :
    combine parent key = .ok (list (joined (pieces parent) (pieces key))) := by
  have nonempty : [] ∉ pieces key := fun empty => (keys [] empty).nonempty rfl
  rw [combine_eq parent key parents nonempty, mapM_attach]
  · rfl
  · intro pair member
    exact keys pair.2 (mem_choices.mp member).2

theorem joinable_of_keyError? {parent key : Text} (given : parent ≠ [])
    (fine : keyError? parent key = none) : ∀ k ∈ pieces key, Joinable k := by
  by_cases empty : [] ∈ pieces key
  · simp [keyError?, empty] at fine
  · have joins : ∀ k ∈ pieces key, isLone k = false := by
      simpa [keyError?, empty, given] using fine
    exact fun k member => ⟨solid_pieces empty k member, joins k member⟩

/-- Below the top level, whatever list the parent is written as. -/
theorem combine_inner {parent : Text} (parents : [] ∉ pieces parent) (key : Text) :
    combine parent key =
      (keyError? parent key).elim (.ok (list (joined (pieces parent) (pieces key)))) .error := by
  have given := ne_nil_of_pieces parents
  cases fine : keyError? parent key with
  | none => exact combine_joined parents (joinable_of_keyError? given fine)
  | some e =>
      by_cases empty : [] ∈ pieces key
      · rw [keyError?, if_pos empty, Option.some.injEq] at fine
        simp [combine, alternatives_eq, empty, ← fine]
        rfl
      · rw [keyError?, if_neg empty, if_neg given] at fine
        split at fine
        · next lone =>
          cases fine
          exact combine_lone parents empty lone
        · cases fine

/-- A key is refused for what is wrong with it, and otherwise combines with its parent. -/
theorem combine_spec {parent : Text} (h : parent = [] ∨ IsCombined parent) (key : Text) :
    match keyError? parent key with
    | some e => combine parent key = .error e
    | none => ∃ s, combine parent key = .ok s ∧ IsCombined s := by
  rcases h with rfl | h
  · rw [combine_root]
    split
    · next e refused => rw [refused, Option.elim_some]
    · next fine =>
      rw [fine, Option.elim_none]
      refine ⟨_, rfl, pieces key, pieces_ne_nil key, solid_pieces ?_, rfl⟩
      intro empty
      simp [keyError?, empty] at fine
  · have parents := h.pieces_nonempty
    rw [combine_inner parents]
    split
    · next e refused => rw [refused, Option.elim_some]
    · next fine =>
      rw [fine, Option.elim_none]
      exact ⟨_, rfl, _, joined_ne_nil (pieces_ne_nil parent) (pieces_ne_nil key),
        solid_joined (solid_pieces parents) (joinable_of_keyError? h.ne_nil fine), rfl⟩

theorem isCombined_of_combine {parent key s : Text} (h : parent = [] ∨ IsCombined parent)
    (combined : combine parent key = .ok s) : IsCombined s := by
  have spec := combine_spec h key
  split at spec
  · rw [spec] at combined
    cases combined
  · obtain ⟨t, same, isCombined⟩ := spec
    rw [combined] at same
    cases same
    exact isCombined

theorem combine_root_eq_ok {key selector : Text} (h : combine [] key = .ok selector) :
    (∀ k ∈ pieces key, Independent k) ∧ selector = list (pieces key) := by
  rw [combine_root] at h
  cases fine : keyError? [] key with
  | some e => simp [fine] at h
  | none =>
      rw [fine, Option.elim_none] at h
      by_cases empty : [] ∈ pieces key
      · simp [keyError?, empty] at fine
      · simp only [keyError?, empty, if_false, if_true, Option.map_eq_none_iff,
          List.find?_eq_none, Bool.not_eq_true] at fine
        refine ⟨?_, (Except.ok.inj h).symm⟩
        intro k member
        exact ⟨solid_pieces empty k member, fine k member⟩

theorem combine_eq_ok {parent key selector : Text} (parents : [] ∉ pieces parent)
    (h : combine parent key = .ok selector) :
    (∀ k ∈ pieces key, Joinable k) ∧
      selector = list (joined (pieces parent) (pieces key)) := by
  rw [combine_inner parents] at h
  cases fine : keyError? parent key with
  | some e =>
      rw [fine] at h
      cases h
  | none =>
      rw [fine, Option.elim_none] at h
      exact ⟨joinable_of_keyError? (ne_nil_of_pieces parents) fine, (Except.ok.inj h).symm⟩

def along (path : List Text) : Except StyleError Text := path.foldlM combine []

theorem along_concat (path : List Text) (key : Text) :
    along (path ++ [key]) = along path >>= fun parent => combine parent key := by
  rw [along, List.foldlM_append, ← along]
  congr 1
  funext parent
  rw [List.foldlM_cons]
  cases combine parent key <;> rfl

/-- Only the root has the empty selector. -/
theorem root_or_isCombined {path : List Text} {selector : Text} (h : along path = .ok selector) :
    path = [] ∧ selector = [] ∨ path ≠ [] ∧ IsCombined selector := by
  induction path using List.reverseRecOn generalizing selector with
  | nil => exact .inl ⟨rfl, (Except.ok.inj h).symm⟩
  | append_singleton path key ih =>
      rw [along_concat] at h
      obtain ⟨parent, reached, combined⟩ := Except.bind_eq_ok_iff.mp h
      have above : parent = [] ∨ IsCombined parent := (ih reached).imp And.right And.right
      exact .inr ⟨by simp, isCombined_of_combine above combined⟩

theorem eq_nil_or_isCombined {path : List Text} {selector : Text} (h : along path = .ok selector) :
    selector = [] ∨ IsCombined selector :=
  (root_or_isCombined h).imp And.right And.right

theorem along_singleton (key : Text) : along [key] = combine [] key := by
  rw [along, List.foldlM_cons]
  cases combine [] key <;> rfl

theorem along_concat_eq_ok {first : Text} {rest : List Text} {key selector : Text}
    (h : along (first :: (rest ++ [key])) = .ok selector) :
    ∃ parent, along (first :: rest) = .ok parent ∧ IsCombined parent ∧
      combine parent key = .ok selector := by
  rw [← List.cons_append, along_concat] at h
  obtain ⟨parent, above, combined⟩ := Except.bind_eq_ok_iff.mp h
  rcases root_or_isCombined above with ⟨none, _⟩ | ⟨_, isCombined⟩
  · cases none
  · exact ⟨parent, above, isCombined, combined⟩

end Hypertext.Selector
