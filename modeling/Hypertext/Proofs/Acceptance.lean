import Hypertext.Proofs.Flattening

/-! Which styles have a sheet, and what is wrong with the others. The error is that of the first
check that fails, in the order in which the scopes are read. Whether a check fails depends on the
entry and on where it stands, never on the selectors around it. -/

namespace Hypertext

namespace Property

def error? (selector key : Text) (value : Scalar) : Option StyleError :=
  if trim key = [] then some (.blankProperty selector)
  else
    match value with
    | .text t => if trim t = [] then some (.blankValue selector (trim key)) else none
    | .number x => if x.isFinite then none else some (.notFinite selector (trim key))
    | .null => some (.noValue selector (trim key))

theorem error?_ofEntry (selector key : Text) (value : Scalar) :
    (ofEntry selector key value).error? = error? selector key value := by
  by_cases blank : trim key = []
  · simp [ofEntry, error?, blank, Except.error?]
  · cases value with
    | text t => by_cases empty : trim t = [] <;> simp [ofEntry, error?, blank, empty, Except.error?]
    | number x =>
        by_cases finite : x.isFinite <;> simp [ofEntry, error?, blank, finite, Except.error?]
    | null => simp [ofEntry, error?, blank, Except.error?]

end Property

namespace Style

/-- What is checked of one entry. The path is that of the scope around it. -/
inductive Check where
  /-- A property, which is late when it follows a nested scope. -/
  | property (path : List Text) (late : Bool) (name : Text) (value : Scalar)
  | scope (path : List Text) (name : Text)

namespace Check

def path : Check → List Text
  | .property path _ _ _ => path
  | .scope path _ => path

def errorIn? (selector : Text) : Check → Option StyleError
  | .property path late name value =>
      if late then some (.propertyAfterScope selector name)
      else if path = [] then some (.propertyOutside name)
      else Property.error? selector name value
  | .scope _ name => Selector.keyError? selector name

/-- A check that no selector leads to is never made. -/
def error? (check : Check) : Option StyleError :=
  match Selector.along check.path with
  | .ok selector => check.errorIn? selector
  | .error _ => none

theorem error?_eq (check : Check) {selector : Text}
    (reached : Selector.along check.path = .ok selector) :
    check.error? = check.errorIn? selector := by
  rw [error?, reached]

end Check

def propertyChecks (path : List Text) (late : Bool) : Style → List Check
  | .nil => []
  | .property key value rest => .property path late key value :: propertyChecks path late rest
  | .scope _ _ rest => propertyChecks path true rest

def nestedChecks (path : List Text) : Style → List Check
  | .nil => []
  | .property _ _ rest => nestedChecks path rest
  | .scope key inner rest =>
      .scope path key ::
        (propertyChecks (path ++ [key]) false inner ++ nestedChecks (path ++ [key]) inner ++
          nestedChecks path rest)

/-- The checks in order: the properties of a scope, and then for each scope nested in it the key
and what is inside. -/
def checks (s : Style) : List Check := propertyChecks [] false s ++ nestedChecks [] s

end Style

theorem Selector.error?_combine {parent : Text} (h : parent = [] ∨ IsCombined parent)
    (key : Text) : (combine parent key).error? = keyError? parent key := by
  have spec := combine_spec h key
  split at spec
  · next e refused => rw [spec, refused, Except.error?]
  · next fine =>
    obtain ⟨s, combined, _⟩ := spec
    rw [combined, fine, Except.error?]

namespace Sheet

open Style

variable {path : List Text} {selector : Text}

theorem error?_properties (reached : Selector.along path = .ok selector) (late : Bool)
    (s : Style) :
    (properties selector late s).error? = (s.propertyChecks path late).findSome? Check.error? := by
  induction s generalizing late with
  | nil => rfl
  | scope key inner rest _ ih => exact ih true
  | property key value rest ih =>
      rw [propertyChecks, List.findSome?_cons_eq_or,
        Check.error?_eq (.property path late key value) reached, Check.errorIn?, properties]
      by_cases after : late = true
      · rw [if_pos after, if_pos after]
        rfl
      · rw [if_neg after, if_neg after]
        rcases Selector.root_or_isCombined reached with ⟨rfl, rfl⟩ | ⟨below, combined⟩
        · rfl
        · have given : ¬selector.isEmpty = true := by simpa using combined.ne_nil
          rw [if_neg given, if_neg below, ← Property.error?_ofEntry, ← ih]
          apply Except.error?_bind
          intro property _
          exact Except.error?_bind_ok

theorem error?_nestedRules (reached : Selector.along path = .ok selector) (depth : Nat)
    (s : Style) :
    (nestedRules selector depth s).error? = (s.nestedChecks path).findSome? Check.error? := by
  induction s generalizing path selector depth with
  | nil => rfl
  | property key value rest ih => exact ih reached depth
  | scope key inner rest ihInner ihRest =>
      have here : (Check.scope path key).error? = (Selector.combine selector key).error? := by
        rw [Check.error?_eq (.scope path key) reached, Check.errorIn?,
          Selector.error?_combine (Selector.eq_nil_or_isCombined reached)]
      rw [nestedChecks, List.findSome?_cons_eq_or, here, List.findSome?_append,
        List.findSome?_append, Option.or_assoc, nestedRules]
      apply Except.error?_bind
      intro child joined
      have childReached : Selector.along (path ++ [key]) = .ok child := by
        rw [Selector.along_concat]
        exact Except.bind_eq_ok_iff.mpr ⟨selector, reached, joined⟩
      rw [← error?_properties childReached]
      apply Except.error?_bind
      intro own _
      rw [← ihInner childReached (depthWithin selector depth)]
      apply Except.error?_bind
      intro below _
      rw [← ihRest reached depth]
      exact Except.error?_bind_ok

theorem error?_ofStyle (s : Style) : (ofStyle s).error? = s.checks.findSome? Check.error? := by
  rw [checks, List.findSome?_append, ← error?_properties rfl, ofStyle]
  apply Except.error?_bind
  intro own _
  rw [← error?_nestedRules rfl 0]
  exact Except.error?_bind_ok

end Sheet

/-- A piece of a key that can stand at the end of a path of keys: one at the top level needs no
parent, and one below has something to combine with its parent. -/
def Selector.Fits (path : List Text) (piece : Text) : Prop :=
  piece ≠ [] ∧
    if path = [] then ∀ c ∈ piece.head?, c ∉ ['&', '>', '+', '~'] else piece ∉ [['>'], ['+'], ['~']]

def Scalar.Writable : Scalar → Prop
  | .text t => Property.trim t ≠ []
  | .number x => x.isFinite = true
  | .null => False

namespace Style

def ScalarsFirst (s : Style) : Prop :=
  s.entries.Pairwise fun a b => ∀ inner, a.2 = .scope inner → ∀ value, b.2 ≠ .scalar value

/-- A nested scope that can be written, with the keys on the way to it. -/
structure ScopeAccepted (scope : List Text × Style) : Prop where
  key : ∀ path key, scope.1 = path ++ [key] →
    ∀ piece ∈ Selector.pieces key, Selector.Fits path piece
  ordered : scope.2.ScalarsFirst
  scalars : ∀ entry ∈ scope.2.scalars, Property.trim entry.1 ≠ [] ∧ entry.2.Writable

/-- The top level holds scopes only, so nothing there can be out of order. -/
structure Accepted (s : Style) : Prop where
  root : s.scalars = []
  scopes : ∀ scope ∈ s.scopes [], ScopeAccepted scope

end Style

theorem Property.error?_eq_none_iff {selector key : Text} {value : Scalar} :
    error? selector key value = none ↔ trim key ≠ [] ∧ value.Writable := by
  by_cases blank : trim key = []
  · simp [error?, blank]
  · cases value <;> simp [error?, blank, Scalar.Writable]

namespace Selector

theorem isDependent_iff {piece : Text} :
    isDependent piece = true ↔ ∃ c ∈ piece.head?, c ∈ ['&', '>', '+', '~'] := by
  cases piece with
  | nil => simp [isDependent]
  | cons c rest => simp [isDependent, combinators]

theorem isLone_iff {piece : Text} : isLone piece = true ↔ piece ∈ [['>'], ['+'], ['~']] := by
  simp [isLone, combinators]

theorem keyError?_eq_none_iff {path : List Text} {selector : Text}
    (reached : along path = .ok selector) (key : Text) :
    keyError? selector key = none ↔ ∀ piece ∈ pieces key, Fits path piece := by
  have nonempty : [] ∉ pieces key ↔ ∀ piece ∈ pieces key, piece ≠ [] := List.forall_mem_ne'.symm
  simp only [Fits, forall_and, ← nonempty]
  by_cases empty : [] ∈ pieces key
  · simp [keyError?, empty]
  · rcases root_or_isCombined reached with ⟨rfl, rfl⟩ | ⟨below, combined⟩
    · have allowed : ∀ piece : Text, isDependent piece = false ↔
          ∀ c ∈ piece.head?, c ∉ ['&', '>', '+', '~'] := by
        intro piece
        rw [← Bool.not_eq_true, isDependent_iff]
        push Not
        rfl
      simp [keyError?, empty, allowed]
    · have joins : ∀ piece : Text, isLone piece = false ↔ piece ∉ [['>'], ['+'], ['~']] := by
        intro piece
        rw [← Bool.not_eq_true, isLone_iff]
      simp [keyError?, empty, combined.ne_nil, below, joins]

theorem along_concat_of_fits {path : List Text} {selector key : Text}
    (reached : along path = .ok selector) (fits : ∀ piece ∈ pieces key, Fits path piece) :
    ∃ child, along (path ++ [key]) = .ok child := by
  have fine := (keyError?_eq_none_iff reached key).mpr fits
  have combined := error?_combine (eq_nil_or_isCombined reached) key
  rw [along_concat, reached]
  exact Except.error?_eq_none_iff.mp (combined.trans fine)

end Selector

namespace Style

theorem mem_scalars {s : Style} {key : Text} {value : Scalar} :
    (key, value) ∈ s.scalars ↔ (key, .scalar value) ∈ s.entries := by
  induction s with
  | nil => simp [scalars, entries]
  | property k v rest ih => simp [scalars, entries, ih]
  | scope k inner rest _ ih => simp [scalars, entries, ih]

theorem scalars_eq_nil_iff {s : Style} :
    s.scalars = [] ↔ ∀ entry ∈ s.entries, ∀ value, entry.2 ≠ .scalar value := by
  rw [List.eq_nil_iff_forall_not_mem]
  constructor
  · rintro none ⟨key, _⟩ member value rfl
    exact none (key, value) (mem_scalars.mpr member)
  · rintro none ⟨key, value⟩ member
    exact none _ (mem_scalars.mp member) value rfl

theorem scalarsFirst_nil : ScalarsFirst .nil := List.Pairwise.nil

theorem scalarsFirst_property {key : Text} {value : Scalar} {rest : Style} :
    ScalarsFirst (.property key value rest) ↔ rest.ScalarsFirst := by
  rw [ScalarsFirst, entries, List.pairwise_cons]
  constructor
  · exact And.right
  · intro ordered
    refine ⟨?_, ordered⟩
    intro entry _ inner same
    cases same

theorem scalarsFirst_scope {key : Text} {inner rest : Style} :
    ScalarsFirst (.scope key inner rest) ↔ rest.scalars = [] := by
  rw [ScalarsFirst, entries, List.pairwise_cons, scalars_eq_nil_iff]
  constructor
  · intro ordered entry member
    exact ordered.1 entry member inner rfl
  · intro none
    constructor
    · intro entry member _ _
      exact none entry member
    · apply List.pairwise_of_forall_mem_list
      intro _ _ entry member _ _
      exact none entry member

theorem scopeAccepted_concat {path : List Text} {key : Text} {inner : Style} :
    ScopeAccepted (path ++ [key], inner) ↔
      (∀ piece ∈ Selector.pieces key, Selector.Fits path piece) ∧ inner.ScalarsFirst ∧
        ∀ entry ∈ inner.scalars, Property.trim entry.1 ≠ [] ∧ entry.2.Writable := by
  constructor
  · intro accepted
    exact ⟨accepted.key path key rfl, accepted.ordered, accepted.scalars⟩
  · intro right
    rcases right with ⟨fits, ordered, scalars⟩
    refine ⟨?_, ordered, scalars⟩
    intro path' key' same
    rcases List.append_inj' same rfl with ⟨rfl, last⟩
    cases last
    exact fits

variable {path : List Text} {selector : Text}

/-- Outside of a scope and after a nested one no property passes. -/
theorem propertyChecks_refused (reached : Selector.along path = .ok selector) {late : Bool}
    (refused : late = true ∨ path = []) (s : Style) :
    (∀ check ∈ s.propertyChecks path late, check.error? = none) ↔ s.scalars = [] := by
  induction s generalizing late with
  | nil => simp [propertyChecks, scalars]
  | scope key inner rest _ ih => exact ih (.inl rfl)
  | property key value rest _ =>
      have wrong : (Check.property path late key value).error? ≠ none := by
        rw [Check.error?_eq (.property path late key value) reached, Check.errorIn?]
        rcases refused with rfl | rfl
        · simp
        · cases late <;> simp
      simp [propertyChecks, scalars, wrong]

theorem propertyChecks_below (reached : Selector.along path = .ok selector) (below : path ≠ [])
    (s : Style) :
    (∀ check ∈ s.propertyChecks path false, check.error? = none) ↔
      s.ScalarsFirst ∧
        ∀ entry ∈ s.scalars, Property.trim entry.1 ≠ [] ∧ entry.2.Writable := by
  induction s with
  | nil => simp [propertyChecks, scalars, scalarsFirst_nil]
  | scope key inner rest _ _ =>
      rw [propertyChecks, propertyChecks_refused reached (.inl rfl), scalarsFirst_scope, scalars]
      constructor
      · intro none
        simp [none]
      · exact And.left
  | property key value rest ih =>
      have here : (Check.property path false key value).error? = none ↔
          Property.trim key ≠ [] ∧ value.Writable := by
        rw [Check.error?_eq (.property path false key value) reached, Check.errorIn?,
          if_neg Bool.false_ne_true, if_neg below, Property.error?_eq_none_iff]
      rw [propertyChecks, List.forall_mem_cons, here, ih, scalarsFirst_property, scalars,
        List.forall_mem_cons]
      exact and_left_comm

theorem nestedChecks_fine (reached : Selector.along path = .ok selector) (s : Style) :
    (∀ check ∈ s.nestedChecks path, check.error? = none) ↔
      ∀ scope ∈ s.scopes path, ScopeAccepted scope := by
  induction s generalizing path selector with
  | nil => simp [nestedChecks, scopes]
  | property key value rest ih => exact ih reached
  | scope key inner rest ihInner ihRest =>
      have here : (Check.scope path key).error? = none ↔
          ∀ piece ∈ Selector.pieces key, Selector.Fits path piece := by
        rw [Check.error?_eq (.scope path key) reached]
        exact Selector.keyError?_eq_none_iff reached key
      rw [nestedChecks, scopes, List.forall_mem_cons, List.forall_mem_append,
        List.forall_mem_append, List.forall_mem_cons, List.forall_mem_append, here,
        scopeAccepted_concat, ihRest reached, and_assoc, and_assoc, and_assoc]
      apply and_congr_right
      intro fits
      obtain ⟨child, childReached⟩ := Selector.along_concat_of_fits reached fits
      rw [propertyChecks_below childReached (by simp), ihInner childReached, and_assoc]

end Style

namespace Sheet

theorem scopeAccepted_of_ofStyle {s : Style} {sheet : Sheet} (h : ofStyle s = .ok sheet) :
    ∀ scope ∈ s.scopes [], Style.ScopeAccepted scope := by
  have silent : s.checks.findSome? Style.Check.error? = none := by
    rw [← error?_ofStyle, h]
    rfl
  rw [Style.checks, List.findSome?_append, Option.or_eq_none_iff] at silent
  exact (Style.nestedChecks_fine rfl s).mp (List.findSome?_eq_none_iff.mp silent.2)

/-- A style has a sheet if its entries are right one by one, and else fails at the first of its
checks that does. -/
theorem ofStyle_outcome (s : Style) :
    ((∃ sheet, ofStyle s = .ok sheet) ↔ s.Accepted) ∧
      ∀ e, ofStyle s = .error e ↔ s.checks.findSome? Style.Check.error? = some e := by
  constructor
  · rw [← Except.error?_eq_none_iff, error?_ofStyle, List.findSome?_eq_none_iff, Style.checks,
      List.forall_mem_append, Style.propertyChecks_refused rfl (.inr rfl),
      Style.nestedChecks_fine rfl]
    constructor
    · intro fine
      exact ⟨fine.1, fine.2⟩
    · intro accepted
      exact ⟨accepted.root, accepted.scopes⟩
  · intro e
    rw [← error?_ofStyle, Except.error?_eq_some_iff]

-- The open bracket hides the comma of the combined selector, which is blamed as one alternative.
example :
    let deepest := Style.scope ['>'] .nil .nil
    ofStyle (.scope "a(".toList (.scope "b, c".toList deepest .nil) .nil) =
      .error (.blankSelector "a( b, a( c".toList) := rfl

end Sheet

end Hypertext
