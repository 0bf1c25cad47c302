import Hypertext.Style.Sheet
import Hypertext.Proofs.Selector

/-! The rules of a sheet are the scopes of its style in pre-order, one for each scope that has a
property of its own. -/

namespace Hypertext

namespace Style

def scalars : Style → List (Text × Scalar)
  | .nil => []
  | .property key value rest => (key, value) :: scalars rest
  | .scope _ _ rest => scalars rest

/-- The scopes inside a style in pre-order, each with the keys on the way to it. -/
def scopes (path : List Text) : Style → List (List Text × Style)
  | .nil => []
  | .property _ _ rest => scopes path rest
  | .scope key inner rest =>
      (path ++ [key], inner) :: (scopes (path ++ [key]) inner ++ scopes path rest)

theorem scopes_append (front path : List Text) (s : Style) :
    s.scopes (front ++ path) = (s.scopes path).map fun scope => (front ++ scope.1, scope.2) := by
  induction s generalizing path with
  | nil => rfl
  | property key value rest ih => exact ih path
  | scope key inner rest ihInner ihRest =>
      simp only [scopes, List.append_assoc, ihInner, ihRest, List.map_cons, List.map_append]

theorem exists_of_mem_scopes {s : Style} {scope : List Text × Style}
    (member : scope ∈ s.scopes []) :
    ∃ key inner, (key, Value.scope inner) ∈ s.entries ∧
      (scope = ([key], inner) ∨
        ∃ below ∈ inner.scopes [], scope = (key :: below.1, below.2)) := by
  induction s with
  | nil => cases member
  | property key value rest ih =>
      obtain ⟨k, inner, inside, place⟩ := ih member
      exact ⟨k, inner, List.mem_cons_of_mem _ inside, place⟩
  | scope key inner rest _ ih =>
      rw [scopes, List.nil_append, List.mem_cons, List.mem_append] at member
      rcases member with first | below | later
      · exact ⟨key, inner, List.mem_cons_self, .inl first⟩
      · have moved := inner.scopes_append [key] []
        rw [List.append_nil] at moved
        rw [moved] at below
        obtain ⟨deeper, inside, rfl⟩ := List.mem_map.mp below
        exact ⟨key, inner, List.mem_cons_self, .inr ⟨deeper, inside, rfl⟩⟩
      · obtain ⟨k, other, inside, place⟩ := ih later
        exact ⟨k, other, List.mem_cons_of_mem _ inside, place⟩

end Style

/-- The same error in a scope with another selector. -/
def StyleError.within (selector : Text) : StyleError → StyleError
  | .noValue _ property => .noValue selector property
  | .blankValue _ property => .blankValue selector property
  | .blankProperty _ => .blankProperty selector
  | .notFinite _ property => .notFinite selector property
  | .propertyAfterScope _ key => .propertyAfterScope selector key
  | e => e

namespace Property

theorem ofEntry_within (selector key : Text) (value : Scalar) :
    ofEntry selector key value = (ofEntry [] key value).mapError (.within selector) := by
  simp only [ofEntry]
  split
  · rfl
  · cases value with
    | text t =>
        simp only
        split <;> rfl
    | number x =>
        simp only
        split <;> rfl
    | null => rfl

def declared? : Text × Scalar → Option Property
  | (key, .text t) => some ⟨trim key, trim t⟩
  | (key, .number x) => some ⟨trim key, numberText (trim key) x⟩
  | (_, .null) => none

theorem declared?_of_ofEntry {selector key : Text} {value : Scalar} {p : Property}
    (h : ofEntry selector key value = .ok p) : declared? (key, value) = some p := by
  simp only [ofEntry] at h
  split at h
  · cases h
  · cases value with
    | text t =>
        simp only at h
        split at h <;> cases h
        rfl
    | number x =>
        simp only at h
        split at h <;> cases h
        rfl
    | null => cases h

end Property

namespace Sheet

theorem properties_declared {selector : Text} {nested : Bool} {s : Style} {ps : List Property}
    (h : properties selector nested s = .ok ps) :
    ps.map some = s.scalars.map Property.declared? := by
  induction s generalizing nested ps with
  | nil =>
      cases h
      rfl
  | scope key inner rest _ ih => exact ih h
  | property key value rest ih =>
      simp only [properties] at h
      split_ifs at h
      obtain ⟨p, here, h⟩ := Except.bind_eq_ok_iff.mp h
      obtain ⟨others, later, h⟩ := Except.bind_eq_ok_iff.mp h
      cases h
      rw [Style.scalars, List.map_cons, List.map_cons, Property.declared?_of_ofEntry here,
        ih later]

theorem properties_root {nested : Bool} {s : Style} {ps : List Property}
    (h : properties [] nested s = .ok ps) : ps = [] := by
  induction s generalizing nested with
  | nil => exact (Except.ok.inj h).symm
  | scope key inner rest _ ih => exact ih h
  | property key value rest _ =>
      simp only [properties] at h
      split at h
      · cases h
      · split at h
        · cases h
        · next given => exact absurd rfl given

end Sheet

/-- The rule of a scope: its selector is that of the whole path and it has one property for each
scalar entry. -/
structure Rule.Describes (r : Rule) (scope : List Text × Style) : Prop where
  selector : Selector.along scope.1 = .ok r.selector
  nonempty : r.selector ≠ []
  depth : scope.1.length = r.depth + 1
  properties : r.properties.map some = scope.2.scalars.map Property.declared?

namespace Sheet

def hasScalars (scope : List Text × Style) : Bool := !scope.2.scalars.isEmpty

theorem ownRule_describes {path : List Text} {inner : Style} {child : Text} {depth : Nat}
    {own : List Property} (selector : Selector.along path = .ok child) (nonempty : child ≠ [])
    (length : path.length = depth + 1) (h : properties child false inner = .ok own) :
    List.Forall₂ Rule.Describes (ownRule child depth own) ([(path, inner)].filter hasScalars) := by
  have declared := properties_declared h
  cases own with
  | nil =>
      have none : inner.scalars = [] := by simpa using declared.symm
      simp [ownRule, hasScalars, none]
  | cons p rest =>
      have some : inner.scalars ≠ [] := by
        intro none
        simp [none] at declared
      have kept : [(path, inner)].filter hasScalars = [(path, inner)] := by
        simp [hasScalars, some]
      rw [kept]
      exact .cons ⟨selector, nonempty, length, declared⟩ .nil

theorem nestedRules_describe {path : List Text} {selector : Text} {depth : Nat} {s : Style}
    {rules : List Rule} (reached : Selector.along path = .ok selector)
    (level : depthWithin selector depth = path.length)
    (h : nestedRules selector depth s = .ok rules) :
    List.Forall₂ Rule.Describes rules ((s.scopes path).filter hasScalars) := by
  induction s generalizing path selector depth rules with
  | nil =>
      cases h
      exact .nil
  | property key value rest ih => exact ih reached level h
  | scope key inner rest ihInner ihRest =>
      obtain ⟨child, joined, h⟩ := Except.bind_eq_ok_iff.mp h
      obtain ⟨own, ownBuilt, h⟩ := Except.bind_eq_ok_iff.mp h
      obtain ⟨below, belowBuilt, h⟩ := Except.bind_eq_ok_iff.mp h
      obtain ⟨others, othersBuilt, h⟩ := Except.bind_eq_ok_iff.mp h
      cases h
      have childReached : Selector.along (path ++ [key]) = .ok child := by
        rw [Selector.along_concat]
        exact Except.bind_eq_ok_iff.mpr ⟨selector, reached, joined⟩
      have nonempty : child ≠ [] :=
        (Selector.isCombined_of_combine (Selector.eq_nil_or_isCombined reached) joined).ne_nil
      have length : (path ++ [key]).length = depthWithin selector depth + 1 := by simp [level]
      have childLevel :
          depthWithin child (depthWithin selector depth) = (path ++ [key]).length := by
        simp [depthWithin, nonempty, length]
      have first := ownRule_describes childReached nonempty length ownBuilt
      have inside := ihInner childReached childLevel belowBuilt
      have after := ihRest reached level othersBuilt
      have split : (Style.scope key inner rest).scopes path =
          [(path ++ [key], inner)] ++ inner.scopes (path ++ [key]) ++ rest.scopes path := by
        simp [Style.scopes]
      rw [split, List.filter_append, List.filter_append]
      exact List.rel_append (List.rel_append first inside) after

theorem ofStyle_eq_ok_iff {s : Style} {sheet : Sheet} :
    ofStyle s = .ok sheet ↔
      properties [] false s = .ok [] ∧ nestedRules [] 0 s = .ok sheet.rules := by
  constructor
  · intro h
    obtain ⟨own, ownBuilt, h⟩ := Except.bind_eq_ok_iff.mp h
    obtain ⟨below, belowBuilt, h⟩ := Except.bind_eq_ok_iff.mp h
    cases h
    obtain rfl := properties_root ownBuilt
    exact ⟨ownBuilt, belowBuilt⟩
  · rintro ⟨none, built⟩
    rw [ofStyle, none, built]
    rfl

/-- The sheet of a style is its flattening in pre-order. -/
theorem forall₂_describes_of_ofStyle {s : Style} {sheet : Sheet} (h : ofStyle s = .ok sheet) :
    List.Forall₂ Rule.Describes sheet.rules
      ((s.scopes []).filter fun scope => !scope.2.scalars.isEmpty) := by
  obtain ⟨own, ownBuilt, h⟩ := Except.bind_eq_ok_iff.mp h
  obtain ⟨below, belowBuilt, h⟩ := Except.bind_eq_ok_iff.mp h
  cases h
  have none := properties_root ownBuilt
  rw [none]
  exact nestedRules_describe rfl rfl belowBuilt

end Sheet

theorem Rule.Describes.isCombined {r : Rule} {scope : List Text × Style} (h : r.Describes scope) :
    Selector.IsCombined r.selector := by
  rcases Selector.root_or_isCombined h.selector with ⟨_, root⟩ | ⟨_, isCombined⟩
  · exact absurd root h.nonempty
  · exact isCombined

theorem Sheet.exists_describes_of_mem_rules {s : Style} {sheet : Sheet} (h : ofStyle s = .ok sheet)
    {r : Rule} (member : r ∈ sheet.rules) : ∃ scope ∈ s.scopes [], r.Describes scope := by
  have described : List.Forall₂ Rule.Describes sheet.rules ((s.scopes []).filter hasScalars) :=
    nestedRules_describe rfl rfl (ofStyle_eq_ok_iff.mp h).2
  obtain ⟨scope, inside, describes⟩ := described.exists_of_mem_left member
  exact ⟨scope, List.mem_of_mem_filter inside, describes⟩

theorem Sheet.isCombined_of_mem_rules {s : Style} {sheet : Sheet} (h : ofStyle s = .ok sheet) :
    ∀ r ∈ sheet.rules, Selector.IsCombined r.selector := by
  intro r member
  obtain ⟨scope, _, describes⟩ := exists_describes_of_mem_rules h member
  exact describes.isCombined

/-- A list nested in a list, a scope with only a scope inside, and an empty scope. -/
def Style.headings : Style :=
  .scope "h1, h2".toList
    (.property "color:".toList (.text " red;".toList) <|
      .scope "&:hover".toList
        (.scope "> a".toList (.property "width".toList (.number (.ofNat 5)) .nil) .nil) .nil) <|
  .scope ".x".toList .nil .nil

def Sheet.headings : Sheet where
  rules :=
    [⟨"h1, h2".toList, [⟨"color".toList, "red".toList⟩], 0⟩,
      ⟨"h1:hover > a, h2:hover > a".toList, [⟨"width".toList, "5px".toList⟩], 2⟩]

theorem Sheet.forall₂_describes_of_headings :
    ofStyle Style.headings = .ok headings ∧
      List.Forall₂ Rule.Describes headings.rules
        ((Style.headings.scopes []).filter fun scope => !scope.2.scalars.isEmpty) :=
  ⟨rfl, forall₂_describes_of_ofStyle rfl⟩

end Hypertext
