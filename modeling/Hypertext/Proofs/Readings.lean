import Hypertext.Proofs.Entries

/-! What styles that are read from JSON say. An object is read exactly if there is no boolean and no
array in it, at any depth and under any key. At every level its keys stay in the order in which they
come first, and each has what its last value means. -/

namespace Hypertext

/-- Lists whose pairs have the same keys have related values last under a key. -/
theorem LastUnder.exists_of_forall₂ {α β : Type} {R : α → β → Prop} {xs : List (Text × α)}
    {ys : List (Text × β)} (same : List.Forall₂ (fun x y => x.1 = y.1 ∧ R x.2 y.2) xs ys)
    {key : Text} {a : α} (last : LastUnder xs key a) : ∃ b, LastUnder ys key b ∧ R a b := by
  obtain ⟨before, after, rfl, other⟩ := last
  induction before generalizing ys with
  | nil =>
      obtain ⟨⟨_, b⟩, later, ⟨rfl, related⟩, rest, rfl⟩ := List.forall₂_cons_left_iff.mp same
      refine ⟨b, ⟨[], later, rfl, ?_⟩, related⟩
      intro y inside
      obtain ⟨x, member, keys, _⟩ := rest.flip.exists_of_mem_left inside
      exact keys ▸ other x member
  | cons first before ih =>
      obtain ⟨y, others, _, rest, rfl⟩ := List.forall₂_cons_left_iff.mp same
      obtain ⟨b, ⟨front, back, rfl, different⟩, related⟩ := ih rest
      exact ⟨b, ⟨y :: front, back, rfl, different⟩, related⟩

namespace Json

/-- There is no boolean and no array in the value, also not under a key that comes again. -/
inductive Plain : Json → Prop
  | null : Plain .null
  | number (x : Binary64) : Plain (.number x)
  | text (t : Text) : Plain (.text t)
  | object {members : List (Text × Json)} (each : ∀ member ∈ members, Plain member.2) :
      Plain (.object members)

def IsStyle (j : Json) : Prop := j.Plain ∧ ∃ members, j = .object members

/-- An object means the keys in the order in which they come first, each with the meaning of the
value that comes last under it. -/
inductive Means : Json → Value → Prop
  | null : Means .null (.scalar .null)
  | number (x : Binary64) : Means (.number x) (.scalar (.number x))
  | text (t : Text) : Means (.text t) (.scalar (.text t))
  | object {members : List (Text × Json)} {s : Style}
      (keys : s.keys = (members.map Prod.fst).eraseDups)
      (values : ∀ key j value, LastUnder members key j → s.get? key = some value →
        Means j value) :
      Means (.object members) (.scope s)

end Json

open Json (IsStyle Means)

theorem Value.exists_ofMembers?_iff {members : List (Text × Json)} :
    (∃ entries, ofMembers? members = some entries) ↔
      ∀ member ∈ members, ∃ value, ofJson? member.2 = some value := by
  induction members with
  | nil => simp [ofMembers?]
  | cons member rest ih =>
      rw [List.forall_mem_cons, ← ih]
      simp only [ofMembers?_eq_some_iff, List.forall₂_cons_left_iff]
      constructor
      · rintro ⟨_, entry, entries, here, below, rfl⟩
        exact ⟨⟨entry.2, here.2⟩, entries, below⟩
      · rintro ⟨⟨value, read⟩, entries, below⟩
        exact ⟨_, (member.1, value), entries, ⟨rfl, read⟩, below, rfl⟩

theorem Value.exists_ofJson?_iff {j : Json} : (∃ value, ofJson? j = some value) ↔ j.Plain := by
  constructor
  · rintro ⟨value, read⟩
    induction j using Json.induction generalizing value with
    | null => exact .null
    | number x => exact .number x
    | text t => exact .text t
    | bool b => cases read
    | array items _ => cases read
    | object members ih =>
        obtain ⟨entries, listed, _⟩ := Option.map_eq_some_iff.mp read
        refine .object fun member given => ?_
        obtain ⟨inner, below⟩ := exists_ofMembers?_iff.mp ⟨entries, listed⟩ member given
        exact ih member given inner below
  · intro plain
    induction plain with
    | null => exact ⟨_, rfl⟩
    | number x => exact ⟨_, rfl⟩
    | text t => exact ⟨_, rfl⟩
    | object _ ih =>
        obtain ⟨entries, listed⟩ := exists_ofMembers?_iff.mpr ih
        exact ⟨_, Option.map_eq_some_iff.mpr ⟨entries, listed, rfl⟩⟩

theorem Style.exists_ofJson?_iff {j : Json} : (∃ s, ofJson? j = some s) ↔ j.IsStyle := by
  rw [IsStyle, ← Value.exists_ofJson?_iff]
  constructor
  · rintro ⟨s, read⟩
    refine ⟨⟨_, ofJson?_eq_some_iff.mp read⟩, ?_⟩
    cases j with
    | object members => exact ⟨members, rfl⟩
    | _ => cases read
  · rintro ⟨⟨value, read⟩, members, rfl⟩
    obtain ⟨entries, listed, _⟩ := Option.map_eq_some_iff.mp read
    exact ⟨_, Option.map_eq_some_iff.mpr ⟨entries, listed, rfl⟩⟩

section Members

variable {members : List (Text × Json)} {entries : List (Text × Value)}

theorem Style.keys_of_ofMembers? (read : Value.ofMembers? members = some entries) :
    (ofEntries entries).keys = (members.map Prod.fst).eraseDups := by
  have same : List.Forall₂ (· = ·) (members.map Prod.fst) (entries.map Prod.fst) := by
    rw [List.forall₂_map_left_iff, List.forall₂_map_right_iff]
    exact (Value.ofMembers?_eq_some_iff.mp read).imp fun _ _ each => each.1
  rw [List.forall₂_eq_eq_eq] at same
  rw [keys_ofEntries, same]

theorem Style.get?_of_ofMembers? (read : Value.ofMembers? members = some entries) {key : Text}
    {j : Json} (last : LastUnder members key j) :
    ∃ value, (ofEntries entries).get? key = some value ∧ Value.ofJson? j = some value := by
  have same := Value.ofMembers?_eq_some_iff.mp read
  obtain ⟨value, lastEntry, below⟩ :=
    last.exists_of_forall₂ (R := fun j value => Value.ofJson? j = some value) same
  exact ⟨value, get?_ofEntries.mpr lastEntry, below⟩

end Members

theorem Value.means_of_ofJson? {j : Json} {value : Value} (read : ofJson? j = some value) :
    j.Means value := by
  induction j using Json.induction generalizing value with
  | null =>
      cases read
      exact .null
  | number x =>
      cases read
      exact .number x
  | text t =>
      cases read
      exact .text t
  | bool b => cases read
  | array items _ => cases read
  | object members ih =>
      obtain ⟨entries, listed, rfl⟩ := Option.map_eq_some_iff.mp read
      refine .object (Style.keys_of_ofMembers? listed) ?_
      intro key j value last stored
      obtain ⟨other, known, below⟩ := Style.get?_of_ofMembers? listed last
      obtain rfl := Option.some.inj (stored.symm.trans known)
      exact ih (key, j) last.mem below

/-- What is read means nothing else. -/
theorem Json.Means.eq_of_ofJson? {j : Json} {v w : Value} (means : j.Means v)
    (read : Value.ofJson? j = some w) : v = w := by
  induction means generalizing w with
  | null => exact Option.some.inj read
  | number x => exact Option.some.inj read
  | text t => exact Option.some.inj read
  | @object members s keys _ ih =>
      obtain ⟨entries, listed, rfl⟩ := Option.map_eq_some_iff.mp read
      have same := (Style.keys_of_ofMembers? listed).trans keys.symm
      apply congrArg Value.scope
      apply (Style.eq_of_keys_eq (Style.nodup_keys_ofEntries entries) same ?_).symm
      intro key
      cases stored : s.get? key with
      | none =>
          have absent : key ∉ s.keys := Style.get?_eq_none_iff.mp stored
          exact Style.get?_eq_none_iff.mpr (same ▸ absent)
      | some value =>
          have present : key ∈ s.keys := by
            by_contra absent
            cases stored.symm.trans (Style.get?_eq_none_iff.mpr absent)
          rw [keys, List.mem_eraseDups] at present
          obtain ⟨j, last⟩ := exists_lastUnder present
          obtain ⟨other, known, below⟩ := Style.get?_of_ofMembers? listed last
          rw [known, ih key j value last stored below]

/-- A style is read exactly from an object without booleans and arrays, and is what it means. -/
theorem Style.ofJson?_outcome (j : Json) :
    ((∃ s, ofJson? j = some s) ↔ j.IsStyle) ∧
      ∀ s, ofJson? j = some s ↔ j.IsStyle ∧ j.Means (.scope s) := by
  refine ⟨exists_ofJson?_iff, ?_⟩
  intro s
  constructor
  · intro read
    exact ⟨exists_ofJson?_iff.mp ⟨s, read⟩, Value.means_of_ofJson? (ofJson?_eq_some_iff.mp read)⟩
  · rintro ⟨style, means⟩
    obtain ⟨t, read⟩ := exists_ofJson?_iff.mpr style
    cases means.eq_of_ofJson? (ofJson?_eq_some_iff.mp read)
    exact read

-- A boolean is not overwritten by what comes after it under its key.
example : Style.ofJson? (.object [(['a'], .bool true), (['a'], .null)]) = none := rfl

end Hypertext
