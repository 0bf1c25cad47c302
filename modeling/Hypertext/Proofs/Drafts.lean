import Hypertext.Proofs.Outcome
import Hypertext.Proofs.Tree
import Hypertext.Markup.Draft

/-! What becomes of a draft. An element keeps all of its parts if they are legal, and the first part
that is not decides the error: the tag, then the children, then the attributes from the left. -/

theorem List.find?_of_nodup_map {α β : Type} [BEq β] [LawfulBEq β] {key : α → β} {xs : List α}
    {x : α} (distinct : (xs.map key).Nodup) (member : x ∈ xs) :
    xs.find? (fun y => key y == key x) = some x := by
  induction xs with
  | nil => cases member
  | cons y rest ih =>
      obtain ⟨other, distinct⟩ := List.nodup_cons.mp distinct
      rcases List.mem_cons.mp member with rfl | member
      · simp
      · have differs : key y ≠ key x := fun same => other (same ▸ List.mem_map_of_mem member)
        rw [List.find?_cons_of_neg (by simpa using differs), ih distinct member]

namespace Hypertext

namespace Draft

def names (keyed : List (Text × AttributeValue)) : List Text :=
  keyed.map fun entry => Attribute.nameOf entry.1

def attributeOf (entry : Text × AttributeValue) : Attribute :=
  ⟨Attribute.nameOf entry.1, entry.2⟩

/-- Keys that can follow attributes with the names `seen` in one start tag. -/
structure Usable (seen : List Text) (keyed : List (Text × AttributeValue)) : Prop where
  legal : ∀ entry ∈ keyed, Attribute.isName (Attribute.nameOf entry.1)
  fresh : ∀ name ∈ names keyed, name ∉ seen
  distinct : (names keyed).Nodup

/-- What is wrong with a key after attributes with the names `seen`. -/
inductive Offence (tag : Text) (seen : List Text) (key : Text) : ShapeError → Prop
  | illegal (notName : Attribute.isName (Attribute.nameOf key) = false) :
      Offence tag seen key (.illegalName tag key)
  | repeated (isName : Attribute.isName (Attribute.nameOf key))
      (again : Attribute.nameOf key ∈ seen) :
      Offence tag seen key (.repeatedName tag (Attribute.nameOf key))

def FirstOffence (tag : Text) (seen : List Text) (keyed : List (Text × AttributeValue))
    (error : ShapeError) : Prop :=
  ∃ before key value after, keyed = before ++ (key, value) :: after ∧ Usable seen before ∧
    Offence tag (seen ++ names before) key error

theorem map_name_attributeOf (keyed : List (Text × AttributeValue)) :
    (keyed.map attributeOf).map (·.name) = names keyed := by
  simp [names, attributeOf, Function.comp_def]

section Attributes

variable {tag key : Text} {seen : List Text} {value : AttributeValue}
  {keyed rest : List (Text × AttributeValue)} {error : ShapeError}

theorem names_cons : names ((key, value) :: rest) = Attribute.nameOf key :: names rest := rfl

theorem offence_iff :
    Offence tag seen key error ↔
      Attribute.isName (Attribute.nameOf key) = false ∧ error = .illegalName tag key ∨
        Attribute.isName (Attribute.nameOf key) ∧ Attribute.nameOf key ∈ seen ∧
          error = .repeatedName tag (Attribute.nameOf key) := by
  constructor
  · intro offence
    cases offence with
    | illegal notName => exact .inl ⟨notName, rfl⟩
    | repeated isName again => exact .inr ⟨isName, again, rfl⟩
  · rintro (⟨notName, rfl⟩ | ⟨isName, again, rfl⟩)
    · exact .illegal notName
    · exact .repeated isName again

theorem usable_nil : Usable seen [] :=
  ⟨by simp, by simp [names], List.nodup_nil⟩

theorem usable_cons :
    Usable seen ((key, value) :: rest) ↔
      Attribute.isName (Attribute.nameOf key) ∧ Attribute.nameOf key ∉ seen ∧
        Usable (seen ++ [Attribute.nameOf key]) rest := by
  constructor
  · intro usable
    obtain ⟨legal, legalRest⟩ := List.forall_mem_cons.mp usable.legal
    obtain ⟨fresh, freshRest⟩ := List.forall_mem_cons.mp usable.fresh
    obtain ⟨other, distinct⟩ := List.nodup_cons.mp usable.distinct
    refine ⟨legal, fresh, legalRest, ?_, distinct⟩
    intro name member again
    rcases List.mem_append.mp again with again | again
    · exact freshRest name member again
    · rw [List.mem_singleton.mp again] at member
      exact other member
  · intro usable
    obtain ⟨legal, fresh, usable⟩ := usable
    refine ⟨List.forall_mem_cons.mpr ⟨legal, usable.legal⟩,
      List.forall_mem_cons.mpr ⟨fresh, ?_⟩, List.nodup_cons.mpr ⟨?_, usable.distinct⟩⟩
    · intro name member again
      exact usable.fresh name member (List.mem_append_left _ again)
    · intro member
      exact usable.fresh _ member (List.mem_append_right _ (List.mem_singleton.mpr rfl))

theorem not_firstOffence_nil : ¬FirstOffence tag seen [] error := by
  rintro ⟨before, key, value, after, split, _⟩
  simp at split

theorem firstOffence_cons :
    FirstOffence tag seen ((key, value) :: rest) error ↔
      Offence tag seen key error ∨
        Attribute.isName (Attribute.nameOf key) ∧ Attribute.nameOf key ∉ seen ∧
          FirstOffence tag (seen ++ [Attribute.nameOf key]) rest error := by
  constructor
  · rintro ⟨before, key', value', after, split, usable, offence⟩
    cases before with
    | nil =>
        cases split
        exact .inl (by simpa [names] using offence)
    | cons entry before =>
        cases split
        obtain ⟨legal, fresh, usable⟩ := usable_cons.mp usable
        refine .inr ⟨legal, fresh, before, key', value', after, rfl, usable, ?_⟩
        simpa [names_cons] using offence
  · rintro (offence | ⟨legal, fresh, before, key', value', after, rfl, usable, offence⟩)
    · exact ⟨[], key, value, rest, rfl, usable_nil, by simpa [names] using offence⟩
    · refine ⟨(key, value) :: before, key', value', after, rfl,
        usable_cons.mpr ⟨legal, fresh, usable⟩, ?_⟩
      simpa [names_cons] using offence

/-- The names seen so far are held with the last one first. -/
theorem named_cons :
    named tag seen.reverse ((key, value) :: rest) =
      if Attribute.isName (Attribute.nameOf key) = false then .error (.illegalName tag key)
      else if Attribute.nameOf key ∈ seen then .error (.repeatedName tag (Attribute.nameOf key))
      else (named tag (seen ++ [Attribute.nameOf key]).reverse rest).map
        (attributeOf (key, value) :: ·) := by
  simp [named, attributeOf]

theorem named_eq_ok_iff {attributes : List Attribute} :
    named tag seen.reverse keyed = .ok attributes ↔
      Usable seen keyed ∧ attributes = keyed.map attributeOf := by
  induction keyed generalizing seen attributes with
  | nil => simp [named, usable_nil, eq_comm]
  | cons entry rest ih =>
      obtain ⟨key, value⟩ := entry
      rw [named_cons, usable_cons]
      split_ifs with notName again
      · simp [notName]
      · simp [again]
      · simp only [Except.map_eq_ok_iff, ih, List.map_cons]
        constructor
        · rintro ⟨others, ⟨usable, rfl⟩, rfl⟩
          exact ⟨⟨by simpa using notName, again, usable⟩, rfl⟩
        · rintro ⟨⟨_, _, usable⟩, rfl⟩
          exact ⟨_, ⟨usable, rfl⟩, rfl⟩

theorem named_eq_error_iff :
    named tag seen.reverse keyed = .error error ↔ FirstOffence tag seen keyed error := by
  induction keyed generalizing seen with
  | nil => simp [named, not_firstOffence_nil]
  | cons entry rest ih =>
      obtain ⟨key, value⟩ := entry
      rw [named_cons, firstOffence_cons, offence_iff]
      split_ifs with notName again
      · simp [notName, eq_comm]
      · simp [notName, again, eq_comm]
      · rw [Except.map_eq_error_iff, ih]
        simp [notName, again]

end Attributes

/-- The parts are those of an element, whatever way its tag and names are spelled. -/
structure Accepted (d : Draft) : Prop where
  tag : Tag.isLegal (Text.lower d.tag)
  content : Tag.isVoid (Text.lower d.tag) → d.children = []
  legalNames : ∀ entry ∈ d.attributes, Attribute.isName (Attribute.nameOf entry.1)
  distinctNames : (names d.attributes).Nodup

/-- The element holds the parts of the draft and no others. -/
structure Keeps (d : Draft) (e : Element) : Prop where
  tag : e.tag = Text.lower d.tag
  void : e.void = Tag.isVoid (Text.lower d.tag)
  children : e.children = d.children
  attributes : e.attributes = d.attributes.map attributeOf
  found : ∀ entry ∈ d.attributes, e.value? (Attribute.nameOf entry.1) = some entry.2
  absent : ∀ name ∉ names d.attributes, e.value? name = none

/-- The error is that of the first part that is wrong. -/
inductive Refused (d : Draft) : ShapeError → Prop
  | tag (illegal : Tag.isLegal (Text.lower d.tag) = false) :
      Refused d (.illegalTag (Text.lower d.tag))
  | content (legal : Tag.isLegal (Text.lower d.tag)) (void : Tag.isVoid (Text.lower d.tag))
      (held : d.children ≠ []) :
      Refused d (.contentInVoid (Text.lower d.tag) d.children.length)
  | name {error : ShapeError} (legal : Tag.isLegal (Text.lower d.tag))
      (content : Tag.isVoid (Text.lower d.tag) → d.children = [])
      (offence : FirstOffence (Text.lower d.tag) [] d.attributes error) : Refused d error

variable {d : Draft} {e : Element} {error : ShapeError}

theorem usable_iff_accepted (legal : Tag.isLegal (Text.lower d.tag))
    (content : Tag.isVoid (Text.lower d.tag) → d.children = []) :
    Usable [] d.attributes ↔ d.Accepted :=
  ⟨fun usable => ⟨legal, content, usable.legal, usable.distinct⟩,
    fun accepted => ⟨accepted.legalNames, by simp, accepted.distinctNames⟩⟩

theorem toElement_eq (d : Draft) :
    d.toElement =
      if Tag.isLegal (Text.lower d.tag) = false then .error (.illegalTag (Text.lower d.tag))
      else if Tag.isVoid (Text.lower d.tag) ∧ d.children ≠ [] then
        .error (.contentInVoid (Text.lower d.tag) d.children.length)
      else (named (Text.lower d.tag) [].reverse d.attributes).map fun attributes =>
        ⟨Text.lower d.tag, attributes, d.children, Tag.isVoid (Text.lower d.tag)⟩ := by
  simp [toElement]

theorem toElement_eq_ok_iff :
    d.toElement = .ok e ↔
      d.Accepted ∧ e = ⟨Text.lower d.tag, d.attributes.map attributeOf, d.children,
        Tag.isVoid (Text.lower d.tag)⟩ := by
  rw [toElement_eq]
  split_ifs with illegal content
  · refine iff_of_false (by simp) ?_
    rintro ⟨accepted, _⟩
    rw [accepted.tag] at illegal
    cases illegal
  · refine iff_of_false (by simp) ?_
    rintro ⟨accepted, _⟩
    exact content.2 (accepted.content content.1)
  · have legal : Tag.isLegal (Text.lower d.tag) := by simpa using illegal
    have content : Tag.isVoid (Text.lower d.tag) → d.children = [] := by simpa using content
    simp only [Except.map_eq_ok_iff, named_eq_ok_iff, usable_iff_accepted legal content]
    constructor
    · rintro ⟨_, ⟨accepted, rfl⟩, rfl⟩
      exact ⟨accepted, rfl⟩
    · rintro ⟨accepted, rfl⟩
      exact ⟨_, ⟨accepted, rfl⟩, rfl⟩

theorem toElement_eq_error_iff : d.toElement = .error error ↔ d.Refused error := by
  rw [toElement_eq]
  constructor
  · intro failed
    split_ifs at failed with illegal content
    · obtain rfl := Except.error.inj failed
      exact .tag illegal
    · obtain rfl := Except.error.inj failed
      exact .content (by simpa using illegal) content.1 content.2
    · rw [Except.map_eq_error_iff, named_eq_error_iff] at failed
      exact .name (by simpa using illegal) (by simpa using content) failed
  · intro refused
    cases refused with
    | tag illegal => rw [if_pos illegal]
    | content legal void held => rw [if_neg (by simp [legal]), if_pos ⟨void, held⟩]
    | name legal content offence =>
        rw [if_neg (by simp [legal]), if_neg (by simpa using content),
          Except.map_eq_error_iff, named_eq_error_iff]
        exact offence

theorem keeps_of_toElement (built : d.toElement = .ok e) : d.Keeps e := by
  obtain ⟨accepted, rfl⟩ := toElement_eq_ok_iff.mp built
  have written := map_name_attributeOf d.attributes
  refine ⟨rfl, rfl, rfl, rfl, ?_, ?_⟩
  · intro entry member
    have first : (d.attributes.map attributeOf).find? (·.name == Attribute.nameOf entry.1) =
        some (attributeOf entry) :=
      List.find?_of_nodup_map (written ▸ accepted.distinctNames) (List.mem_map_of_mem member)
    rw [Element.value?, Element.attributes_mk, first]
    rfl
  · intro name other
    have none : (d.attributes.map attributeOf).find? (·.name == name) = none := by
      rw [List.find?_eq_none]
      intro a member same
      apply other
      rw [← written, ← beq_iff_eq.mp same]
      exact List.mem_map_of_mem member
    rw [Element.value?, Element.attributes_mk, none]
    rfl

/-- A draft becomes an element exactly if all of its parts are legal; the element has these parts,
and a draft that is refused is refused for the first of them that is not. -/
theorem toElement_outcome (d : Draft) :
    ((∃ e, d.toElement = .ok e) ↔ d.Accepted) ∧ (∀ e, d.toElement = .ok e → d.Keeps e) ∧
      ∀ error, d.toElement = .error error ↔ d.Refused error := by
  refine ⟨?_, fun e => keeps_of_toElement, fun error => toElement_eq_error_iff⟩
  constructor
  · rintro ⟨e, built⟩
    exact (toElement_eq_ok_iff.mp built).1
  · intro accepted
    exact ⟨_, toElement_eq_ok_iff.mpr ⟨accepted, rfl⟩⟩

/-- A tag with a constructor of its own is never refused. -/
theorem toElement_of_standard {tag : Text} (standard : tag ∈ Tag.standardTags) :
    toElement { tag := tag } = .ok ⟨tag, [], [], Tag.isVoid tag⟩ := by
  have legal : ∀ tag ∈ Tag.standardTags, Text.lower tag = tag ∧ Tag.isLegal tag = true := by
    decide +kernel
  obtain ⟨small, own⟩ := legal tag standard
  rw [toElement_eq, small, own]
  simp [named, Except.map]

-- Three spellings of one name: the second repeats the first though neither is written.
example :
    Draft.toElement
      { tag := "DIV".toList,
        attributes := [("data_id".toList, .null), ("data-id_".toList, .flag false),
          ("_".toList, .null)] } =
      .error (.repeatedName "div".toList "data-id".toList) := rfl

end Draft

end Hypertext
