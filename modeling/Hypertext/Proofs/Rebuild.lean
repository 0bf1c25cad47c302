import Hypertext.Proofs.Shape
import Mathlib.Data.List.DropRight

/-! Names and elements that building leaves as they are. The name that a key stands for is settled:
it stands for itself. So the parts of an element that was made, taken as they stand in it, make the
same element again. -/

namespace Hypertext

namespace Attribute

structure Stem (key stem : Text) : Prop where
  cut : ∃ n, key = stem ++ List.replicate n '_'
  last : stem.getLast? ≠ some '_'

/-- The stems whose underscores become hyphens. -/
def Hyphenated (stem : Text) : Prop :=
  (∃ start ∈ ["data_", "aria_", "hx_", "sse_", "ws_"].map String.toList, start <+: stem) ∨
    stem ∈ ["accept_charset", "http_equiv"].map String.toList

def hyphens (stem : Text) : Text := stem.map fun c => if c = '_' then '-' else c

/-- The name that a key stands for is its stem, with hyphens in some families. -/
inductive Spells (key : Text) : Text → Prop
  | hyphens {stem : Text} (isStem : Stem key stem) (family : Hyphenated stem) :
      Spells key (hyphens stem)
  | plain {stem : Text} (isStem : Stem key stem) (other : ¬Hyphenated stem) : Spells key stem

/-- A name that stands for itself. -/
structure Settled (name : Text) : Prop where
  last : name.getLast? ≠ some '_'
  other : ¬Hyphenated name

theorem hyphenated_iff {stem : Text} :
    KeyFamily.hyphenated.any (·.contains stem) = true ↔ Hyphenated stem := by
  simp [KeyFamily.hyphenated, KeyFamily.contains, Hyphenated, List.isPrefixOf_iff_prefix, or_assoc]

theorem underscore_mem_of_hyphenated {stem : Text} (family : Hyphenated stem) : '_' ∈ stem := by
  rcases family with ⟨start, known, starts⟩ | known
  · have marked : ∀ start ∈ ["data_", "aria_", "hx_", "sse_", "ws_"].map String.toList,
        '_' ∈ start := by decide
    exact starts.subset (marked start known)
  · have marked : ∀ key ∈ ["accept_charset", "http_equiv"].map String.toList, '_' ∈ key := by
      decide
    exact marked stem known

theorem underscore_not_mem_hyphens (stem : Text) : '_' ∉ hyphens stem := by
  intro member
  obtain ⟨c, _, same⟩ := List.mem_map.mp member
  split at same
  · cases same
  · next other => exact other same

theorem settled_of_not_mem {name : Text} (absent : '_' ∉ name) : Settled name :=
  ⟨fun last => absent (List.mem_of_getLast? last),
    fun family => absent (underscore_mem_of_hyphenated family)⟩

def stem (key : Text) : Text := Text.dropEndWhile (· == '_') key

theorem stem_concat (key : Text) : stem (key ++ ['_']) = stem key := by
  rw [stem, Text.dropEndWhile_append_singleton]
  rfl

theorem getLast?_stem (key : Text) : (stem key).getLast? ≠ some '_' := by
  intro last
  have nonempty : stem key ≠ [] := by
    intro empty
    rw [empty] at last
    cases last
  rw [List.getLast?_eq_getLast_of_ne_nil nonempty, Option.some.injEq] at last
  have kept := List.rdropWhile_last_not (· == '_') key nonempty
  exact kept (beq_iff_eq.mpr last)

theorem stem_eq_self {name : Text} (last : name.getLast? ≠ some '_') : stem name = name := by
  apply List.rdropWhile_eq_self_iff.mpr
  intro nonempty dropped
  apply last
  rw [List.getLast?_eq_getLast_of_ne_nil nonempty, beq_iff_eq.mp dropped]

theorem stem_spec (key : Text) : Stem key (stem key) := by
  refine ⟨⟨(key.rtakeWhile (· == '_')).length, ?_⟩, getLast?_stem key⟩
  have dropped : key.rtakeWhile (· == '_') =
      List.replicate (key.rtakeWhile (· == '_')).length '_' := by
    apply List.eq_replicate_of_mem
    intro c member
    exact beq_iff_eq.mp (List.mem_rtakeWhile_imp (p := (· == '_')) member)
  rw [← dropped]
  exact List.rdropWhile_append_rtakeWhile.symm

theorem nameOf_eq (key : Text) :
    nameOf key =
      if KeyFamily.hyphenated.any (·.contains (stem key)) then hyphens (stem key) else stem key :=
  rfl

theorem nameOf_of_hyphenated {key : Text} (family : Hyphenated (stem key)) :
    nameOf key = hyphens (stem key) :=
  if_pos (hyphenated_iff.mpr family)

theorem nameOf_of_not_hyphenated {key : Text} (other : ¬Hyphenated (stem key)) :
    nameOf key = stem key :=
  if_neg (mt hyphenated_iff.mp other)

theorem spells_nameOf (key : Text) : Spells key (nameOf key) := by
  by_cases family : Hyphenated (stem key)
  · rw [nameOf_of_hyphenated family]
    exact .hyphens (stem_spec key) family
  · rw [nameOf_of_not_hyphenated family]
    exact .plain (stem_spec key) family

theorem settled_nameOf (key : Text) : Settled (nameOf key) := by
  by_cases family : Hyphenated (stem key)
  · rw [nameOf_of_hyphenated family]
    exact settled_of_not_mem (underscore_not_mem_hyphens _)
  · rw [nameOf_of_not_hyphenated family]
    exact ⟨getLast?_stem key, family⟩

theorem Settled.nameOf_eq {name : Text} (settled : Settled name) : nameOf name = name := by
  have same := stem_eq_self settled.last
  rw [nameOf_of_not_hyphenated (same.symm ▸ settled.other), same]

theorem nameOf_concat (key : Text) : nameOf (key ++ ['_']) = nameOf key := by
  rw [nameOf_eq, stem_concat, ← nameOf_eq]

theorem nameOf_nameOf (key : Text) : nameOf (nameOf key) = nameOf key :=
  (settled_nameOf key).nameOf_eq

end Attribute

namespace Element

/-- The parts of an element as they stand in it, each attribute under its name. -/
def draft (e : Element) : Draft where
  tag := e.tag
  attributes := e.attributes.map fun a => (a.name, a.value)
  children := e.children

/-- An element whose tag and names stand for themselves. -/
structure Settled (e : Element) : Prop where
  shape : e.LegalShape
  tag : Text.lower e.tag = e.tag
  names : ∀ a ∈ e.attributes, Attribute.Settled a.name

theorem Settled.toElement_draft {e : Element} (settled : e.Settled) :
    e.draft.toElement = .ok e := by
  have shape := settled.shape
  have names : Draft.names e.draft.attributes = e.attributes.map (·.name) := by
    rw [Draft.names, draft, List.map_map]
    exact List.map_congr_left fun a member => (settled.names a member).nameOf_eq
  have attributes : e.draft.attributes.map Draft.attributeOf = e.attributes := by
    rw [draft, List.map_map, List.map_congr_left (g := id), List.map_id]
    intro a member
    exact congrArg (Attribute.mk · a.value) (settled.names a member).nameOf_eq
  have tag : Text.lower e.draft.tag = e.tag := settled.tag
  apply Draft.toElement_eq_ok_iff.mpr
  refine ⟨⟨?_, ?_, ?_, ?_⟩, ?_⟩
  · rw [tag]
    exact shape.tag
  · rw [tag, ← shape.void]
    exact shape.content
  · intro entry member
    obtain ⟨a, stored, rfl⟩ := List.mem_map.mp member
    rw [(settled.names a stored).nameOf_eq]
    exact shape.names a stored
  · rw [names]
    exact shape.distinct
  · rw [tag, attributes, ← shape.void]
    cases e
    rfl

theorem settled_of_toElement {d : Draft} {e : Element} (built : d.toElement = .ok e) :
    e.Settled := by
  have shape := legalShape_of_toElement built
  obtain ⟨_, rfl⟩ := Draft.toElement_eq_ok_iff.mp built
  refine ⟨shape, Text.lower_lower d.tag, ?_⟩
  intro a member
  obtain ⟨entry, _, rfl⟩ := List.mem_map.mp member
  exact Attribute.settled_nameOf entry.1

theorem kept_settled : Kept Settled where
  built := settled_of_toElement
  void settled := settled.shape.void
  content settled content children :=
    ⟨settled.shape.withChildren content children, settled.tag, settled.names⟩

end Element

/-- The name of a key stands for itself, and what it changes about the key is known. So whatever was
made is built again from its own parts. -/
theorem Attribute.nameOf_settles :
    (∀ key, Spells key (nameOf key) ∧ (nameOf key).getLast? ≠ some '_' ∧
      nameOf (key ++ ['_']) = nameOf key ∧ nameOf (nameOf key) = nameOf key) ∧
    ∀ e : Element, e.Made → e.draft.toElement = .ok e := by
  constructor
  · intro key
    exact ⟨spells_nameOf key, (settled_nameOf key).last, nameOf_concat key, nameOf_nameOf key⟩
  · intro e made
    exact (made.everywhere Element.kept_settled).own.toElement_draft

/-- Built from keys with underscores at their ends, and given a head afterwards. -/
def Element.keyed : Element :=
  ⟨"html".toList,
    [⟨"data-user-id".toList, .number (.ofNat 7)⟩, ⟨"data--x".toList, .flag true⟩,
      ⟨"data".toList, .null⟩],
    [.element ⟨"head".toList, [], [.text ['t']], false⟩], false⟩

theorem Element.keyed_made : keyed.Made := by
  have built : Draft.toElement
      { tag := "HTML".toList,
        attributes := [("data_user_id_".toList, .number (.ofNat 7)),
          ("data__x_".toList, .flag true), ("data_".toList, .null)] } =
      .ok (keyed.withChildren []) := rfl
  have receiver : (keyed.withChildren []).Made := .draft (by simp) built
  have done : (keyed.withChildren []).addToHead [.text ['t']] = .ok keyed := rfl
  exact .head receiver (by simp) done

theorem Attribute.nameOf_settles_keyed :
    Element.keyed.Made ∧ Element.keyed.draft.toElement = .ok Element.keyed ∧
      nameOf "data__x_".toList = "data--x".toList ∧
      nameOf "data__x__".toList = nameOf "data__x_".toList ∧
      nameOf "data_".toList = "data".toList ∧ nameOf "data".toList = "data".toList := by
  obtain ⟨keys, elements⟩ := nameOf_settles
  have short : nameOf "data_".toList = "data".toList := rfl
  obtain ⟨_, _, longer, _⟩ := keys "data__x_".toList
  obtain ⟨_, _, _, again⟩ := keys "data_".toList
  rw [short] at again
  exact ⟨Element.keyed_made, elements _ Element.keyed_made, rfl, longer, short, again⟩

end Hypertext
