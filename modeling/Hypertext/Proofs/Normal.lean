import Hypertext.Proofs.Escape
import Hypertext.Proofs.Pieces

/-! Normal forms of trees. What is not written is left out, whatever is written as a text is a text,
and the texts between two elements are one text or none. The markup of a tree is that of its normal
form. -/

namespace Hypertext

/-- The value as the text that is written; a bare name stays apart from every text. -/
def AttributeValue.norm? : AttributeValue → Option AttributeValue
  | .flag false => none
  | .null => none
  | .flag true => some (.flag true)
  | .text t => some (.text t)
  | .number x => some (.text x.toText)
  | .list items => some (.text (List.intercalate [' '] items))

def Attribute.norm? (a : Attribute) : Option Attribute :=
  a.value.norm?.map fun value => ⟨a.name, value⟩

/-- Puts a text in front of nodes and joins it to a text that stands there. -/
def withText (t : Text) (nodes : List Node) : List Node :=
  if t = [] then nodes
  else
    match nodes with
    | .text u :: rest => .text (t ++ u) :: rest
    | nodes => .text t :: nodes

mutual

def Element.norm : Element → Element
  | ⟨tag, attributes, children, void⟩ =>
      ⟨tag, attributes.filterMap Attribute.norm?, normAmong children, void⟩

def normAmong : List Node → List Node
  | [] => []
  | .element e :: rest => .element e.norm :: normAmong rest
  | .text t :: rest => withText t (normAmong rest)
  | .number x :: rest => withText x.toText (normAmong rest)
  | .raw markup :: rest => .raw markup :: normAmong rest

end

theorem Element.norm_eq (e : Element) :
    e.norm = ⟨e.tag, e.attributes.filterMap Attribute.norm?, normAmong e.children, e.void⟩ := by
  cases e
  rfl

def Element.markup (e : Element) : Text := e.pieces.flatten

def Node.markup (node : Node) : Text := node.pieces.flatten

theorem Element.markup_eq (e : Element) :
    e.markup =
      startTag e ++ if e.void then [] else e.children.flatMap Node.markup ++ endTag e := by
  rw [markup, e.pieces_eq]
  cases e.void with
  | true => simp
  | false =>
      have below : (e.children.flatMap Node.pieces).flatten = e.children.flatMap Node.markup := by
        rw [List.flatten_eq_flatMap, List.flatMap_assoc]
        apply List.flatMap_congr
        intro node _
        rw [Node.markup, List.flatten_eq_flatMap]
      simp [below]

@[simp] theorem Node.markup_element (e : Element) : (Node.element e).markup = e.markup := rfl

@[simp] theorem Node.markup_text (t : Text) : (Node.text t).markup = escape t := by
  simp [markup, pieces]

@[simp] theorem Node.markup_number (x : Binary64) : (Node.number x).markup = x.toText := by
  simp [markup, pieces]

theorem attributeText_norm (a : Attribute) :
    (a.norm?.map attributeText).getD [] = attributeText a := by
  obtain ⟨name, value⟩ := a
  cases value with
  | flag on => cases on <;> rfl
  | _ => rfl

theorem flatMap_attributeText_norm (attributes : List Attribute) :
    (attributes.filterMap Attribute.norm?).flatMap attributeText =
      attributes.flatMap attributeText := by
  induction attributes with
  | nil => rfl
  | cons a rest ih =>
      have here := attributeText_norm a
      rw [List.flatMap_cons, ← here, ← ih]
      cases h : a.norm? with
      | none => simp [h]
      | some b => simp [h]

theorem markup_withText (t : Text) (nodes : List Node) :
    (withText t nodes).flatMap Node.markup = escape t ++ nodes.flatMap Node.markup := by
  unfold withText
  split
  · next empty =>
    rw [empty]
    rfl
  · split
    · simp [escape_append]
    · simp

theorem markup_normAmong (nodes : List Node)
    (below : ∀ e, Node.element e ∈ nodes → e.norm.markup = e.markup) :
    (normAmong nodes).flatMap Node.markup = nodes.flatMap Node.markup := by
  induction nodes with
  | nil => rfl
  | cons node rest ih =>
      have later := ih fun e member => below e (List.mem_cons_of_mem _ member)
      cases node with
      | element e => simp [normAmong, later, below e List.mem_cons_self]
      | text t => simp [normAmong, markup_withText, later]
      | number x => simp [normAmong, markup_withText, later, Binary64.escape_toText]
      | raw markup => simp [normAmong, later]

theorem Element.markup_norm (e : Element) : e.norm.markup = e.markup := by
  induction e using Element.induction with
  | step e ih =>
      have start : startTag e.norm = startTag e := by
        rw [e.norm_eq, startTag, startTag, attributes_mk, flatMap_attributeText_norm]
        rfl
      have close : endTag e.norm = endTag e := by
        rw [e.norm_eq]
        rfl
      rw [markup_eq, markup_eq, start, close, e.norm_eq, void_mk, children_mk,
        markup_normAmong e.children ih]

/-- Elements, and texts between them that are not empty. -/
inductive Separated : List Node → Prop
  | nil : Separated []
  | element {e : Element} {rest : List Node} (after : Separated rest) :
      Separated (.element e :: rest)
  | text {t : Text} {rest : List Node} (nonempty : t ≠ [])
      (apart : ∀ u more, rest ≠ .text u :: more) (after : Separated rest) :
      Separated (.text t :: rest)

theorem separated_withText {t : Text} {nodes : List Node} (h : Separated nodes) :
    Separated (withText t nodes) := by
  unfold withText
  split
  · exact h
  · next nonempty =>
    split
    · cases h with
      | text _ apart after =>
          exact .text (fun empty => nonempty (List.append_eq_nil_iff.mp empty).1) apart after
    · next apart => exact .text nonempty (fun u more same => apart u more same) h

theorem separated_normAmong {nodes : List Node} (plain : ∀ markup, Node.raw markup ∉ nodes) :
    Separated (normAmong nodes) := by
  induction nodes with
  | nil => exact .nil
  | cons node rest ih =>
      have later := ih fun markup member => plain markup (List.mem_cons_of_mem _ member)
      cases node with
      | element e => exact .element later
      | text t => exact separated_withText later
      | number x => exact separated_withText later
      | raw markup => exact absurd List.mem_cons_self (plain markup)

theorem mem_withText {t : Text} {nodes : List Node} {e : Element}
    (h : Node.element e ∈ withText t nodes) : Node.element e ∈ nodes := by
  unfold withText at h
  split at h
  · exact h
  · split at h
    · rcases List.mem_cons.mp h with same | h
      · cases same
      · exact List.mem_cons_of_mem _ h
    · rcases List.mem_cons.mp h with same | h
      · cases same
      · exact h

theorem mem_normAmong {nodes : List Node} {f : Element} (h : Node.element f ∈ normAmong nodes) :
    ∃ e, Node.element e ∈ nodes ∧ f = e.norm := by
  induction nodes with
  | nil => cases h
  | cons node rest ih =>
      have later (member : Node.element f ∈ normAmong rest) :
          ∃ e, Node.element e ∈ node :: rest ∧ f = e.norm := by
        obtain ⟨e, source, same⟩ := ih member
        exact ⟨e, List.mem_cons_of_mem _ source, same⟩
      cases node with
      | element e =>
          rcases List.mem_cons.mp h with same | member
          · cases same
            exact ⟨e, List.mem_cons_self, rfl⟩
          · exact later member
      | text t => exact later (mem_withText h)
      | number x => exact later (mem_withText h)
      | raw markup =>
          rcases List.mem_cons.mp h with same | member
          · cases same
          · exact later member

structure Attribute.Written (a : Attribute) : Prop where
  name : isName a.name
  value : a.value = .flag true ∨ ∃ t, a.value = .text t

structure Element.NormalShape (e : Element) : Prop where
  tag : Tag.isLegal e.tag
  void : e.void = Tag.isVoid e.tag
  empty : e.void → e.children = []
  attributes : ∀ a ∈ e.attributes, a.Written
  content : Separated e.children

theorem Attribute.written_norm {a b : Attribute} (name : isName a.name) (h : a.norm? = some b) :
    b.Written := by
  rcases Option.map_eq_some_iff.mp h with ⟨value, written, rfl⟩
  refine ⟨name, ?_⟩
  unfold AttributeValue.norm? at written
  split at written <;> cases written <;> simp

theorem Element.normal_norm {e : Element} (legal : e.Legal)
    (plain : ∀ markup, Node.raw markup ∉ e.nodes) : e.norm.Everywhere NormalShape := by
  induction legal with
  | @intro e shape _ ih =>
      rw [e.norm_eq]
      refine .intro ⟨shape.tag, shape.void, ?_, ?_, ?_⟩ ?_
      · intro void
        rw [children_mk, shape.content void]
        rfl
      · intro b member
        rcases List.mem_filterMap.mp member with ⟨a, source, written⟩
        exact Attribute.written_norm (shape.names a source) written
      · apply separated_normAmong
        intro markup member
        exact plain markup (mem_nodes_of_child member (Node.mem_nodes _))
      · intro f member
        obtain ⟨g, source, rfl⟩ := mem_normAmong member
        apply ih g source
        intro markup inside
        exact plain markup (mem_nodes_of_child source inside)

end Hypertext
