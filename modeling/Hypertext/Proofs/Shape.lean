import Hypertext.Page.Preset
import Hypertext.Proofs.Grid
import Hypertext.Proofs.Head
import Hypertext.Proofs.Search

/-! The shape of the trees that can be made. A draft is checked when it becomes an element and every
other operation puts checked elements together, so each element of a result has a legal shape. -/

namespace Hypertext

/-- The elements that the operations make from one another. -/
inductive Element.Made : Element → Prop
  | draft {d : Draft} {e : Element} (children : ∀ f, Node.element f ∈ d.children → Made f)
      (built : d.toElement = .ok e) : Made e
  | head {e f : Element} {items : List Node} (receiver : Made e)
      (added : ∀ g, Node.element g ∈ items → Made g) (done : e.addToHead items = .ok f) : Made f
  | document {d f : Document} {items : List Node} (root : Made d.root)
      (added : ∀ g, Node.element g ∈ items → Made g) (done : d.addToHead items = .ok f) :
      Made f.root
  | selected {e f : Element} {tag : Text} {how : Search} (searched : Made e)
      (found : f ∈ e.select tag how) : Made f
  | found {e f : Element} {tag : Text} (searched : Made e) (found : e.find? tag = some f) : Made f
  | table {t : Table} {e : Element}
      (cells : ∀ row ∈ t.rows, ∀ f, Node.element f ∈ row → Made f) (built : t.toElement = .ok e) :
      Made e
  | preset {p : Preset} {e : Element} (built : p.link = .ok e) : Made e

/-- What an element has to be apart from the elements below it. -/
structure Element.LegalShape (e : Element) : Prop where
  tag : Tag.isLegal e.tag
  void : e.void = Tag.isVoid e.tag
  content : e.void → e.children = []
  names : ∀ a ∈ e.attributes, Attribute.isName a.name
  distinct : (e.attributes.map (·.name)).Nodup

namespace Element

/-- What every element has that is built from a draft, and keeps when its children change. -/
structure Kept (p : Element → Prop) : Prop where
  built : ∀ {d : Draft} {e : Element}, d.toElement = .ok e → p e
  void : ∀ {e : Element}, p e → e.void = Tag.isVoid e.tag
  content : ∀ {e : Element}, p e → e.void = false → ∀ children, p (e.withChildren children)

section Everywhere

variable {p : Element → Prop} (kept : Kept p)

include kept

theorem everywhere_of_toElement {d : Draft} {e : Element} (built : d.toElement = .ok e)
    (children : ∀ f, Node.element f ∈ d.children → f.Everywhere p) : e.Everywhere p := by
  have here := kept.built built
  obtain ⟨_, rfl⟩ := Draft.toElement_eq_ok_iff.mp built
  exact .intro here children

/-- An element that may have content keeps `p` with other children. -/
theorem everywhere_withChildren {e : Element} {children : List Node} (before : e.Everywhere p)
    (content : e.void = false) (below : ∀ f, Node.element f ∈ children → f.Everywhere p) :
    (e.withChildren children).Everywhere p :=
  .intro (kept.content before.own content children) below

theorem everywhere_headWith {old : Option Element} {items : List Node}
    (isHead : ∀ head ∈ old, head.tag = headTag) (before : ∀ head ∈ old, head.Everywhere p)
    (added : ∀ g, Node.element g ∈ items → g.Everywhere p) :
    (headWith old items).Everywhere p := by
  cases old with
  | none =>
      have built : Draft.toElement { tag := headTag, children := items } =
          .ok (headWith none items) := rfl
      exact everywhere_of_toElement kept built added
  | some head =>
      have before := before head rfl
      have content : head.void = false := by
        rw [kept.void before.own, isHead head rfl]
        decide
      apply everywhere_withChildren kept before content
      intro g inside
      rcases List.mem_append.mp inside with inside | inside
      · exact before.child inside
      · exact added g inside

theorem everywhere_addToHead {e f : Element} {items : List Node} (receiver : e.Everywhere p)
    (added : ∀ g, Node.element g ∈ items → g.Everywhere p) (done : e.addToHead items = .ok f) :
    f.Everywhere p := by
  by_cases given : items = []
  · subst given
    cases done
    exact receiver
  cases content : e.void with
  | true =>
      rw [addToHead_of_void content given] at done
      cases done
  | false =>
      rw [addToHead_eq content given] at done
      obtain rfl := Except.ok.inj done
      apply everywhere_withChildren kept receiver content
      intro g member
      rcases List.mem_cons.mp member with same | member
      · cases same
        refine everywhere_headWith kept isHead_of_findSome? ?_ added
        intro head first
        obtain ⟨node, child, isHead⟩ := List.exists_of_findSome?_eq_some first
        obtain ⟨rfl, _⟩ := ofHead?_eq_some isHead
        exact receiver.child child
      · exact receiver.child (List.mem_of_mem_eraseP member)

theorem everywhere_bare {tag : String} (known : tag ∈ Table.tags) {children : List Node}
    (below : ∀ f, Node.element f ∈ children → f.Everywhere p) :
    (bare tag children).Everywhere p :=
  everywhere_of_toElement kept (Table.plain_eq known children) below

theorem everywhere_tree {t : Table}
    (cells : ∀ row ∈ t.rows, ∀ f, Node.element f ∈ row → f.Everywhere p) :
    t.tree.Everywhere p := by
  have names : ∀ name ∈ t.columns, (Table.nameTree name).Everywhere p := by
    intro name _
    exact everywhere_bare kept (by decide) (by simp)
  have header : (Table.headTree t.columns).Everywhere p := by
    apply everywhere_bare kept (by decide)
    simpa using everywhere_bare kept (show "tr" ∈ Table.tags by decide) (by simpa using names)
  have rows : ∀ row ∈ t.rows, (Table.rowTree row).Everywhere p := by
    intro row member
    apply everywhere_bare kept (by decide)
    have each : ∀ cell ∈ row, (Table.cellTree cell).Everywhere p := by
      intro cell inside
      apply everywhere_bare kept (by decide)
      intro f same
      exact cells row member f (List.mem_singleton.mp same ▸ inside)
    simpa using each
  have body : (Table.bodyTree t.rows).Everywhere p :=
    everywhere_bare kept (by decide) (by simpa using rows)
  exact everywhere_bare kept (by decide) (by simp [header, body])

/-- However a tree was made, all of its elements have what every built one has. -/
theorem Made.everywhere {e : Element} (made : e.Made) : e.Everywhere p := by
  induction made with
  | draft _ built ih => exact everywhere_of_toElement kept built ih
  | head _ _ done receiver added => exact everywhere_addToHead kept receiver added done
  | document _ _ done root added =>
      obtain ⟨e, rootDone, rfl⟩ := Except.map_eq_ok_iff.mp done
      exact everywhere_addToHead kept root added rootDone
  | selected _ found searched => exact everywhere_of_mem_matchesBelow searched found
  | found _ found searched =>
      exact everywhere_of_mem_matchesBelow searched (List.mem_of_head? found)
  | @table t _ _ built cells =>
      obtain rfl := Except.ok.inj (t.toElement_eq.symm.trans built)
      exact everywhere_tree kept cells
  | preset built => exact everywhere_of_toElement kept built (by simp)

end Everywhere

abbrev Legal (e : Element) : Prop := e.Everywhere LegalShape

theorem legalShape_of_toElement {d : Draft} {e : Element} (built : d.toElement = .ok e) :
    e.LegalShape := by
  obtain ⟨accepted, rfl⟩ := Draft.toElement_eq_ok_iff.mp built
  refine ⟨accepted.tag, rfl, accepted.content, ?_, ?_⟩
  · intro a member
    obtain ⟨entry, given, rfl⟩ := List.mem_map.mp member
    exact accepted.legalNames entry given
  · rw [attributes_mk, Draft.map_name_attributeOf]
    exact accepted.distinctNames

theorem LegalShape.withChildren {e : Element} (shape : e.LegalShape) (content : e.void = false)
    (children : List Node) : (e.withChildren children).LegalShape := by
  refine ⟨shape.tag, shape.void, ?_, shape.names, shape.distinct⟩
  intro isVoid
  rw [Element.withChildren, void_mk, content] at isVoid
  cases isVoid

theorem kept_legalShape : Kept LegalShape :=
  ⟨legalShape_of_toElement, LegalShape.void, LegalShape.withChildren⟩

end Element

theorem Element.Made.legal {e : Element} (made : e.Made) : e.Legal :=
  made.everywhere kept_legalShape

def Table.counts : Table := (Table.ofColumns ["n".toList]).push [.number (.ofNat 1)]

def Table.countsElement : Element :=
  ⟨"table".toList, [],
    [.element ⟨"thead".toList, [],
        [.element ⟨"tr".toList, [], [.element ⟨"th".toList, [], [.text ['n']], false⟩], false⟩],
        false⟩,
      .element ⟨"tbody".toList, [],
        [.element ⟨"tr".toList, [], [.element ⟨"td".toList, [], [.number (.ofNat 1)], false⟩],
          false⟩], false⟩], false⟩

def Preset.tacitLink : Element :=
  ⟨"link".toList,
    [⟨"rel".toList, .text "stylesheet".toList⟩, ⟨"href".toList, .text Preset.tacit.address.toList⟩],
    [], true⟩

def Document.withTable : Document where
  root := ⟨"html".toList, [⟨"lang".toList, .text "en".toList⟩],
    [.element Table.countsElement], false⟩

def Document.withLink : Document where
  root := ⟨"html".toList, [⟨"lang".toList, .text "en".toList⟩],
    [.element ⟨"head".toList, [], [.element Preset.tacitLink], false⟩,
      .element Table.countsElement], false⟩

theorem Document.withLink_made : withLink.root.Made := by
  have cells : ∀ row ∈ Table.counts.rows, ∀ f, Node.element f ∈ row → f.Made := by
    simp [Table.counts, Table.ofColumns, Table.push, Table.fit]
  have table : Table.countsElement.Made := .table (t := Table.counts) cells rfl
  have link : Preset.tacitLink.Made := .preset (p := .tacit) rfl
  have root : withTable.root.Made := by
    refine .draft
      (d := { tag := "HTML".toList,
              attributes := [("lang".toList, .text "en".toList)],
              children := [.element Table.countsElement] }) ?_ rfl
    simpa using table
  have added : ∀ f, Node.element f ∈ [Node.element Preset.tacitLink] → f.Made := by
    simpa using link
  exact .document root added rfl

theorem Tag.isLegal_iff {tag : Text} :
    isLegal tag = true ↔
      ∃ c rest, tag = c :: rest ∧ ('a' ≤ c ∧ c ≤ 'z') ∧
        ∀ d ∈ rest, ('a' ≤ d ∧ d ≤ 'z') ∨ ('0' ≤ d ∧ d ≤ '9') ∨ d = '-' := by
  have digit : ∀ d : Char, d.isDigit = true ↔ '0' ≤ d ∧ d ≤ '9' := by
    intro d
    simp only [Char.isDigit, Bool.and_eq_true, decide_eq_true_eq, ge_iff_le, Char.le_def]
  cases tag with
  | nil => simp [isLegal]
  | cons c rest => simp [isLegal, isSmallLetter, digit, or_assoc]

theorem Attribute.isName_iff {name : Text} :
    isName name = true ↔
      name ≠ [] ∧ ∀ c ∈ name, Text.isBlank c = false ∧ Text.isControl c = false ∧
        c ∉ ['"', '\'', '>', '/', '=', '<'] := by
  simp [isName, endsName, and_assoc]

/-- However a tree was made, every element in it is one that a start tag can be written for, and the
void ones are empty. -/
theorem Element.Made.shape_of_mem_nodes {e : Element} (made : e.Made) :
    ∀ f, Node.element f ∈ e.nodes →
      (∃ c rest, f.tag = c :: rest ∧ ('a' ≤ c ∧ c ≤ 'z') ∧
        ∀ d ∈ rest, ('a' ≤ d ∧ d ≤ 'z') ∨ ('0' ≤ d ∧ d ≤ '9') ∨ d = '-') ∧
      f.void = Tag.isVoid f.tag ∧ (f.void = true → f.children = []) ∧
      (∀ a ∈ f.attributes, a.name ≠ [] ∧ ∀ c ∈ a.name,
        Text.isBlank c = false ∧ Text.isControl c = false ∧
          c ∉ ['"', '\'', '>', '/', '=', '<']) ∧
      (f.attributes.map (·.name)).Nodup := by
  intro f inside
  have shape : f.LegalShape := made.legal.of_mem_nodes inside
  refine ⟨Tag.isLegal_iff.mp shape.tag, shape.void, shape.content, ?_, shape.distinct⟩
  intro a member
  exact Attribute.isName_iff.mp (shape.names a member)

theorem Element.Made.shape_of_mem_nodes_withLink :
    Document.withLink.root.Made ∧ Node.element Preset.tacitLink ∈ Document.withLink.root.nodes ∧
      Preset.tacitLink.void = true ∧ Preset.tacitLink.children = [] ∧
      (Preset.tacitLink.attributes.map (·.name)).Nodup ∧
      ∀ f, Node.element f ∈ Document.withLink.root.nodes →
        f.void = Tag.isVoid f.tag ∧ (f.void = true → f.children = []) := by
  have shapes := Document.withLink_made.shape_of_mem_nodes
  have inside : Node.element Preset.tacitLink ∈ Document.withLink.root.nodes :=
    mem_nodes_of_child List.mem_cons_self
      (mem_nodes_of_child List.mem_cons_self (Node.mem_nodes _))
  obtain ⟨_, void, empty, _, distinct⟩ := shapes Preset.tacitLink inside
  refine ⟨Document.withLink_made, inside, void, empty void, distinct, ?_⟩
  intro f member
  obtain ⟨_, void, empty, _, _⟩ := shapes f member
  exact ⟨void, empty⟩

namespace Element

/-- A tree with a text, a void element, a number and an attribute of each kind. -/
def paragraph : Element :=
  ⟨['p'],
    [⟨"class".toList, .list ["a".toList, "b".toList]⟩, ⟨"hidden".toList, .flag true⟩,
      ⟨"lang".toList, .null⟩, ⟨"title".toList, .text "\"<\"".toList⟩],
    [.text "x & y".toList, .element ⟨"br".toList, [], [], true⟩, .number (.ofNat 3)], false⟩

theorem paragraph_made : paragraph.Made := by
  have lineBreak : Made ⟨"br".toList, [], [], true⟩ :=
    .draft (d := { tag := "BR".toList }) (by simp) rfl
  refine .draft
    (d := { tag := ['p'],
            attributes := [("class_".toList, .list ["a".toList, "b".toList]),
              ("hidden".toList, .flag true), ("lang".toList, .null),
              ("title".toList, .text "\"<\"".toList)],
            children := paragraph.children }) ?_ rfl
  simpa [paragraph] using lineBreak

end Element

end Hypertext
