import Hypertext.Proofs.Grid
import Hypertext.Proofs.Normal
import Hypertext.Proofs.Refusal

/-! Tables as text. A table is written cell by cell between the tags of its grid, or it is refused
for its first cell, row by row, that has no text. -/

namespace Hypertext

/-- A number that is not finite, or a tree that holds one. -/
def Node.Unwritable : Node → Prop
  | .element e => ∃ f, Node.element f ∈ e.nodes ∧ ∃ x, f.Owns x ∧ x.isFinite = false
  | .text _ => False
  | .number x => x.isFinite = false
  | .raw _ => False

namespace Element

theorem render_eq_ok_iff {e : Element} {text : Text} :
    e.render = .ok text ↔ e.bad? = none ∧ text = e.markup := by
  cases clean : e.bad? with
  | some error => simp [(refused_of_bad? clean).text]
  | none => simp [(writtenInFull_of_bad? clean).text, markup, eq_comm]

theorem render_eq_error_iff {e : Element} {error : UnwritableNumber} :
    e.render = .error error ↔ e.bad? = some error := by
  cases clean : e.bad? with
  | some error => simp [(refused_of_bad? clean).text]
  | none => simp [(writtenInFull_of_bad? clean).text]

end Element

namespace Table

def Shows : Node → Text → Prop
  | .element e, text => e.render = .ok text
  | .text t, text => text = escape t
  | .number x, text => x.isFinite ∧ text = x.toText
  | .raw markup, text => text = markup

/-- The error of a cell: a tree has its own, and a number is blamed on the cell. -/
def Blames : Node → UnwritableNumber → Prop
  | .element e, error => e.FirstBad error
  | .text _, _ => False
  | .number x, error => x.isFinite = false ∧ error = ⟨"td".toList, x⟩
  | .raw _, _ => False

def FirstBadCell (cells : List Node) (error : UnwritableNumber) : Prop :=
  ∃ before cell after, cells = before ++ cell :: after ∧ Blames cell error ∧
    ∀ earlier ∈ before, ¬earlier.Unwritable

/-- The markup of a table around the texts of its cells. -/
def gridText (columns : List Text) (rows : List (List Text)) : Text :=
  "<table><thead><tr>".toList ++
    (columns.flatMap fun name => "<th>".toList ++ escape name ++ "</th>".toList) ++
    "</tr></thead><tbody>".toList ++
    (rows.flatMap fun row =>
      "<tr>".toList ++ (row.flatMap fun cell => "<td>".toList ++ cell ++ "</td>".toList) ++
        "</tr>".toList) ++
    "</tbody></table>".toList

def cellError? (cell : Node) : Option UnwritableNumber :=
  firstNonFinite? (cell.numbers "td".toList)

theorem cellError?_element (e : Element) : cellError? (.element e) = e.bad? := by
  rw [cellError?, Node.numbers, e.bad?_eq]

theorem cellError?_number (x : Binary64) :
    cellError? (.number x) = nonFinite? "td".toList x := by
  rw [cellError?, Node.numbers, firstNonFinite?_singleton]

theorem cellError?_text (t : Text) : cellError? (.text t) = none := rfl

theorem cellError?_raw (markup : Text) : cellError? (.raw markup) = none := rfl

theorem cellError?_eq_some_iff {cell : Node} {error : UnwritableNumber} :
    cellError? cell = some error ↔ Blames cell error := by
  cases cell with
  | element e => rw [cellError?_element, Element.bad?_eq_some_iff, Blames]
  | text t => simp [cellError?_text, Blames]
  | number x =>
      obtain ⟨tag, value⟩ := error
      rw [cellError?_number, nonFinite?, Blames]
      cases x.isFinite <;> simp [eq_comm]
  | raw markup => simp [cellError?_raw, Blames]

theorem cellError?_eq_none_iff {cell : Node} : cellError? cell = none ↔ ¬cell.Unwritable := by
  cases cell with
  | element e =>
      rw [cellError?_element, Element.bad?_eq_none_iff, Node.Unwritable]
      push Not
      simp only [ne_eq, Bool.not_eq_false]
  | text t => simp [cellError?_text, Node.Unwritable]
  | number x => simp [cellError?_number, nonFinite?, Node.Unwritable]
  | raw markup => simp [cellError?_raw, Node.Unwritable]

/-- A cell shows its markup or nothing. -/
theorem shows_iff {cell : Node} {text : Text} :
    Shows cell text ↔ cellError? cell = none ∧ text = cell.markup := by
  cases cell with
  | element e => rw [Shows, Element.render_eq_ok_iff, cellError?_element, Node.markup_element]
  | text t => simp [Shows, cellError?_text]
  | number x => simp [Shows, cellError?_number, nonFinite?]
  | raw markup => simp [Shows, cellError?_raw, Node.markup, Node.pieces]

theorem numbers_bare (tag : String) (children : List Node) :
    (Element.bare tag children).numbers = children.flatMap (Node.numbers tag.toList) := by
  simp [Element.numbers_eq, Element.bare]

theorem numbers_tree (t : Table) :
    t.tree.numbers = t.rows.flatten.flatMap (Node.numbers "td".toList) := by
  have head : (headTree t.columns).numbers = [] := by
    simp [headTree, nameTree, numbers_bare, Node.numbers, List.flatMap_map]
  have row : ∀ row, (rowTree row).numbers = row.flatMap (Node.numbers "td".toList) := by
    intro row
    simp [rowTree, cellTree, numbers_bare, Node.numbers, List.flatMap_map]
  have body : (bodyTree t.rows).numbers =
      t.rows.flatMap fun row => row.flatMap (Node.numbers "td".toList) := by
    simp [bodyTree, numbers_bare, Node.numbers, List.flatMap_map, row]
  rw [tree, numbers_bare, List.flatMap_cons, List.flatMap_singleton, Node.numbers, Node.numbers,
    head, body, List.nil_append, List.flatten_eq_flatMap, List.flatMap_assoc]
  rfl

def opening (tag : String) : Text := '<' :: tag.toList ++ ['>']

def closing (tag : String) : Text := '<' :: '/' :: tag.toList ++ ['>']

theorem markup_bare (tag : String) (children : List Node) :
    (Element.bare tag children).markup =
      opening tag ++ (children.flatMap Node.markup ++ closing tag) := by
  simp [Element.markup_eq, Element.bare, startTag, endTag, opening, closing]

theorem markup_rowTree (row : List Node) :
    (rowTree row).markup =
      opening "tr" ++
        ((row.flatMap fun cell => opening "td" ++ (cell.markup ++ closing "td")) ++
          closing "tr") := by
  simp only [rowTree, cellTree, markup_bare, List.flatMap_map, Node.markup_element,
    List.flatMap_singleton]

theorem gridText_eq (columns : List Text) (rows : List (List Text)) :
    gridText columns rows =
      (opening "table" ++ (opening "thead" ++ opening "tr")) ++
        (columns.flatMap fun name => opening "th" ++ escape name ++ closing "th") ++
        (closing "tr" ++ (closing "thead" ++ opening "tbody")) ++
        (rows.flatMap fun row =>
          opening "tr" ++ (row.flatMap fun cell => opening "td" ++ cell ++ closing "td") ++
            closing "tr") ++
        (closing "tbody" ++ closing "table") :=
  rfl

theorem markup_tree (t : Table) :
    t.tree.markup = gridText t.columns (t.rows.map (·.map Node.markup)) := by
  simp only [gridText_eq, tree, headTree, bodyTree, nameTree, markup_bare, markup_rowTree,
    List.flatMap_cons, List.flatMap_nil, List.flatMap_map, Node.markup_element, Node.markup_text,
    List.append_assoc, List.append_nil]

theorem firstNonFinite?_flatMap {α : Type} (numbers : α → List (Text × Binary64)) (xs : List α) :
    firstNonFinite? (xs.flatMap numbers) = xs.findSome? fun x => firstNonFinite? (numbers x) := by
  induction xs with
  | nil => rfl
  | cons x rest ih =>
      rw [List.flatMap_cons, firstNonFinite?_append, ih, List.findSome?_cons_eq_or]

theorem bad?_tree (t : Table) : t.tree.bad? = t.rows.flatten.findSome? cellError? := by
  rw [Element.bad?_eq, numbers_tree, firstNonFinite?_flatMap]
  rfl

theorem render_eq (t : Table) : t.render = t.tree.render.mapError .number := by
  rw [render, toElement_eq]
  rfl

theorem bad?_tree_eq_none_iff {t : Table} :
    t.tree.bad? = none ↔ ∀ row ∈ t.rows, ∀ cell ∈ row, cellError? cell = none := by
  rw [bad?_tree, List.findSome?_eq_none_iff]
  simp only [List.mem_flatten]
  constructor
  · intro clean row member cell inside
    exact clean cell ⟨row, member, inside⟩
  · rintro clean cell ⟨row, member, inside⟩
    exact clean row member cell inside

theorem bad?_tree_eq_some_iff {t : Table} {error : UnwritableNumber} :
    t.tree.bad? = some error ↔ FirstBadCell t.rows.flatten error := by
  rw [bad?_tree]
  exact List.findSome?_eq_some_iff_first (fun _ _ => cellError?_eq_none_iff)
    fun _ _ => cellError?_eq_some_iff

/-- The rows of a table show their markup, cell by cell. -/
theorem forall₂_shows_iff {rows : List (List Node)} {texts : List (List Text)} :
    List.Forall₂ (List.Forall₂ Shows) rows texts ↔
      (∀ row ∈ rows, ∀ cell ∈ row, cellError? cell = none) ∧
        texts = rows.map (·.map Node.markup) := by
  have cell : ∀ cell text, Shows cell text ↔ cellError? cell = none ∧ text = cell.markup :=
    fun _ _ => shows_iff
  have row : ∀ row texts, List.Forall₂ Shows row texts ↔
      (∀ cell ∈ row, cellError? cell = none) ∧ texts = row.map Node.markup :=
    fun _ _ => List.forall₂_iff_eq_map cell
  exact List.forall₂_iff_eq_map row

/-- Every table is an element. Its text is that of its cells between the tags of the grid, and a
table that has none is refused for its first cell without one, row by row. -/
theorem render_outcome (t : Table) :
    (∃ e, t.toElement = .ok e) ∧
      ((∃ error, t.render = .error error) ↔ ∃ row ∈ t.rows, ∃ cell ∈ row, cell.Unwritable) ∧
      (∀ error, t.render = .error error ↔
        ∃ bad, error = .number bad ∧ FirstBadCell t.rows.flatten bad) ∧
      ∀ text, t.render = .ok text ↔
        ∃ texts, List.Forall₂ (List.Forall₂ Shows) t.rows texts ∧
          text = gridText t.columns texts := by
  have failed : (∃ error, t.render = .error error) ↔ t.tree.bad? ≠ none := by
    simp [render_eq, Except.mapError_eq_error_iff, Element.render_eq_error_iff,
      Option.ne_none_iff_exists']
  refine ⟨⟨_, t.toElement_eq⟩, ?_, ?_, ?_⟩
  · rw [failed, ne_eq, bad?_tree_eq_none_iff]
    simp only [cellError?_eq_none_iff]
    push Not
    rfl
  · intro error
    simp only [render_eq, Except.mapError_eq_error_iff, Element.render_eq_error_iff,
      bad?_tree_eq_some_iff]
    constructor
    · rintro ⟨bad, first, rfl⟩
      exact ⟨bad, rfl, first⟩
    · rintro ⟨bad, rfl, first⟩
      exact ⟨bad, first, rfl⟩
  · intro text
    rw [render_eq, Except.mapError_eq_ok_iff, Element.render_eq_ok_iff, bad?_tree_eq_none_iff,
      markup_tree]
    simp only [forall₂_shows_iff]
    constructor
    · rintro ⟨clean, rfl⟩
      exact ⟨_, ⟨clean, rfl⟩, rfl⟩
    · rintro ⟨texts, ⟨clean, rfl⟩, rfl⟩
      exact ⟨clean, rfl⟩

-- The first cell without a text is a tree, which has its own error; the number comes after it.
example :
    let item : Node := .element ⟨['b'], [⟨['x'], .number .nan⟩], [], false⟩
    (Table.mk [['a'], ['c']] [[.text ['<'], item], [.number (.infinite true), .raw []]]).tree.bad? =
      some ⟨['b'], .nan⟩ := by
  simp only [bad?_tree]
  decide

end Table

end Hypertext
