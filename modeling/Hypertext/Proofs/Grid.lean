import Hypertext.Page.Table
import Hypertext.Proofs.Drafts

/-! Tables as trees. All tags of a table are legal and may have content, so every table has a tree,
whatever its names and cells are. -/

namespace Hypertext

/-- An element without attributes that may have content. -/
def Element.bare (tag : String) (children : List Node) : Element := ⟨tag.toList, [], children, false⟩

namespace Table

def tags : List String := ["table", "thead", "tbody", "tr", "th", "td"]

theorem plain_eq {tag : String} (known : tag ∈ tags) (children : List Node) :
    plain tag children = .ok (.bare tag children) := by
  simp only [tags, List.mem_cons, List.not_mem_nil, or_false] at known
  rcases known with rfl | rfl | rfl | rfl | rfl | rfl <;> rfl

def nameTree (name : Text) : Element := .bare "th" [.text name]

def cellTree (cell : Node) : Element := .bare "td" [cell]

def rowTree (row : List Node) : Element := .bare "tr" (row.map fun cell => .element (cellTree cell))

def headTree (columns : List Text) : Element :=
  .bare "thead" [.element (.bare "tr" (columns.map fun name => .element (nameTree name)))]

def bodyTree (rows : List (List Node)) : Element :=
  .bare "tbody" (rows.map fun row => .element (rowTree row))

def tree (t : Table) : Element :=
  .bare "table" [.element (headTree t.columns), .element (bodyTree t.rows)]

theorem rowElement_eq : rowElement = fun row => .ok (rowTree row) := by
  funext row
  simp (disch := decide) only [rowElement, plain_eq, Except.mapM_ok, bind, Except.bind,
    List.map_map]
  rfl

theorem toElement_eq (t : Table) : t.toElement = .ok t.tree := by
  simp (disch := decide) only [toElement, plain_eq, rowElement_eq, Except.mapM_ok, bind,
    Except.bind, List.map_map]
  rfl

end Table

end Hypertext
