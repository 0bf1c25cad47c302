import Hypertext.Page.Response

/-! Tables: named columns and rows of cells, always as wide as the columns. -/

namespace Hypertext

structure Table where
  columns : List Text
  rows : List (List Node)

/-- The number of rows that keep the columns from being renamed. -/
structure ColumnsLocked where
  rows : Nat
  deriving DecidableEq, Repr

def ColumnsLocked.message (e : ColumnsLocked) : Text :=
  "Cannot set columns after ".toList ++ Text.ofNat e.rows ++
    " row(s) were added; clear the rows first".toList

namespace Table

def ofColumns (columns : List Text) : Table := ⟨columns, []⟩

def renameColumns (t : Table) (columns : List Text) : Except ColumnsLocked Table :=
  if t.rows.isEmpty then .ok { t with columns := columns } else .error ⟨t.rows.length⟩

/-- A row as wide as the table: cells too many are dropped and missing ones are empty texts. -/
def fit (width : Nat) (row : List Node) : List Node :=
  row.take width ++ List.replicate (width - row.length) (.text [])

def push (t : Table) (row : List Node) : Table :=
  { t with rows := t.rows ++ [fit t.columns.length row] }

def pushAll (t : Table) (rows : List (List Node)) : Table := rows.foldl push t

def clear (t : Table) : Table := { t with rows := [] }

def plain (tag : String) (children : List Node) : Except ShapeError Element :=
  Draft.toElement { tag := tag.toList, children := children }

def rowElement (row : List Node) : Except ShapeError Element := do
  let cells ← row.mapM fun cell => plain "td" [cell]
  plain "tr" (cells.map .element)

/-- A head with one row of names and a body with the rows. -/
def toElement (t : Table) : Except ShapeError Element := do
  let names ← t.columns.mapM fun name => plain "th" [.text name]
  let rows ← t.rows.mapM rowElement
  let header ← plain "tr" (names.map .element)
  let head ← plain "thead" [.element header]
  let body ← plain "tbody" (rows.map .element)
  plain "table" [.element head, .element body]

def render (t : Table) : Except ResponseError Text := do
  let e ← t.toElement.mapError .shape
  e.render.mapError .number

instance : ToResponse Table where
  contentType := .html
  body := render

end Table

end Hypertext
