import Hypertext.Page.Table
import Mathlib.Data.List.DropRight
import Mathlib.Data.List.Forall2

/-! The rows of a table after any calls. As long as there are rows the columns stay, so all rows have
been fitted to the columns that the table has now. -/

namespace Hypertext.Table

/-- A call that may change a table. -/
inductive Change where
  | rename (columns : List Text)
  | push (row : List Node)
  | pushAll (rows : List (List Node))
  | clear

namespace Change

def isClear : Change → Bool
  | clear => true
  | _ => false

def rows : Change → List (List Node)
  | rename _ => []
  | push row => [row]
  | pushAll rows => rows
  | clear => []

def added (changes : List Change) : List (List Node) :=
  (changes.rtakeWhile (!·.isClear)).flatMap rows

theorem added_concat (changes : List Change) (change : Change) :
    added (changes ++ [change]) = if change.isClear then [] else added changes ++ change.rows := by
  cases clear : change.isClear <;> simp [added, clear]

end Change

/-- A call that is refused leaves the table as it is. -/
def after (t : Table) : Change → Table
  | .rename columns =>
      match t.renameColumns columns with
      | .ok renamed => renamed
      | .error _ => t
  | .push row => t.push row
  | .pushAll rows => t.pushAll rows
  | .clear => t.clear

def run (t : Table) (changes : List Change) : Table := changes.foldl after t

theorem run_concat (t : Table) (changes : List Change) (change : Change) :
    t.run (changes ++ [change]) = (t.run changes).after change :=
  List.foldl_concat ..

theorem renameColumns_of_nil {t : Table} (none : t.rows = []) (columns : List Text) :
    t.renameColumns columns = .ok ⟨columns, []⟩ := by
  simp [renameColumns, none]

theorem renameColumns_of_ne_nil {t : Table} (some : t.rows ≠ []) (columns : List Text) :
    t.renameColumns columns = .error ⟨t.rows.length⟩ := by
  simp [renameColumns, some]

/-- The row has the cells that were given, as many as there are columns, and then empty texts. -/
structure Fits (width : Nat) (given row : List Node) : Prop where
  length : row.length = width
  cells : ∀ i < width, row[i]? = some (given[i]?.getD (.text []))

theorem fits_fit (width : Nat) (given : List Node) : Fits width given (fit width given) := by
  constructor
  · simp only [fit, List.length_append, List.length_take, List.length_replicate]
    omega
  · intro i inside
    by_cases present : i < given.length
    · have kept : i < (given.take width).length := by
        rw [List.length_take]
        omega
      rw [fit, List.getElem?_append_left kept, List.getElem?_take_of_lt inside,
        List.getElem?_eq_getElem present, Option.getD_some]
    · have absent : given.length ≤ i := Nat.le_of_not_lt present
      have short : given.length ≤ width := absent.trans inside.le
      rw [fit, List.take_of_length_le short, List.getElem?_append_right absent,
        List.getElem?_replicate_of_lt (Nat.sub_lt_sub_right absent inside),
        List.getElem?_eq_none absent, Option.getD_none]

/-- The rows of a table are the given ones, fitted to its columns. -/
def Holds (t : Table) (given : List (List Node)) : Prop :=
  List.Forall₂ (Fits t.columns.length) given t.rows

variable {t : Table} {given : List (List Node)}

theorem Holds.push (holds : t.Holds given) (row : List Node) :
    (t.push row).Holds (given ++ [row]) :=
  List.rel_append holds (.cons (fits_fit _ row) .nil)

theorem Holds.pushAll (holds : t.Holds given) (rows : List (List Node)) :
    (t.pushAll rows).Holds (given ++ rows) := by
  induction rows generalizing t given with
  | nil => rwa [List.append_nil]
  | cons row rest ih =>
      rw [List.append_cons]
      exact ih (holds.push row)

theorem Holds.rename (holds : t.Holds given) (columns : List Text) :
    (t.after (.rename columns)).Holds given := by
  by_cases none : t.rows = []
  · rw [Holds, none, List.forall₂_nil_right_iff] at holds
    rw [Table.after, renameColumns_of_nil none, holds]
    exact .nil
  · rwa [Table.after, renameColumns_of_ne_nil none]

theorem Holds.after (holds : t.Holds given) (change : Change) :
    (t.after change).Holds (if change.isClear then [] else given ++ change.rows) := by
  cases change with
  | rename columns =>
      rw [Change.rows, List.append_nil]
      exact holds.rename columns
  | push row => exact holds.push row
  | pushAll rows => exact holds.pushAll rows
  | clear => exact .nil

theorem holds_run (columns : List Text) (changes : List Change) :
    ((ofColumns columns).run changes).Holds (Change.added changes) := by
  induction changes using List.reverseRecOn with
  | nil => exact .nil
  | append_singleton changes change ih =>
      rw [run_concat, Change.added_concat]
      exact ih.after change

/-- After any calls, those among them that are refused included, a table has the rows that were added
since it was cleared, fitted to its columns. The columns can be renamed just when there are none. -/
theorem forall₂_fits_of_run (columns : List Text) (changes : List Change) :
    let t := (ofColumns columns).run changes
    List.Forall₂ (Fits t.columns.length) (Change.added changes) t.rows ∧
      ∀ names,
        ((∃ e, t.renameColumns names = .error e) ↔ t.rows ≠ []) ∧
        (∀ e, t.renameColumns names = .error e →
          e.rows = t.rows.length ∧ t.after (.rename names) = t) ∧
        ∀ renamed, t.renameColumns names = .ok renamed →
          renamed.columns = names ∧ renamed.rows = t.rows := by
  intro t
  refine ⟨holds_run columns changes, ?_⟩
  intro names
  by_cases none : t.rows = []
  · have accepted := renameColumns_of_nil none names
    simp [accepted, none]
  · have refused := renameColumns_of_ne_nil none names
    simp [refused, none, after]

-- One column cannot become none while there is a row, and two columns once there is no row.
example :
    (ofColumns [['a']]).run
      [.push [.text ['1'], .text ['2']], .rename [], .clear, .rename [['b'], ['c']],
        .push [.text ['3']]] =
      ⟨[['b'], ['c']], [[.text ['3'], .text []]]⟩ := rfl

end Hypertext.Table
