import Hypertext.Text.Basic
import Hypertext.Number.Binary64

/-! Styles: ordered mappings from keys to values, where a value may be a style again.

A key is a property name when its value is a scalar and a selector when it is a scope. Inserting
under a key that is there replaces the value in its place, so keys stand in the order in which they
were first seen. -/

namespace Hypertext

inductive Scalar where
  | text (t : Text)
  | number (x : Binary64)
  /-- No value; a style that holds one cannot be written. -/
  | null
  deriving DecidableEq, Repr

/-- The entries in order, each in front of the ones after it. -/
inductive Style where
  | nil
  | property (key : Text) (value : Scalar) (rest : Style)
  | scope (key : Text) (inner : Style) (rest : Style)
  deriving DecidableEq, Repr

inductive Value where
  | scalar (s : Scalar)
  | scope (s : Style)
  deriving DecidableEq, Repr

namespace Style

def cons (key : Text) (value : Value) (rest : Style) : Style :=
  match value with
  | .scalar v => .property key v rest
  | .scope inner => .scope key inner rest

def entries : Style → List (Text × Value)
  | .nil => []
  | .property key v rest => (key, .scalar v) :: entries rest
  | .scope key inner rest => (key, .scope inner) :: entries rest

def keys (s : Style) : List Text := s.entries.map Prod.fst

def size (s : Style) : Nat := s.entries.length

def isEmpty (s : Style) : Bool := s.entries.isEmpty

def get? (key : Text) : Style → Option Value
  | .nil => none
  | .property k v rest => if k = key then some (.scalar v) else get? key rest
  | .scope k inner rest => if k = key then some (.scope inner) else get? key rest

def insert (key : Text) (value : Value) : Style → Style
  | .nil => cons key value .nil
  | .property k v rest =>
      if k = key then cons key value rest else .property k v (insert key value rest)
  | .scope k inner rest =>
      if k = key then cons key value rest else .scope k inner (insert key value rest)

def merge (a : Style) : Style → Style
  | .nil => a
  | .property key v rest => merge (a.insert key (.scalar v)) rest
  | .scope key inner rest => merge (a.insert key (.scope inner)) rest

instance : Append Style := ⟨merge⟩

def ofEntries (entries : List (Text × Value)) : Style :=
  entries.foldl (fun s entry => s.insert entry.1 entry.2) .nil

/-- A style whose one entry is the given style as a scope. -/
def under (key : Text) (inner : Style) : Style := .scope key inner .nil

@[simp]
theorem entries_cons (key : Text) (value : Value) (rest : Style) :
    (cons key value rest).entries = (key, value) :: rest.entries := by
  cases value <;> rfl

theorem merge_eq_foldl (a b : Style) :
    a ++ b = b.entries.foldl (fun s entry => s.insert entry.1 entry.2) a := by
  change merge a b = _
  induction b generalizing a with
  | nil => rfl
  | property key v rest ih => exact ih _
  | scope key inner rest _ ih => exact ih _

end Style

end Hypertext
