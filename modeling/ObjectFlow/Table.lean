/-!
# Tables

A table gives values to some keys.  Keys keep the place where they were first set.
-/

namespace ObjectFlow

structure Table (κ α : Type) where
  rows : List (κ × α) := []
  deriving DecidableEq, Repr

namespace Table

variable {κ α : Type} [DecidableEq κ]

/-- The value of a key. -/
def get? (table : Table κ α) (key : κ) : Option α := table.rows.lookup key

/-- Replaces the value of a key in its row, or adds a row at the end. -/
def setRow (key : κ) (value : α) : List (κ × α) → List (κ × α)
  | [] => [(key, value)]
  | (k, v) :: rest => if k = key then (key, value) :: rest else (k, v) :: setRow key value rest

def set (table : Table κ α) (key : κ) (value : α) : Table κ α := ⟨setRow key value table.rows⟩

/-- The same value for each of several keys. -/
def constant (keys : List κ) (value : α) : Table κ α :=
  keys.foldl (fun table key => table.set key value) {}

def keys (table : Table κ α) : List κ := table.rows.map (·.1)

def size (table : Table κ α) : Nat := table.rows.length

end Table

end ObjectFlow
