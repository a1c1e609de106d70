/-!
# Memo cells

A memo cell holds the last value computed for a quantity, whether that value is still up to date,
and how often it has been computed. `current?` is what a look-up sees: the value of a valid cell.
-/

namespace ConvexContact

/-- A memorized value. -/
structure MemoCell (α : Type) where
  value : Option α
  valid : Bool
  /-- how often a value has been stored -/
  updates : Nat
  deriving DecidableEq, Repr

namespace MemoCell

variable {α : Type}

/-- The cell before any value. -/
def empty : MemoCell α := ⟨none, false, 0⟩

/-- Stores a value, which is then up to date. -/
def set (cell : MemoCell α) (x : α) : MemoCell α := ⟨some x, true, cell.updates + 1⟩

/-- Marks the value as out of date. -/
def invalidate (cell : MemoCell α) : MemoCell α := { cell with valid := false }

/-- The value, if it is up to date. -/
def current? (cell : MemoCell α) : Option α := if cell.valid then cell.value else none

@[simp] theorem current?_empty : (empty : MemoCell α).current? = none := rfl

@[simp] theorem current?_set (cell : MemoCell α) (x : α) : (cell.set x).current? = some x := rfl

@[simp] theorem current?_invalidate (cell : MemoCell α) : cell.invalidate.current? = none := rfl

@[simp] theorem updates_set (cell : MemoCell α) (x : α) :
    (cell.set x).updates = cell.updates + 1 := rfl

@[simp] theorem updates_invalidate (cell : MemoCell α) :
    cell.invalidate.updates = cell.updates := rfl

end MemoCell

end ConvexContact
