import ConvexContact.Memo.Cell
import ConvexContact.Memo.Quantity

/-!
# Model states

A model state holds velocities together with a memo cell for each quantity derived from them.
`ModelState.setVelocities` replaces the velocities and marks every cell as out of date.

The contents of the cells are a parameter `F`; `Quantity.Value K` is the one that models use.
-/

namespace ConvexContact

/-- A memo cell for each quantity. -/
structure MemoTable (F : Quantity → Type) where
  constraintVelocities : MemoCell (F .constraintVelocities)
  momentum : MemoCell (F .momentum)
  momentumGain : MemoCell (F .momentumGain)
  momentumCost : MemoCell (F .momentumCost)
  unprojectedImpulses : MemoCell (F .unprojectedImpulses)
  impulses : MemoCell (F .impulses)
  constraintsHessian : MemoCell (F .constraintsHessian)
  regularizerCost : MemoCell (F .regularizerCost)
  cost : MemoCell (F .cost)
  costGradient : MemoCell (F .costGradient)
  hessian : MemoCell (F .hessian)

namespace MemoTable

variable {F : Quantity → Type}

/-- The table with a given cell for each quantity. -/
def ofFn (f : (q : Quantity) → MemoCell (F q)) : MemoTable F :=
  ⟨f _, f _, f _, f _, f _, f _, f _, f _, f _, f _, f _⟩

/-- The table without values. -/
def empty : MemoTable F := ofFn fun _ => MemoCell.empty

/-- The cell of a quantity. -/
def get (t : MemoTable F) : (q : Quantity) → MemoCell (F q)
  | .constraintVelocities => t.constraintVelocities
  | .momentum => t.momentum
  | .momentumGain => t.momentumGain
  | .momentumCost => t.momentumCost
  | .unprojectedImpulses => t.unprojectedImpulses
  | .impulses => t.impulses
  | .constraintsHessian => t.constraintsHessian
  | .regularizerCost => t.regularizerCost
  | .cost => t.cost
  | .costGradient => t.costGradient
  | .hessian => t.hessian

/-- Replaces the cell of a quantity. -/
def put (t : MemoTable F) : (q : Quantity) → MemoCell (F q) → MemoTable F
  | .constraintVelocities, c => { t with constraintVelocities := c }
  | .momentum, c => { t with momentum := c }
  | .momentumGain, c => { t with momentumGain := c }
  | .momentumCost, c => { t with momentumCost := c }
  | .unprojectedImpulses, c => { t with unprojectedImpulses := c }
  | .impulses, c => { t with impulses := c }
  | .constraintsHessian, c => { t with constraintsHessian := c }
  | .regularizerCost, c => { t with regularizerCost := c }
  | .cost, c => { t with cost := c }
  | .costGradient, c => { t with costGradient := c }
  | .hessian, c => { t with hessian := c }

/-- Stores a value for a quantity. -/
def set (t : MemoTable F) (q : Quantity) (x : F q) : MemoTable F := t.put q ((t.get q).set x)

/-- Marks every value as out of date. -/
def invalidate (t : MemoTable F) : MemoTable F := ofFn fun q => (t.get q).invalidate

/-- Whether the value of each quantity is up to date, in the order of their numbers. -/
def validFlags (t : MemoTable F) : List Bool := Quantity.all.map fun q => (t.get q).valid

/-- How often a value has been stored for each quantity, in the order of their numbers. -/
def updateCounts (t : MemoTable F) : List Nat := Quantity.all.map fun q => (t.get q).updates

@[simp] theorem get_ofFn (f : (q : Quantity) → MemoCell (F q)) (q : Quantity) :
    (ofFn f).get q = f q := by
  cases q <;> rfl

@[simp] theorem get_put_self (t : MemoTable F) (q : Quantity) (c : MemoCell (F q)) :
    (t.put q c).get q = c := by
  cases q <;> rfl

theorem get_put_of_ne (t : MemoTable F) {q r : Quantity} (c : MemoCell (F q)) (h : r ≠ q) :
    (t.put q c).get r = t.get r := by
  cases q <;> cases r <;> simp_all [put, get]

@[simp] theorem get_invalidate (t : MemoTable F) (q : Quantity) :
    t.invalidate.get q = (t.get q).invalidate := by
  simp [invalidate]

/-- Tables with the same cells are equal. -/
theorem ext_get {s t : MemoTable F} (h : ∀ q, s.get q = t.get q) : s = t := by
  cases s
  cases t
  simp only [mk.injEq]
  exact ⟨h .constraintVelocities, h .momentum, h .momentumGain, h .momentumCost,
    h .unprojectedImpulses, h .impulses, h .constraintsHessian, h .regularizerCost, h .cost,
    h .costGradient, h .hessian⟩

end MemoTable

/-- Velocities with the quantities derived from them. -/
structure ModelState (K : Type) (F : Quantity → Type) where
  /-- how many velocities the state is for -/
  size : Int
  velocities : Option (Vec K)
  memo : MemoTable F

namespace ModelState

variable {K : Type} {F : Quantity → Type}

/-- A state without velocities. -/
def empty (size : Int) : ModelState K F := ⟨size, none, MemoTable.empty⟩

/-- Whether velocities have been set. -/
def hasVelocities (s : ModelState K F) : Bool := s.velocities.isSome

/-- The velocities, which must have been set. -/
def velocitiesOrError (s : ModelState K F) : Except (Error K) (Vec K) :=
  match s.velocities with
  | some v => .ok v
  | none => .error .velocitiesMissing

/-- Replaces the velocities by ones of the right size and marks every quantity as out of date. -/
def replace (s : ModelState K F) (v : Vec K) : ModelState K F :=
  { s with velocities := some v, memo := s.memo.invalidate }

/-- Sets the velocities to a tensor, which must be a vector of the size of the state. -/
def setVelocities (s : ModelState K F) (v : Given K) : Except (Error K) (ModelState K F) :=
  match v with
  | .nested t => .error (.velocitiesNotATensor t.format t.rank)
  | .tensor t =>
    match Vec.ofTensor? t with
    | none => .error (.velocityShape s.size t.shape)
    | some v =>
      if (v.size : Int) ≠ s.size then .error (.velocityShape s.size t.shape) else .ok (s.replace v)

/-- Stores a value for a quantity. -/
def store (s : ModelState K F) (q : Quantity) (x : F q) : ModelState K F :=
  { s with memo := s.memo.set q x }

@[simp] theorem velocities_store (s : ModelState K F) (q : Quantity) (x : F q) :
    (s.store q x).velocities = s.velocities := rfl

@[simp] theorem size_store (s : ModelState K F) (q : Quantity) (x : F q) :
    (s.store q x).size = s.size := rfl

@[simp] theorem size_replace (s : ModelState K F) (v : Vec K) : (s.replace v).size = s.size := rfl

@[simp] theorem velocities_replace (s : ModelState K F) (v : Vec K) :
    (s.replace v).velocities = some v := rfl

end ModelState

end ConvexContact
