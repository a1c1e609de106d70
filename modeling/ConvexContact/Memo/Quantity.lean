import ConvexContact.Linear.Mat

/-!
# Quantities

The quantities that a model derives from its velocities, each memorized in a cell of its own.
`Quantity.Value` is what each of them is: a vector, a scalar, the Hessian, or its blocks.
-/

namespace ConvexContact

/-- What a model derives from its velocities. -/
inductive Quantity where
  | constraintVelocities
  | momentum
  | momentumGain
  | momentumCost
  | unprojectedImpulses
  | impulses
  | constraintsHessian
  | regularizerCost
  | cost
  | costGradient
  | hessian
  deriving DecidableEq, Repr

namespace Quantity

/-- All quantities in the order of their numbers. -/
def all : List Quantity :=
  [constraintVelocities, momentum, momentumGain, momentumCost, unprojectedImpulses, impulses,
    constraintsHessian, regularizerCost, cost, costGradient, hessian]

/-- The name of a quantity. -/
def label : Quantity → String
  | constraintVelocities => "CONSTRAINT_VELOCITIES"
  | momentum => "MOMENTUM"
  | momentumGain => "MOMENTUM_GAIN"
  | momentumCost => "MOMENTUM_COST"
  | unprojectedImpulses => "UNPROJECTED_IMPULSES"
  | impulses => "IMPULSES"
  | constraintsHessian => "CONSTRAINTS_HESSIAN"
  | regularizerCost => "REGULARIZER_COST"
  | cost => "COST"
  | costGradient => "COST_GRADIENT"
  | hessian => "HESSIAN"

/-- The quantity with a given number. -/
def ofNumber {K : Type} (i : Int) : Except (Error K) Quantity :=
  if i < 0 then .error (.unknownQuantity i)
  else
    match all[i.toNat]? with
    | some q => .ok q
    | none => .error (.unknownQuantity i)

/-- What a quantity is. -/
abbrev Value (K : Type) : Quantity → Type
  | constraintVelocities | momentum | momentumGain => Vec K
  | unprojectedImpulses | impulses | costGradient => Vec K
  | momentumCost | regularizerCost | cost => Scalar K
  | constraintsHessian => List (Mat K)
  | hessian => Mat K

theorem mem_all (q : Quantity) : q ∈ all := by
  cases q <;> decide

end Quantity

end ConvexContact
