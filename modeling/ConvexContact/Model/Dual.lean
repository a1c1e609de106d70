import ConvexContact.Model.Evaluation
import ConvexContact.Numeric.Dual

/-!
# Models on dual numbers

`Model.toDual` is a model with all its data taken as dual numbers that do not vary. Evaluated at
velocities `v + ε·t` it yields each quantity together with its derivative in the direction `t`.
-/

namespace ConvexContact

variable {K : Type} [Arith K]

/-- The values and the tangents of a vector of dual numbers. -/
def Vec.parts (v : Vec (Dual K)) : Vec K × Vec K := (v.map Dual.primal, v.map Dual.tangent)

/-- The vector of dual numbers with given values and tangents. -/
def Vec.dual (value tangent : Vec K) : Vec (Dual K) :=
  ⟨value.format, value.entries.zipIdx.map fun (x, i) => Dual.varying x (tangent.get i)⟩

/-- The values and the tangents of a tensor of dual numbers. -/
def Tensor.parts (t : Tensor (Dual K)) : Tensor K × Tensor K :=
  (t.map Dual.primal, t.map Dual.tangent)

/-- The tensor of dual numbers with given values and tangents. Only fractions carry tangents, and
values and tangents have one shape and one format. -/
def Tensor.dual (value tangent : Tensor K) : Except (Error (Dual K)) (Tensor (Dual K)) :=
  if !value.format.isFloating || !tangent.format.isFloating then .error .tangentFormat
  else if h : tangent.shape = value.shape then
    if tangent.format ≠ value.format then .error .formatMismatch
    else
      .ok ⟨value.format, value.shape, List.zipWith Dual.varying value.data tangent.data, by
        simp [value.length_data, tangent.length_data, h]⟩
  else .error .shapeMismatch

namespace Projection

/-- A projection given as a function moves tangents by its own Jacobian; without one, the impulses
do not vary. -/
def ruleToDual (f : Vec K → Vec K → Bool → Option (Vec K × Option (Mat K)))
    (y R : Vec (Dual K)) (wanted : Bool) :
    Option (Vec (Dual K) × Option (Mat (Dual K))) := do
  let (value, tangent) := y.parts
  let (R, _) := R.parts
  let (γ, D) ← f value R wanted
  let moved :=
    match f value R true with
    | some (_, some J) => J.mulVec tangent
    | _ => Vec.zeros γ.format γ.size
  return (Vec.dual γ moved, D.map (Mat.map Dual.const))

/-- A projection on dual numbers. -/
def toDual : Projection K → Projection (Dual K)
  | nonneg => nonneg
  | identity => identity
  | identityOn n => identityOn n
  | zero => zero
  | box lo hi => box (Dual.const lo) (Dual.const hi)
  | linear M => linear (M.map Dual.const)
  | timesR => timesR
  | dropLast => dropLast
  | withoutJacobian => withoutJacobian
  | wideJacobian => wideJacobian
  | unspecified => unspecified
  | rule f => rule (ruleToDual f)

end Projection

/-- A constraint of a stack on dual numbers. -/
def StackedConstraint.toDual (c : StackedConstraint K) : StackedConstraint (Dual K) :=
  { c with projection := c.projection.toDual }

/-- A stack on dual numbers. -/
def Stack.toDual (s : Stack K) : Stack (Dual K) where
  members := s.members.map StackedConstraint.toDual
  J := s.J.map Dual.const
  R := s.R.map Dual.const
  vHat := s.vHat.map Dual.const
  Rinv := s.Rinv.map Dual.const

/-- A model on dual numbers. -/
def Model.toDual (m : Model K) : Model (Dual K) :=
  { m with
    timeStep := Dual.const m.timeStep
    dynamics := m.dynamics.map (Mat.map Dual.const)
    vStar := m.vStar.map Dual.const
    pStar := m.pStar.map Dual.const
    invSqrtDynamics := m.invSqrtDynamics.map Dual.const
    delassus := m.delassus.map Dual.const
    stack := m.stack.toDual }

/-- A quantity as a tensor, unless it is a list of blocks. -/
def Quantity.toTensor : (q : Quantity) → Quantity.Value K q → Except (Error K) (Tensor K)
  | .constraintVelocities, v | .momentum, v | .momentumGain, v => .ok v.toTensor
  | .unprojectedImpulses, v | .impulses, v | .costGradient, v => .ok v.toTensor
  | .momentumCost, x | .regularizerCost, x | .cost, x => .ok x.toTensor
  | .constraintsHessian, _ => .error .noTangent
  | .hessian, A => .ok A.toTensor

/-- The value of a quantity with its derivative in the direction of the tangents of the
velocities. -/
def Model.evalParts (m : Model (Dual K)) (q : Quantity) :
    Evaluation (Dual K) (Tensor K × Tensor K) := do
  let x ← m.eval q
  return (← Evaluation.lift (q.toTensor x)).parts

end ConvexContact
