import ConvexContact.Memo.State
import ConvexContact.Model.Formula

/-!
# Evaluating a model at a state

An `Evaluation` runs at a model state. It may fail, and what it memorized before the failure stays.
Every quantity goes through `Model.memoized`: a hit answers with the value in the cell and changes
nothing, a miss computes the value, stores it and answers with it. The blocks of the Hessian come
together with the impulses, so computing them also fills the cell of the impulses, unless that cell
is up to date.
-/

namespace ConvexContact

/-- A computation that reads and memorizes at a model state, and may fail. -/
abbrev Evaluation (K : Type) := ExceptT (Error K) (StateM (ModelState K (Quantity.Value K)))

/-- An outcome as a computation that leaves the state alone. -/
def Evaluation.lift {K α : Type} (x : Except (Error K) α) : Evaluation K α := ExceptT.mk (pure x)

namespace Model

variable {K : Type}

/-- A state without velocities. -/
def makeState (m : Model K) : ModelState K (Quantity.Value K) := ModelState.empty m.velocityCount

/-- Whether a state has as many velocities as the model. -/
def checkSize (m : Model K) (s : ModelState K (Quantity.Value K)) : Except (Error K) Unit :=
  if s.size ≠ m.velocityCount then .error (.stateSize s.size m.velocityCount) else .ok ()

/-- The velocities of a state, which must fit the model and have been set. -/
def velocitiesOf (m : Model K) (s : ModelState K (Quantity.Value K)) :
    Except (Error K) (Vec K) := do
  m.checkSize s
  match s.velocities with
  | some v => .ok v
  | none => .error .velocitiesUnset

/-- The velocities of the state at hand. -/
def velocitiesHere (m : Model K) : Evaluation K (Vec K) := do
  Evaluation.lift (m.velocitiesOf (← get))

/-- Replaces the velocities of the state. -/
def setVelocities (m : Model K) (v : Given K) : Evaluation K Unit := do
  let s ← get
  Evaluation.lift (m.checkSize s)
  set (← Evaluation.lift (s.setVelocities v))

/-- The value in the cell of a quantity, which is computed from the velocities when it is out of
date. -/
def memoized (m : Model K) (q : Quantity)
    (compute : Vec K → Evaluation K (Quantity.Value K q)) : Evaluation K (Quantity.Value K q) := do
  let v ← m.velocitiesHere
  match ((← get).memo.get q).current? with
  | some x => return x
  | none =>
    let x ← compute v
    modify (·.store q x)
    return x

variable [Arith K]

/-- The constraint velocities `J·v`. -/
def evalConstraintVelocities (m : Model K) : Evaluation K (Vec K) :=
  m.memoized .constraintVelocities fun v => Evaluation.lift (m.stack.J.multiply v)

/-- The momentum `A·v`. -/
def evalMomentum (m : Model K) : Evaluation K (Vec K) :=
  m.memoized .momentum fun v => Evaluation.lift (m.multiplyDynamics v)

/-- The momentum gain `A·v - p*`. -/
def evalMomentumGain (m : Model K) : Evaluation K (Vec K) :=
  m.memoized .momentumGain fun _ => do
    Evaluation.lift ((← m.evalMomentum).difference m.pStar)

/-- The momentum term of the cost. -/
def evalMomentumCost (m : Model K) : Evaluation K (Scalar K) :=
  m.memoized .momentumCost fun v => do
    let d ← Evaluation.lift (v.difference m.vStar)
    return momentumCostOf d (← m.evalMomentumGain)

/-- The unprojected impulses `-R⁻¹·(J·v - v̂)`. -/
def evalUnprojectedImpulses (m : Model K) : Evaluation K (Vec K) :=
  m.memoized .unprojectedImpulses fun _ => do
    Evaluation.lift (m.stack.unproject (← m.evalConstraintVelocities))

/-- The impulses `γ`. -/
def evalImpulses (m : Model K) : Evaluation K (Vec K) :=
  m.memoized .impulses fun _ => do
    Evaluation.lift (m.stack.project (← m.evalUnprojectedImpulses))

/-- The blocks `G` of the Hessian. -/
def evalConstraintsHessian (m : Model K) : Evaluation K (List (Mat K)) :=
  m.memoized .constraintsHessian fun _ => do
    let y ← m.evalUnprojectedImpulses
    let (γ, G) ← Evaluation.lift (m.stack.projectWithHessian y)
    modify fun s => if (s.memo.get .impulses).valid then s else s.store .impulses γ
    return G

/-- The regularizer term of the cost. -/
def evalRegularizerCost (m : Model K) : Evaluation K (Scalar K) :=
  m.memoized .regularizerCost fun _ => do
    return m.regularizerCostOf (← m.evalImpulses)

/-- The cost. -/
def evalCost (m : Model K) : Evaluation K (Scalar K) :=
  m.memoized .cost fun _ => do
    let momentum ← m.evalMomentumCost
    return momentum.add (← m.evalRegularizerCost)

/-- The gradient of the cost. -/
def evalCostGradient (m : Model K) : Evaluation K (Vec K) :=
  m.memoized .costGradient fun _ => do
    let gain ← m.evalMomentumGain
    Evaluation.lift (m.gradientOf gain (← m.evalImpulses))

/-- The dense Hessian. -/
def evalHessian (m : Model K) : Evaluation K (Mat K) :=
  m.memoized .hessian fun _ => do
    Evaluation.lift (m.hessianOf (← m.evalConstraintsHessian))

/-- The quantity of a given name. -/
def eval (m : Model K) : (q : Quantity) → Evaluation K (Quantity.Value K q)
  | .constraintVelocities => m.evalConstraintVelocities
  | .momentum => m.evalMomentum
  | .momentumGain => m.evalMomentumGain
  | .momentumCost => m.evalMomentumCost
  | .unprojectedImpulses => m.evalUnprojectedImpulses
  | .impulses => m.evalImpulses
  | .constraintsHessian => m.evalConstraintsHessian
  | .regularizerCost => m.evalRegularizerCost
  | .cost => m.evalCost
  | .costGradient => m.evalCostGradient
  | .hessian => m.evalHessian

/-- The product of the Hessian with a tensor, which has to be a vector. -/
def multiplyHessian (m : Model K) (w : Given K) : Evaluation K (Vec K) := do
  let G ← m.evalConstraintsHessian
  let w ← Evaluation.lift w.asTensor
  Evaluation.lift (m.multiplyHessianTensor G w)

end Model

end ConvexContact
