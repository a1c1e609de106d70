import ConvexContact.Model.Evaluation

/-!
# Evaluations without memory

A quantity of a model can be computed from the velocities alone, its dependencies anew each time.
`Model.trace` does that, and lists the quantities it completes on the way, up to the point where it
fails if it fails:

* `Model.valueAt` — the outcome of such a computation, a function of the velocities;
* `Model.completedAt` — what it completes.

No state occurs here. `ConvexContact.Proofs.Evaluation.Memory` relates the two to what an evaluation
answers at a state, and to what it memorizes there. The order of the steps is that of the
evaluations with memory, since it decides which error is reported and what has been completed by
then. The equations at the end forget what is completed and are what the theory of the model uses.
-/

namespace ConvexContact

variable {K α β : Type}

/-! ## Outcomes with what was completed on the way

A writer of quantities over outcomes. After an error nothing more is completed, but what was
completed before it is kept. -/

/-- An outcome with the quantities completed on the way to it, in order. -/
structure Traced (K α : Type) where
  outcome : Except (Error K) α
  completed : List Quantity

namespace Traced

/-- An outcome on the way to which nothing is completed. -/
def ofOutcome (x : Except (Error K) α) : Traced K α := ⟨x, []⟩

/-- Goes on from the value, if there is one. -/
def andThen (t : Traced K α) (f : α → Traced K β) : Traced K β :=
  match t.outcome with
  | .ok a => ⟨(f a).outcome, t.completed ++ (f a).completed⟩
  | .error e => ⟨.error e, t.completed⟩

/-- Counts a quantity as completed, if there is a value. -/
def completing (t : Traced K α) (q : Quantity) : Traced K α :=
  match t.outcome with
  | .ok _ => ⟨t.outcome, t.completed ++ [q]⟩
  | .error _ => t

@[simp] theorem outcome_ofOutcome (x : Except (Error K) α) : (ofOutcome x).outcome = x := rfl

@[simp] theorem completed_ofOutcome (x : Except (Error K) α) : (ofOutcome x).completed = [] := rfl

/-- As far as outcomes go, `andThen` is the bind of the errors. -/
@[simp] theorem outcome_andThen (t : Traced K α) (f : α → Traced K β) :
    (t.andThen f).outcome = t.outcome >>= fun a => (f a).outcome := by
  unfold andThen
  rcases t.outcome with e | a <;> rfl

theorem andThen_of_ok {t : Traced K α} {a : α} (f : α → Traced K β) (h : t.outcome = .ok a) :
    t.andThen f = ⟨(f a).outcome, t.completed ++ (f a).completed⟩ := by
  simp only [andThen, h]

/-- After an error nothing more is completed. -/
theorem andThen_of_error {t : Traced K α} {e : Error K} (f : α → Traced K β)
    (h : t.outcome = .error e) : t.andThen f = ⟨.error e, t.completed⟩ := by
  simp only [andThen, h]

/-- Completing a quantity does not change the outcome. -/
@[simp] theorem outcome_completing (t : Traced K α) (q : Quantity) :
    (t.completing q).outcome = t.outcome := by
  unfold completing
  split <;> rfl

theorem completed_completing_of_ok {t : Traced K α} {a : α} (q : Quantity)
    (h : t.outcome = .ok a) : (t.completing q).completed = t.completed ++ [q] := by
  simp only [completing, h]

theorem completing_of_error {t : Traced K α} {e : Error K} (q : Quantity)
    (h : t.outcome = .error e) : t.completing q = t := by
  simp only [completing, h]

end Traced

namespace Model

open Traced

variable [Arith K]

/-! ## The quantities as functions of the velocities -/

/-- The constraint velocities `J·v`. -/
def traceConstraintVelocities (m : Model K) (v : Vec K) : Traced K (Vec K) :=
  (ofOutcome (m.stack.J.multiply v)).completing .constraintVelocities

/-- The momentum `A·v`. -/
def traceMomentum (m : Model K) (v : Vec K) : Traced K (Vec K) :=
  (ofOutcome (m.multiplyDynamics v)).completing .momentum

/-- The momentum gain `A·v - p*`. -/
def traceMomentumGain (m : Model K) (v : Vec K) : Traced K (Vec K) :=
  ((m.traceMomentum v).andThen fun p => ofOutcome (p.difference m.pStar)).completing .momentumGain

/-- The momentum term of the cost. The difference of the velocities comes first. -/
def traceMomentumCost (m : Model K) (v : Vec K) : Traced K (Scalar K) :=
  ((ofOutcome (v.difference m.vStar)).andThen fun d =>
    (m.traceMomentumGain v).andThen fun gain =>
      ofOutcome (.ok (momentumCostOf d gain))).completing .momentumCost

/-- The unprojected impulses. -/
def traceUnprojectedImpulses (m : Model K) (v : Vec K) : Traced K (Vec K) :=
  ((m.traceConstraintVelocities v).andThen fun vc =>
    ofOutcome (m.stack.unproject vc)).completing .unprojectedImpulses

/-- The impulses. -/
def traceImpulses (m : Model K) (v : Vec K) : Traced K (Vec K) :=
  ((m.traceUnprojectedImpulses v).andThen fun y =>
    ofOutcome (m.stack.project y)).completing .impulses

/-- The impulses together with the blocks of the Hessian, which completes the impulses too. -/
def traceJointly (m : Model K) (y : Vec K) : Traced K (List (Mat K)) :=
  ((ofOutcome (m.stack.projectWithHessian y)).completing .impulses).andThen fun answer =>
    ofOutcome (.ok answer.2)

/-- The blocks of the Hessian. -/
def traceConstraintsHessian (m : Model K) (v : Vec K) : Traced K (List (Mat K)) :=
  ((m.traceUnprojectedImpulses v).andThen m.traceJointly).completing .constraintsHessian

/-- The regularizer term of the cost. -/
def traceRegularizerCost (m : Model K) (v : Vec K) : Traced K (Scalar K) :=
  ((m.traceImpulses v).andThen fun γ =>
    ofOutcome (.ok (m.regularizerCostOf γ))).completing .regularizerCost

/-- The cost. -/
def traceCost (m : Model K) (v : Vec K) : Traced K (Scalar K) :=
  ((m.traceMomentumCost v).andThen fun momentum =>
    (m.traceRegularizerCost v).andThen fun regularizer =>
      ofOutcome (.ok (momentum.add regularizer))).completing .cost

/-- The gradient of the cost. -/
def traceCostGradient (m : Model K) (v : Vec K) : Traced K (Vec K) :=
  ((m.traceMomentumGain v).andThen fun gain =>
    (m.traceImpulses v).andThen fun γ =>
      ofOutcome (m.gradientOf gain γ)).completing .costGradient

/-- The dense Hessian. -/
def traceHessian (m : Model K) (v : Vec K) : Traced K (Mat K) :=
  ((m.traceConstraintsHessian v).andThen fun G => ofOutcome (m.hessianOf G)).completing .hessian

/-- A quantity computed from the velocities alone. -/
def trace (m : Model K) (v : Vec K) : (q : Quantity) → Traced K (Quantity.Value K q)
  | .constraintVelocities => m.traceConstraintVelocities v
  | .momentum => m.traceMomentum v
  | .momentumGain => m.traceMomentumGain v
  | .momentumCost => m.traceMomentumCost v
  | .unprojectedImpulses => m.traceUnprojectedImpulses v
  | .impulses => m.traceImpulses v
  | .constraintsHessian => m.traceConstraintsHessian v
  | .regularizerCost => m.traceRegularizerCost v
  | .cost => m.traceCost v
  | .costGradient => m.traceCostGradient v
  | .hessian => m.traceHessian v

/-- The outcome of a quantity at given velocities. -/
def valueAt (m : Model K) (v : Vec K) (q : Quantity) : Except (Error K) (Quantity.Value K q) :=
  (m.trace v q).outcome

/-- What is completed when a quantity is computed at given velocities: the quantities it depends on
and, if it has a value, itself. -/
def completedAt (m : Model K) (v : Vec K) (q : Quantity) : List Quantity := (m.trace v q).completed

/-! ## Equations

One equation for each quantity, in which completions no longer occur. They hold whether the
operations succeed or fail. -/

section Equations

variable (m : Model K) (v : Vec K)

/-- The constraint velocities are the product `J·v`, or the error of a product that does not fit. -/
theorem valueAt_constraintVelocities :
    m.valueAt v .constraintVelocities = m.stack.J.multiply v := by
  simp [valueAt, trace, traceConstraintVelocities]

theorem valueAt_momentum : m.valueAt v .momentum = m.multiplyDynamics v := by
  simp [valueAt, trace, traceMomentum]

theorem valueAt_momentumGain :
    m.valueAt v .momentumGain =
      m.valueAt v .momentum >>= fun p => p.difference m.pStar := by
  simp [valueAt, trace, traceMomentumGain]

theorem valueAt_momentumCost :
    m.valueAt v .momentumCost =
      v.difference m.vStar >>= fun d =>
        m.valueAt v .momentumGain >>= fun gain => .ok (momentumCostOf d gain) := by
  simp [valueAt, trace, traceMomentumCost]

theorem valueAt_unprojectedImpulses :
    m.valueAt v .unprojectedImpulses =
      m.valueAt v .constraintVelocities >>= fun vc => m.stack.unproject vc := by
  simp [valueAt, trace, traceUnprojectedImpulses]

theorem valueAt_impulses :
    m.valueAt v .impulses =
      m.valueAt v .unprojectedImpulses >>= fun y => m.stack.project y := by
  simp [valueAt, trace, traceImpulses]

/-- The blocks come from the joint projection, whose impulses are dropped here. -/
theorem valueAt_constraintsHessian :
    m.valueAt v .constraintsHessian =
      m.valueAt v .unprojectedImpulses >>= fun y =>
        m.stack.projectWithHessian y >>= fun answer => .ok answer.2 := by
  simp [valueAt, trace, traceConstraintsHessian, traceJointly]

theorem valueAt_regularizerCost :
    m.valueAt v .regularizerCost =
      m.valueAt v .impulses >>= fun γ => .ok (m.regularizerCostOf γ) := by
  simp [valueAt, trace, traceRegularizerCost]

theorem valueAt_cost :
    m.valueAt v .cost =
      m.valueAt v .momentumCost >>= fun momentum =>
        m.valueAt v .regularizerCost >>= fun regularizer => .ok (momentum.add regularizer) := by
  simp [valueAt, trace, traceCost]

theorem valueAt_costGradient :
    m.valueAt v .costGradient =
      m.valueAt v .momentumGain >>= fun gain =>
        m.valueAt v .impulses >>= fun γ => m.gradientOf gain γ := by
  simp [valueAt, trace, traceCostGradient]

theorem valueAt_hessian :
    m.valueAt v .hessian = m.valueAt v .constraintsHessian >>= fun G => m.hessianOf G := by
  simp [valueAt, trace, traceHessian]

end Equations

end Model

end ConvexContact
