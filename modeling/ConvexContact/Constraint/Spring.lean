import ConvexContact.Constraint.Basic

/-!
# Springs

A spring with damping ties a particle in space to the origin. With stiffness `k` and dissipation
time scale `τ` its impulses are `γ = -δt·(k·x + τ·k·v)`, which the bias `-x / (δt + τ)`, the
regularization `1 / (δt·(δt + τ)·k)` and the identity as projection amount to.
-/

namespace ConvexContact.Spring

variable {K : Type} [Arith K]

/-- The bias `-g / (δt + τ)`. -/
def bias (relaxation : K) : LawSide K := fun g step _ => do
  let total := Arith.addIn .double step relaxation
  return .tensor ((← g.opposite).divideBy total).toTensor

/-- The regularization `1 / (δt·(δt + τ)·k)` of each of the three equations, which has to lie in the
range of their format. -/
def regularization (stiffness relaxation : K) : LawSide K := fun g step _ =>
  let total := Arith.addIn .double step relaxation
  let denominator := Arith.mulIn .double (Arith.mulIn .double step total) stiffness
  if Arith.eq denominator 0 then .error .divisionByZero
  else do
    let value ← (Scalar.mk .double (Arith.divIn .double 1 denominator)).stored g.format
    return .tensor (Vec.replicate g.format 3 value).toTensor

/-- The law of a spring. -/
def law (stiffness relaxation : K) : Law K := ⟨bias relaxation, regularization stiffness relaxation⟩

/-- Whether a spring can have a given stiffness. -/
def checkStiffness (stiffness : Scalar K) : Except (Error K) Unit :=
  if Arith.le stiffness.value 0 then .error (.stiffness stiffness) else .ok ()

/-- A spring on a clique with the particle at `x`. -/
def build? (clique : Int) (x : Given K) (stiffness relaxation : Scalar K) :
    Except (Error K) (Constraint K) := do
  checkStiffness stiffness
  if Arith.lt relaxation.value 0 then .error (.dissipation relaxation)
  else
    let t ← x.asTensor
    let c ← Constraint.build? Law.unspecified (.identityOn 3) x clique
      (.tensor (Mat.identity t.format 3).toTensor) none none
    return { c with law := law (← stiffness.toDouble) (← relaxation.toDouble) }

end ConvexContact.Spring
