import ConvexContact.Constraint.Spring
import ConvexContact.Problem

/-!
# Two masses and a spring

Two particles in space under gravity: the first is tied to the origin by a spring with damping, the
second is free. Each particle is a clique of its own, so a model of the system keeps the first only.

The numbers of a system keep the format in which they are set, and `SpringMassConfig.problem` looks
at each of them when it is used: of several unusable settings the one that is used first is
reported.
-/

namespace ConvexContact

/-- What a number of a system is set to. -/
inductive Setting (K : Type) where
  | number (x : Scalar K)
  /-- something that is no number -/
  | other

/-- The number that a setting has to be. -/
def Setting.get {K : Type} : Setting K → Except (Error K) (Scalar K)
  | number x => .ok x
  | other => .error .notANumber

/-- What the axis of gravity is set to. -/
inductive AxisSetting (K : Type) where
  /-- an axis, counted from zero -/
  | index (i : Int)
  /-- all axes of the first particle and of the second, or else the first axis of the second -/
  | everywhere (b : Bool)
  /-- a number that is not taken for a whole one -/
  | fraction (x : K)
  /-- something that is no number -/
  | other

/-- The numbers of a spring-mass system. -/
structure SpringMassConfig (K : Type) where
  mass1 : Setting K
  mass2 : Setting K
  stiffness : Setting K
  /-- the dissipation time scale of the spring -/
  relaxation : Setting K
  timeStep : Setting K
  gravity : Setting K
  /-- the axis along which gravity acts -/
  axis : AxisSetting K

namespace AxisSetting

variable {K : Type} [Arith K]

/-- Whether the setting lies in the range of axes, where truth values count as zero and one. -/
def checkRange : AxisSetting K → Except (Error K) Unit
  | index i => if i < 0 ∨ 3 ≤ i then .error (.gravityAxis i) else .ok ()
  | everywhere _ => .ok ()
  | fraction x =>
    if Arith.le 0 x && Arith.lt x ((3 : Nat) : K) then .ok () else .error (.gravityFraction x)
  | other => .error .notANumber

/-- Which of the six velocities gravity acts on; a fraction is no axis even if it is whole. -/
def acts : AxisSetting K → Except (Error K) (List Bool)
  | index i => .ok ((List.range 6).map fun k => ((k % 3 : Nat) : Int) == i)
  | everywhere true => .ok (List.replicate 6 true)
  | everywhere false => .ok ((List.range 6).map (· == 3))
  | fraction _ => .error .outOfPosition
  | other => .error .notANumber

end AxisSetting

namespace SpringMassConfig

variable {K : Type} [Arith K]

/-- The setting of a plain number. -/
def real (x : K) : Setting K := .number ⟨.double, x⟩

/-- Masses of 1.5 and 3, stiffness 100, dissipation over 0.1 and steps of 0.001 units of time, and
gravity 10 along the last axis. -/
def standard : SpringMassConfig K where
  mass1 := real (((3 : Nat) : K) / ((2 : Nat) : K))
  mass2 := real ((3 : Nat) : K)
  stiffness := real ((100 : Nat) : K)
  relaxation := real (Arith.tenth 1)
  timeStep := real (Arith.tenth 3)
  gravity := real ((10 : Nat) : K)
  axis := .index 2

/-- Positions or velocities of the two particles; they are zero unless given. -/
def readPair (f : Format) (x : Option (Given K)) : Except (Error K) (Tensor K) :=
  match x with
  | none => .ok (Tensor.zeros f [6])
  | some x => x.asTensor

/-- The dynamics matrix of a particle: its mass on the diagonal. -/
def dynamics (f : Format) (mass : Setting K) : Except (Error K) (Given K) := do
  let m ← (← mass.get).asFactor
  return .tensor ((Mat.identity f 3).scale m).toTensor

/-- The acceleration of gravity on both particles. That gravity is a number which can be stored at
all is checked before its axis, and that it lies in the range of the format after it. -/
def pull (c : SpringMassConfig K) (f : Format) : Except (Error K) (Vec K) := do
  let gravity ← (← c.gravity.get).asEntry
  let acts ← c.axis.acts
  let gravity ← gravity.stored f
  return ⟨f, acts.map fun b => if b then gravity else 0⟩

/-- The spring at the position of the first particle. -/
def spring (c : SpringMassConfig K) (x : Vec K) : Except (Error K) (Constraint K) := do
  let stiffness ← c.stiffness.get
  Spring.checkStiffness stiffness
  Spring.build? 0 (.tensor x.toTensor) stiffness (← c.relaxation.get)

/-- The contact problem of the system at positions `q` and velocities `v` of the two particles. -/
def problem (c : SpringMassConfig K) (f : Format) (q v : Option (Given K)) :
    Except (Error K) (ContactProblem K) := do
  let q ← readPair f q
  let v ← readPair f v
  match Vec.ofTensor? q, Vec.ofTensor? v with
  | some q, some v =>
    if q.size ≠ 6 ∨ v.size ≠ 6 then .error (.springShapes q.shape v.shape)
    else
      c.axis.checkRange
      let A ← [c.mass1, c.mass2].mapM (dynamics q.format)
      let pull ← c.pull q.format
      let timeStep ← c.timeStep.get
      let vStar ← v.difference (pull.scale (← timeStep.asFactor))
      let p ← ContactProblem.build? timeStep A (.tensor vStar.toTensor)
      (·.1) <$> p.add (← c.spring (q.slice 0 3))
  | _, _ => .error (.springShapes q.shape v.shape)

end SpringMassConfig

end ConvexContact
