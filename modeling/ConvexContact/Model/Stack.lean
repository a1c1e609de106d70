import ConvexContact.Linear.BlockGrid
import ConvexContact.Problem

/-!
# Stacked constraints

All constraints of a problem in the order of the clusters, as one system over the cliques that take
part: the Jacobian `J` as a block grid with a block row for each constraint and a block column for
each clique, the regularization `R` with its reciprocals, and the bias `v̂`.

The stack turns constraint velocities into unprojected impulses `y = -R⁻¹·(v_c - v̂)`, and these
into impulses `γ = P(y)`, together with the blocks `G = dP/dy·R⁻¹` when they are asked for.
-/

namespace ConvexContact

/-- What a stack keeps of a constraint. -/
structure StackedConstraint (K : Type) where
  /-- its index in the problem -/
  index : Nat
  /-- the cliques it couples, as they were named -/
  cliques : List Nat
  /-- how many equations it has -/
  equations : Nat
  projection : Projection K

/-- The constraints of a problem as one system. -/
structure Stack (K : Type) where
  members : List (StackedConstraint K)
  J : BlockGrid K
  R : Vec K
  vHat : Vec K
  Rinv : Vec K

namespace Stack

variable {K : Type}

/-- How many constraints there are. -/
def size (s : Stack K) : Nat := s.members.length

/-- How many equations they have together. -/
def equations (s : Stack K) : Nat := s.J.rows

/-- Where the equations of each constraint begin. -/
def offsets (s : Stack K) : List Nat :=
  (List.range s.size).map fun i => offset s.J.heights i

variable [Arith K]

/-! ## Assembly -/

/-- The Jacobian of constraints over the numbered cliques. -/
def assemble (f : Format) (cliques : PartialPermutation) (widths : List Nat)
    (constraints : List (Constraint K)) : Except (Error K) (BlockGrid K) :=
  let blocks := constraints.zipIdx.flatMap fun (c, i) => c.blocks.map (i, ·)
  blocks.foldlM (fun J (i, b) => do
    let j ← cliques.permutedIndex b.clique
    J.insert i j (.tensor b.jacobian.toTensor))
    (BlockGrid.blank f (constraints.map (·.equations)) widths)

/-- The estimate of the constraint at place `i`. -/
def estimateAt (w : Tensor K) (i : Nat) : Except (Error K) (Tensor K) :=
  match w.slab? i with
  | some wi => .ok wi
  | none => .error .outOfPosition

/-- The regularization and the bias of the constraint at place `i`. -/
def lawOf (step : K) (w : Tensor K) (i : Nat) (c : Constraint K) :
    Except (Error K) (Vec K × Vec K) := do
  let wi ← estimateAt w i
  let R ← c.regularization step wi
  let vHat ← c.bias step wi
  return (R, vHat)

/-- How many estimates there are, one along the first axis for each constraint. -/
def estimateCount (w : Tensor K) : Except (Error K) Nat :=
  match w.shape with
  | [] => .error .outOfPosition
  | n :: _ => .ok n

/-- The stack of a problem for given estimates of its Delassus diagonal. -/
def build? (p : ContactProblem K) (w : Tensor K) : Except (Error K) (Stack K) := do
  let graph ← p.graph
  let cliques ← graph.numbering
  let order := graph.order
  let n ← estimateCount w
  if n ≠ order.length then .error (.estimateCount order.length n)
  else
    let constraints ← order.mapM p.constraintAt
    let widths ← cliques.inverse.mapM fun (c : Nat) => p.sizeAt c
    let J ← assemble p.format cliques widths constraints
    let laws ← constraints.zipIdx.mapM fun (c, i) => lawOf p.timeStep w i c
    let R := Vec.concat p.format (laws.map (·.1))
    return {
      members := List.zipWith (fun i c => ⟨i.toNat, c.cliques, c.equations, c.projection⟩)
        order constraints
      J := J
      R := R
      vHat := Vec.concat p.format (laws.map (·.2))
      Rinv := R.inverse }

/-! ## Impulses -/

/-- The unprojected impulses `-R⁻¹·(v_c - v̂)`. -/
def unproject (s : Stack K) (vc : Vec K) : Except (Error K) (Vec K) :=
  if vc.size ≠ s.equations then .error (.constraintVelocityShape s.equations vc.shape)
  else do return (← s.Rinv.opposite).mul (← vc.difference s.vHat)

/-- The impulses of the constraint at place `i` and its block `G`, when asked for. -/
def projectMember (s : Stack K) (y : Vec K) (wanted : Bool) (i : Nat) (c : StackedConstraint K) :
    Except (Error K) (Vec K × Option (Mat K)) := do
  let n := c.equations
  let (γ, D) ← c.projection.run (y.block s.J.heights i) (s.R.block s.J.heights i) wanted
  if γ.size ≠ n then .error (.projectionShape i γ.shape n)
  else if !wanted then return (γ, none)
  else
    match D with
    | none => .error (.projectionJacobian i n)
    | some D =>
      if D.rows = n ∧ D.cols = n then return (γ, some (D.scaleColumns (s.Rinv.block s.J.heights i)))
      else .error (.projectionJacobian i n)

/-- The impulses of every constraint and its block `G`, when asked for. -/
def projectAll (s : Stack K) (y : Vec K) (wanted : Bool) :
    Except (Error K) (Vec K × List (Mat K)) :=
  if y.size ≠ s.equations then .error (.impulseShape s.equations y.shape)
  else do
    let parts ← s.members.zipIdx.mapM fun (c, i) => s.projectMember y wanted i c
    return (Vec.concat y.format (parts.map (·.1)), parts.filterMap (·.2))

/-- The impulses `γ = P(y)`. -/
def project (s : Stack K) (y : Vec K) : Except (Error K) (Vec K) :=
  (·.1) <$> s.projectAll y false

/-- The impulses `γ = P(y)` and the blocks `G = dP/dy·R⁻¹`. -/
def projectWithHessian (s : Stack K) (y : Vec K) : Except (Error K) (Vec K × List (Mat K)) :=
  s.projectAll y true

/-- The unprojected impulses of a tensor, which has to be a vector. -/
def unprojectTensor (s : Stack K) (vc : Tensor K) : Except (Error K) (Vec K) :=
  match Vec.ofTensor? vc with
  | some vc => s.unproject vc
  | none => .error (.constraintVelocityShape s.equations vc.shape)

@[simp] theorem unprojectTensor_toTensor (s : Stack K) (vc : Vec K) :
    s.unprojectTensor vc.toTensor = s.unproject vc := rfl

/-- The impulses and blocks of a tensor, which has to be a vector. -/
def projectTensor (s : Stack K) (y : Tensor K) (wanted : Bool) :
    Except (Error K) (Vec K × List (Mat K)) :=
  match Vec.ofTensor? y with
  | some y => s.projectAll y wanted
  | none => .error (.impulseShape s.equations y.shape)

/-- Of a vector they are the impulses alone, if nothing else is wanted, -/
theorem projectTensor_toTensor_false (s : Stack K) (y : Vec K) :
    (·.1) <$> s.projectTensor y.toTensor false = s.project y := rfl

/-- and the impulses with the blocks otherwise. -/
theorem projectTensor_toTensor_true (s : Stack K) (y : Vec K) :
    s.projectTensor y.toTensor true = s.projectWithHessian y := rfl

end Stack

end ConvexContact
