import ConvexContact.Linear.Cholesky
import ConvexContact.Model.Stack

/-!
# Reduced models

The model of a contact problem lives on the cliques that some constraint couples. For velocities `v`
of these cliques its cost is

  `ℓ(v) = ½‖v - v*‖²_A + ½γᵀRγ`,  `γ = P(-R⁻¹(J·v - v̂))`,

with gradient `A·(v - v*) - Jᵀ·γ` and Hessian approximation `A + Jᵀ·G·J`. This module holds the
model and its construction: the three numberings, the checks of the dynamics matrices, the estimate
of the Delassus diagonal, and the stack of constraints.
-/

namespace ConvexContact

/-- A contact problem reduced to the cliques that take part. -/
structure Model (K : Type) where
  timeStep : K
  /-- the format of the problem -/
  format : Format
  /-- how many cliques the problem has -/
  fullCliqueCount : Nat
  /-- how many velocities the problem has -/
  fullVelocityCount : Nat
  graph : ClusterGraph
  /-- the cliques that take part -/
  cliques : PartialPermutation
  /-- the velocities of these cliques, clique by clique -/
  velocities : PartialPermutation
  /-- the equations of all constraints, in the order of the stack -/
  impulses : PartialPermutation
  /-- the dynamics matrices of the cliques that take part -/
  dynamics : List (Mat K)
  /-- the velocities of free motion -/
  vStar : Vec K
  /-- the momenta of free motion -/
  pStar : Vec K
  /-- the diagonal of the dynamics to the power `-½` -/
  invSqrtDynamics : Vec K
  /-- an estimate of the Delassus diagonal for each constraint, in the order of the stack -/
  delassus : Vec K
  stack : Stack K

namespace Model

variable {K : Type}

/-- How many velocities each clique has. -/
def sizes (m : Model K) : List Nat := m.dynamics.map (·.rows)

/-- How many cliques there are. -/
def cliqueCount (m : Model K) : Nat := m.dynamics.length

/-- How many velocities there are. -/
def velocityCount (m : Model K) : Nat := total m.sizes

/-- How many velocities the clique at a signed position has. -/
def sizeAt (m : Model K) (c : Int) : Except (Error K) Nat :=
  match atSigned? m.sizes c with
  | some n => .ok n
  | none => .error .outOfPosition

variable [Arith K]

/-! ## Products with the dynamics -/

/-- The products of matrices with their parts of a vector, joined end to end. -/
def multiplyBlocks (A : List (Mat K)) (v : Vec K) : Except (Error K) (Vec K) :=
  let sizes := A.map (·.rows)
  if v.size ≠ total sizes then .error (.productShape (total sizes) v.shape)
  else do
    let pieces ← A.zipIdx.mapM fun (B, c) => B.mulVec? (v.block sizes c)
    return Vec.concat v.format pieces

/-- The product of the dynamics with velocities. -/
def multiplyDynamics (m : Model K) (v : Vec K) : Except (Error K) (Vec K) :=
  multiplyBlocks m.dynamics v

/-- The product of the dynamics with a tensor, which has to be a vector. -/
def multiplyDynamicsTensor (m : Model K) (v : Tensor K) : Except (Error K) (Vec K) :=
  match Vec.ofTensor? v with
  | some v => m.multiplyDynamics v
  | none => .error (.productShape m.velocityCount v.shape)

@[simp] theorem multiplyDynamicsTensor_toTensor (m : Model K) (v : Vec K) :
    m.multiplyDynamicsTensor v.toTensor = m.multiplyDynamics v := rfl

/-! ## Construction -/

/-- The velocities of the cliques that take part, clique by clique. -/
def numberVelocities (p : ContactProblem K) (cliques : PartialPermutation) :
    Except (Error K) PartialPermutation :=
  (PartialPermutation.blank p.velocityCount).pushAll
    ((cliques.inverse.flatMap (blockIndices p.sizes)).map Int.ofNat)

/-- The equations of all constraints, in the order of the clusters. -/
def numberImpulses (p : ContactProblem K) (graph : ClusterGraph) :
    Except (Error K) PartialPermutation :=
  let sizes := p.constraints.map (·.equations)
  (PartialPermutation.blank (total sizes)).pushAll
    ((graph.order.flatMap fun i => blockIndices sizes i.toNat).map Int.ofNat)

/-- The factor of the dynamics matrix of a clique of the problem, which must be symmetric within the
tolerance and positive definite. -/
def factor (clique : Nat) (A : Mat K) : Except (Error K) (CholeskyFactor K) :=
  if !A.nearlySymmetric then .error (.asymmetric clique)
  else if !A.format.isFloating then .error .notFloating
  else
    match CholeskyFactor.ofMat? A with
    | some L => .ok L
    | none => .error (.indefinite clique)

/-- The factors of the dynamics matrices of the cliques that take part. -/
def factorAll (cliques : PartialPermutation) (A : List (Mat K)) :
    Except (Error K) (List (CholeskyFactor K)) :=
  A.zipIdx.mapM fun (B, k) => do
    let clique ← cliques.domainIndex k
    factor clique B

/-- The summand `J·A⁻¹·Jᵀ` that a block of a constraint adds to its Delassus operator. -/
def compliance (cliques : PartialPermutation) (factors : List (CholeskyFactor K))
    (b : CliqueBlock K) : Except (Error K) (Mat K) := do
  let k ← cliques.permutedIndex b.clique
  match factors[k]? with
  | some L => b.jacobian.product? (L.solveColumns b.jacobian.transpose)
  | none => .error .outOfPosition

/-- The estimate `‖Σ J·A⁻¹·Jᵀ‖ / n` of a constraint of `n` equations. -/
def estimate (f : Format) (cliques : PartialPermutation) (factors : List (CholeskyFactor K))
    (c : Constraint K) : Except (Error K) (Scalar K) := do
  let n := c.equations
  let W ← c.blocks.foldlM (fun W b => do return W.add (← compliance cliques factors b))
    (Mat.zeros f n n)
  let length := W.norm
  return ⟨length.format, Arith.divIn length.format length.value (Arith.cast length.format (n : K))⟩

/-- The estimates of all constraints in the order of the clusters. -/
def estimateAll (p : ContactProblem K) (graph : ClusterGraph) (cliques : PartialPermutation)
    (factors : List (CholeskyFactor K)) : Except (Error K) (Vec K) := do
  let constraints ← graph.order.mapM p.constraintAt
  let estimates ← constraints.mapM (estimate p.format cliques factors)
  return ⟨p.format, estimates.map (·.value)⟩

/-- The diagonals of matrices, joined, to the power `-½`. -/
def invSqrtDiagonal (f : Format) : List (Mat K) → Vec K
  | [] => Vec.zeros f 0
  | A => (Vec.concat f (A.map Mat.diagonal)).sqrt.inverse

/-- The reduced model of a problem. -/
def build? (p : ContactProblem K) : Except (Error K) (Model K) := do
  let graph ← p.graph
  let cliques ← graph.numbering
  let dynamics ← cliques.gather p.dynamics
  let velocities ← numberVelocities p cliques
  let impulses ← numberImpulses p graph
  let vStar := Vec.mk p.format (← velocities.gather p.vStar.entries)
  let pStar ← multiplyBlocks dynamics vStar
  let factors ← factorAll cliques dynamics
  let delassus ← estimateAll p graph cliques factors
  let stack ← Stack.build? p delassus.toTensor
  return {
    timeStep := p.timeStep
    format := p.format
    fullCliqueCount := p.cliqueCount
    fullVelocityCount := p.velocityCount
    graph := graph
    cliques := cliques
    velocities := velocities
    impulses := impulses
    dynamics := dynamics
    vStar := vStar
    pStar := pStar
    invSqrtDynamics := invSqrtDiagonal p.format dynamics
    delassus := delassus
    stack := stack }

end Model

end ConvexContact
