import ConvexContact.Constraint.Basic
import ConvexContact.Coupling.ClusterGraph
import ConvexContact.Index.Signed

/-!
# Contact problems

A contact problem covers one time step. It holds the dynamics matrix of every clique, the velocities
`v*` of free motion of all cliques, and the constraints in the order in which they were added.

`ContactProblem.build?` checks the time step, the velocities, the matrices and their sizes in this
order; `ContactProblem.add` checks a constraint clique by clique and stores it in the problem's
format.
-/

namespace ConvexContact

/-- The contact problem of one time step. -/
structure ContactProblem (K : Type) where
  timeStep : K
  /-- the velocities of free motion of all cliques, one clique after the other -/
  vStar : Vec K
  /-- the dynamics matrix of each clique -/
  dynamics : List (Mat K)
  constraints : List (Constraint K)
  /-- how many equations the constraints have together -/
  equationCount : Nat

namespace ContactProblem

variable {K : Type}

/-- The format of everything a problem stores. -/
def format (p : ContactProblem K) : Format := p.vStar.format

/-- How many cliques there are. -/
def cliqueCount (p : ContactProblem K) : Nat := p.dynamics.length

/-- How many velocities each clique has. -/
def sizes (p : ContactProblem K) : List Nat := p.dynamics.map (·.rows)

/-- How many velocities there are. -/
def velocityCount (p : ContactProblem K) : Nat := total p.sizes

/-- How many velocities the clique at a signed position has. -/
def sizeAt (p : ContactProblem K) (c : Int) : Except (Error K) Nat :=
  match atSigned? p.sizes c with
  | some n => .ok n
  | none => .error .outOfPosition

/-- Where the velocities of the clique at a signed position begin. -/
def offsetAt (p : ContactProblem K) (c : Int) : Except (Error K) Nat :=
  match atSigned? (offsets p.sizes) c with
  | some n => .ok n
  | none => .error .outOfPosition

/-- The constraint at a signed position. -/
def constraintAt (p : ContactProblem K) (i : Int) : Except (Error K) (Constraint K) :=
  match atSigned? p.constraints i with
  | some c => .ok c
  | none => .error .outOfPosition

/-- The constraints grouped by the cliques they couple. -/
def graph (p : ContactProblem K) : Except (Error K) ClusterGraph :=
  p.constraints.foldlM (fun g c => (·.1) <$> g.add (.list (c.cliques.map Int.ofNat)) c.equations)
    (ClusterGraph.blank p.cliqueCount)

/-- Whether a block of a constraint fits the problem: its clique must exist and have as many
velocities as the block has columns. -/
def checkBlock (p : ContactProblem K) (b : CliqueBlock K) : Except (Error K) Unit :=
  match p.sizes[b.clique]? with
  | none => .error (.unknownClique b.clique p.cliqueCount)
  | some n =>
    if b.jacobian.cols = n then .ok () else .error (.jacobianWidth b.clique b.jacobian.cols n)

theorem checkBlock_eq_ok_iff {p : ContactProblem K} {b : CliqueBlock K} :
    p.checkBlock b = .ok () ↔ p.sizes[b.clique]? = some b.jacobian.cols := by
  unfold checkBlock
  cases h : p.sizes[b.clique]? with
  | none => simp
  | some n =>
    by_cases hn : b.jacobian.cols = n
    · simp [hn]
    · simp [hn, Ne.symm hn]

section Construction

variable [Arith K]

/-- The dynamics matrix of clique `c`, which must be square. -/
def readDynamics (f : Format) (c : Nat) (A : Given K) : Except (Error K) (Mat K) := do
  let t ← A.stored f
  match t.shape with
  | [rows, cols] =>
    if rows = cols then return Mat.ofEntries t.format rows cols t.data
    else .error (.dynamicsShape c t.shape)
  | shape => .error (.dynamicsShape c shape)

/-- The velocities of free motion, which must be a vector. -/
def readFreeVelocities (v : Given K) : Except (Error K) (Vec K) :=
  match Vec.ofTensor? v.toTensor with
  | some v => .ok v
  | none => .error (.freeVelocityRank v.toTensor.shape)

/-- A problem without constraints. -/
def build? (timeStep : Scalar K) (dynamics : List (Given K)) (vStar : Given K) :
    Except (Error K) (ContactProblem K) := do
  if !Arith.lt 0 timeStep.value then .error (.timeStep timeStep)
  else
    let vStar ← readFreeVelocities vStar
    let timeStep ← timeStep.toDouble
    let dynamics ← dynamics.zipIdx.mapM fun (A, c) => readDynamics vStar.format c A
    let count := total (dynamics.map (·.rows))
    if count ≠ vStar.size then .error (.freeVelocityLength count vStar.size)
    else return ⟨timeStep, vStar, dynamics, [], 0⟩

/-- Stores a constraint that is known to fit. -/
def store (p : ContactProblem K) (c : Constraint K) : ContactProblem K :=
  { p with
    constraints := p.constraints ++ [c.cast p.format]
    equationCount := p.equationCount + c.equations }

/-- Adds a constraint, and answers with its index. -/
def add (p : ContactProblem K) (c : Constraint K) : Except (Error K) (ContactProblem K × Nat) := do
  c.blocks.forM p.checkBlock
  return (p.store c, p.constraints.length)

/-- Adds constraints one after the other. -/
def addAll (p : ContactProblem K) (cs : List (Constraint K)) :
    Except (Error K) (ContactProblem K) :=
  cs.foldlM (fun p c => (·.1) <$> p.add c) p

@[simp] theorem sizes_store (p : ContactProblem K) (c : Constraint K) :
    (p.store c).sizes = p.sizes := rfl

@[simp] theorem format_store (p : ContactProblem K) (c : Constraint K) :
    (p.store c).format = p.format := rfl

end Construction

end ContactProblem

end ConvexContact
