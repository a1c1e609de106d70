import ConvexContact.Coupling.CliquePair
import ConvexContact.Index.PartialPermutation

/-!
# Cluster graphs

A cluster graph groups the constraints of a problem by the pair of cliques they couple. Clusters
stand in the order in which their pairs first came, constraints within a cluster in the order in
which they were added, and a new constraint joins the last cluster of its pair.

Cliques take part once a constraint couples them. `numbering` numbers them in the order of the
clusters; `participating` does so where nothing else holds the cliques of the graph yet, so that
their table may not fit into memory. `reduce` is the same graph on these numbers.
-/

namespace ConvexContact

/-- The cliques of a constraint as a caller names them. -/
inductive CliqueArgument where
  /-- one or two cliques in any order -/
  | list (cliques : List Int)
  /-- a pair, taken as it is -/
  | pair (cliques : CliquePair)
  /-- a pair whose second clique is missing -/
  | unpaired (first : Int)
  deriving DecidableEq, Repr

/-- Constraints grouped by the pair of cliques they couple. -/
structure ClusterGraph where
  /-- how many cliques there are -/
  cliqueCount : Nat
  clusters : List Cluster
  /-- how many constraints have been added -/
  constraintCount : Nat
  /-- how many equations they have together -/
  equationCount : Int
  deriving DecidableEq, Repr

namespace ClusterGraph

variable {K : Type}

/-- The graph without constraints. -/
def blank (cliqueCount : Nat) : ClusterGraph := ⟨cliqueCount, [], 0, 0⟩

/-- The graph without constraints. -/
def empty (cliqueCount : Int) : Except (Error K) ClusterGraph :=
  if cliqueCount < 0 then .error (.negativeCliqueCount cliqueCount)
  else .ok (blank cliqueCount.toNat)

/-- The pair that a caller names. -/
def pairOf : CliqueArgument → Except (Error K) CliquePair
  | .pair p => .ok p
  | .unpaired _ => .error .missingClique
  | .list [a] => .ok (CliquePair.normalized a none)
  | .list [a, b] => .ok (CliquePair.normalized a (some b))
  | .list cs => .error (.cliqueArity cs.length)

/-- The place of the last cluster of a pair. -/
def clusterOf? (g : ClusterGraph) (p : CliquePair) : Option Nat :=
  g.clusters.zipIdx.foldl (fun found (c, k) => if c.cliques = p then some k else found) none

/-- Adds a constraint of a pair that is known to be on the graph. -/
def join (g : ClusterGraph) (p : CliquePair) (equations : Int) : ClusterGraph :=
  let clusters :=
    match g.clusterOf? p with
    | some k => g.clusters.modify k (·.add g.constraintCount equations)
    | none => g.clusters ++ [(Cluster.empty p).add g.constraintCount equations]
  { g with
    clusters := clusters
    constraintCount := g.constraintCount + 1
    equationCount := g.equationCount + equations }

/-- A clique that has to be on the graph. -/
def checkClique (g : ClusterGraph) (c : Int) : Except (Error K) Unit :=
  if c < 0 ∨ g.cliqueCount ≤ c then .error (.cliqueRange c g.cliqueCount) else .ok ()

/-- The pair that a caller names, which has to be on the graph. -/
def readPair (g : ClusterGraph) (cliques : CliqueArgument) : Except (Error K) CliquePair := do
  if let .unpaired first := cliques then g.checkClique first
  let p ← pairOf cliques
  g.checkClique p.first
  g.checkClique p.second
  return p

/-- Adds a constraint, and answers with its index. The number of cliques named, their range, first
and second, and the number of equations are looked at in this order. -/
def add (g : ClusterGraph) (cliques : CliqueArgument) (equations : Int) :
    Except (Error K) (ClusterGraph × Nat) := do
  let p ← g.readPair cliques
  if equations ≤ 0 then .error (.equationCount equations)
  else return (g.join p equations, g.constraintCount)

/-- How many clusters there are. -/
def clusterCount (g : ClusterGraph) : Nat := g.clusters.length

/-- All constraints in the order of the clusters. -/
def order (g : ClusterGraph) : List Int := g.clusters.flatMap (·.members)

/-- The cliques of the clusters, in the order of the clusters. -/
def scan (g : ClusterGraph) : List Int := g.clusters.flatMap (·.cliques.cliques)

/-- The cliques that take part, numbered in the order of the clusters. -/
def numbering (g : ClusterGraph) : Except (Error K) PartialPermutation :=
  (PartialPermutation.blank g.cliqueCount).pushAll g.scan

/-- The same numbering, whose table of all cliques must not be larger than can be. -/
def participating (g : ClusterGraph) : Except (Error K) PartialPermutation := do
  (← PartialPermutation.empty g.cliqueCount).pushAll g.scan

/-- A cluster with its cliques replaced by their numbers. -/
def renumber (p : PartialPermutation) (c : Cluster) : Except (Error K) Cluster := do
  let first ← p.permutedIndex c.cliques.first
  let second ← p.permutedIndex c.cliques.second
  return { c with cliques := CliquePair.normalized first (some (second : Int)) }

/-- The same clusters on the cliques that take part. -/
def reduce (g : ClusterGraph) : Except (Error K) ClusterGraph := do
  let p ← g.participating
  let clusters ← g.clusters.mapM (renumber p)
  return { g with cliqueCount := p.size, clusters := clusters }

@[simp] theorem constraintCount_join (g : ClusterGraph) (p : CliquePair) (n : Int) :
    (g.join p n).constraintCount = g.constraintCount + 1 := rfl

@[simp] theorem cliqueCount_join (g : ClusterGraph) (p : CliquePair) (n : Int) :
    (g.join p n).cliqueCount = g.cliqueCount := rfl

@[simp] theorem pairOf_pair (p : CliquePair) : pairOf (K := K) (.pair p) = .ok p := rfl

/-- The table is larger than can be only for more cliques than memory holds. -/
theorem participating_eq_numbering {g : ClusterGraph} (h : g.cliqueCount < Nat.pow 2 33) :
    g.participating (K := K) = g.numbering := by
  have hwide : Nat.pow 2 33 ≤ Nat.pow 2 63 := Nat.pow_le_pow_right (by omega) (by omega)
  rw [participating, PartialPermutation.empty, if_neg (by omega), if_neg (by omega),
    if_neg (by omega)]
  rfl

theorem checkClique_eq_ok_iff {g : ClusterGraph} {c : Int} :
    g.checkClique (K := K) c = .ok () ↔ 0 ≤ c ∧ c < g.cliqueCount := by
  unfold checkClique
  split
  · constructor
    · intro h
      cases h
    · omega
  · exact ⟨fun _ => by omega, fun _ => rfl⟩

end ClusterGraph

end ConvexContact
