/-!
# Clique pairs and clusters

A constraint couples one or two cliques. `CliquePair.normalized` is the unordered form of that, the
smaller clique first, and a single clique paired with itself. A `Cluster` collects the constraints
of one pair, with their numbers of equations, in the order in which they came.
-/

namespace ConvexContact

/-- Two cliques, or one clique paired with itself. -/
structure CliquePair where
  first : Int
  second : Int
  deriving DecidableEq, Repr

namespace CliquePair

/-- The smaller clique first; a missing second clique repeats the first. -/
def normalized (first : Int) (second : Option Int) : CliquePair :=
  let second := second.getD first
  ⟨min first second, max first second⟩

/-- Whether a clique is paired with itself. -/
def isSelfPair (p : CliquePair) : Bool := p.first == p.second

/-- The cliques of a pair, each once. -/
def cliques (p : CliquePair) : List Int :=
  if p.isSelfPair then [p.first] else [p.first, p.second]

/-- The order in which two cliques are named does not matter. -/
theorem normalized_comm (a b : Int) : normalized a (some b) = normalized b (some a) := by
  simp only [normalized, Option.getD_some, CliquePair.mk.injEq]
  omega

theorem normalized_self (a : Int) : normalized a none = ⟨a, a⟩ := by
  simp [normalized]

/-- A pair in order is its own normal form. -/
theorem normalized_of_le {a b : Int} (h : a ≤ b) : normalized a (some b) = ⟨a, b⟩ := by
  simp only [normalized, Option.getD_some, CliquePair.mk.injEq]
  omega

end CliquePair

/-- The constraints that couple one pair of cliques. -/
structure Cluster where
  cliques : CliquePair
  /-- the constraints, by index -/
  members : List Int
  /-- how many equations each of them has -/
  equations : List Int
  deriving DecidableEq, Repr

namespace Cluster

/-- The cluster of a pair before any constraint. -/
def empty (cliques : CliquePair) : Cluster := ⟨cliques, [], []⟩

/-- Adds a constraint at the end. -/
def add (c : Cluster) (index equations : Int) : Cluster :=
  { c with members := c.members ++ [index], equations := c.equations ++ [equations] }

/-- How many constraints the cluster holds. -/
def size (c : Cluster) : Nat := c.members.length

/-- How many equations its constraints have together. -/
def totalEquations (c : Cluster) : Int := c.equations.foldl (· + ·) 0

@[simp] theorem size_add (c : Cluster) (i n : Int) : (c.add i n).size = c.size + 1 := by
  simp [add, size]

@[simp] theorem totalEquations_add (c : Cluster) (i n : Int) :
    (c.add i n).totalEquations = c.totalEquations + n := by
  simp [add, totalEquations]

end Cluster

end ConvexContact
