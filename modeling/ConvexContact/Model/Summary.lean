import ConvexContact.Model.Evaluation
import ConvexContact.Report.Datum

/-!
# Summaries of a model

A summary lists the sizes of a model and, at the velocities of a state, the terms of its cost and
the size of its impulses. `Model.summarize` evaluates it and `Summary.toDatum` arranges it for a
report.
-/

namespace ConvexContact

/-- The sizes of a model and of the problem it was made from. -/
structure ModelSizes where
  cliques : Nat
  fullCliques : Nat
  velocities : Nat
  fullVelocities : Nat
  constraints : Nat
  equations : Nat
  clusters : Nat
  deriving DecidableEq, Repr

/-- A model at the velocities of a state. -/
structure Summary (K : Type) where
  sizes : ModelSizes
  momentum : Scalar K
  regularizer : Scalar K
  total : Scalar K
  gradientNorm : Scalar K
  impulseNorm : Scalar K
  /-- the largest absolute value of the impulses -/
  impulseMax : Scalar K
  delassus : Vec K

namespace Model

variable {K : Type}

/-- The sizes of a model. -/
def modelSizes (m : Model K) : ModelSizes where
  cliques := m.cliqueCount
  fullCliques := m.fullCliqueCount
  velocities := m.velocityCount
  fullVelocities := m.fullVelocityCount
  constraints := m.stack.size
  equations := m.stack.equations
  clusters := m.graph.clusterCount

variable [Arith K]

/-- The summary at the velocities of the state. The norms of no impulses at all are zeros in the
format of the gradient. -/
def summarize (m : Model K) : Evaluation K (Summary K) := do
  let γ ← m.evalImpulses
  let gradient ← m.evalCostGradient
  let momentum ← m.evalMomentumCost
  let regularizer ← m.evalRegularizerCost
  let total ← m.evalCost
  let zero : Scalar K := ⟨gradient.format, 0⟩
  return {
    sizes := m.modelSizes
    momentum := momentum
    regularizer := regularizer
    total := total
    gradientNorm := gradient.norm
    impulseNorm := if γ.size = 0 then zero else γ.norm
    impulseMax := if γ.size = 0 then zero else γ.maxAbs
    delassus := m.delassus }

end Model

/-- The sizes as a table. -/
def ModelSizes.toDatum (s : ModelSizes) : Datum :=
  let entry (name : String) (n : Nat) : Key × Datum := (.string name, .int n)
  .table [
    entry "num_cliques" s.cliques,
    entry "num_cliques_full" s.fullCliques,
    entry "num_velocities" s.velocities,
    entry "num_velocities_full" s.fullVelocities,
    entry "num_constraints" s.constraints,
    entry "num_constraint_equations" s.equations,
    entry "num_clusters" s.clusters]

/-- The entries of a summary: three groups. -/
def Summary.entries (s : Summary Number) : List (Key × Datum) :=
  let entry (name : String) (x : Scalar Number) : Key × Datum := (.string name, .tensor x.toTensor)
  [
    (.string "sizes", s.sizes.toDatum),
    (.string "cost", .table [
      entry "momentum" s.momentum,
      entry "regularizer" s.regularizer,
      entry "total" s.total,
      entry "gradient_norm" s.gradientNorm]),
    (.string "impulses", .table [
      entry "gamma_norm" s.impulseNorm,
      entry "gamma_max_abs" s.impulseMax,
      (.string "delassus_diagonal", .tensor s.delassus.toTensor)])]

/-- The summary as a table. -/
def Summary.toDatum (s : Summary Number) : Datum := .table s.entries

end ConvexContact
