import Mathlib.Algebra.Order.Field.Basic
import Mathlib.Algebra.BigOperators.Group.Finset.Basic
import Mathlib.Data.Finset.Basic
import ConvexContact.Proofs.Linear.Coordinates
import ConvexContact.Proofs.Problem
import ConvexContact.Linear.Cholesky

/-!
# Problems in all their cliques

What the cost of a contact problem is, said without a model: no cliques are renumbered, no
constraints are reordered, nothing is stacked, and sums are sums in the field. Full velocities `V`
list the velocities of all cliques, one clique after the other, and `p.velocity V c l` is velocity
`l` of clique `c`.

For each constraint `i` on its own there are its estimate `wᵢ = ‖Σ J·A⁻¹·Jᵀ‖ / n`, its
regularization and its bias for this estimate, and its impulses `γᵢ = Pᵢ(-Rᵢ⁻¹·(Σ J·V - v̂ᵢ))`.
`ContactProblem.Responds` relates a constraint to them. From the responses of all constraints come
the cost (`ContactProblem.cost`) and its gradient (`ContactProblem.slope`).
-/

namespace ConvexContact

variable {K : Type} [ExactField K]

/-- What a constraint answers to velocities. -/
structure Response (K : Type) where
  /-- the regularization -/
  R : Vec K
  /-- the bias -/
  vHat : Vec K
  /-- the impulses -/
  γ : Vec K

namespace ContactProblem

/-! ## Cliques

Entries behind the last are zero, so velocities and matrices can be read at every index and no sum
has to be guarded. -/

/-- How many velocities clique `c` has. -/
def cliqueSize (p : ContactProblem K) (c : Nat) : Nat := p.sizes.getD c 0

/-- Velocity `l` of clique `c`. -/
def velocity (p : ContactProblem K) (V : Vec K) (c l : Nat) : K := V.get (offset p.sizes c + l)

/-- Entry `a, b` of the dynamics matrix of clique `c`. -/
def inertia (p : ContactProblem K) (c a b : Nat) : K :=
  match p.dynamics[c]? with
  | some A => A.get a b
  | none => 0

/-- The cliques that some constraint couples. -/
def coupled (p : ContactProblem K) : Finset Nat :=
  (p.constraints.flatMap (·.cliques)).toFinset

/-- Entry `a` of the momentum gain `A·(V - v*)` of clique `c`. -/
def gain (p : ContactProblem K) (V : Vec K) (c a : Nat) : K :=
  ∑ b ∈ Finset.range (p.cliqueSize c),
    p.inertia c a b * (p.velocity V c b - p.velocity p.vStar c b)

/-! ## Constraints -/

/-- Entry `l` of the velocity `Σ J·V` of a constraint. -/
def constraintVelocity (p : ContactProblem K) (V : Vec K) (c : Constraint K) (l : Nat) : K :=
  (c.blocks.map fun b =>
    ∑ a ∈ Finset.range b.jacobian.cols, b.jacobian.get l a * p.velocity V b.clique a).sum

/-- The matrix `A⁻¹·Jᵀ` for a block of a constraint, solved with the factor of the matrix of the
clique. -/
def solved (p : ContactProblem K) (b : CliqueBlock K) : Mat K :=
  match (p.dynamics[b.clique]?).bind CholeskyFactor.ofMat? with
  | some L => L.solveColumns b.jacobian.transpose
  | none => b.jacobian.transpose

/-- The Delassus operator `Σ J·A⁻¹·Jᵀ` of a constraint. -/
def delassus (p : ContactProblem K) (c : Constraint K) : Mat K :=
  Mat.ofFn p.format c.equations c.equations fun i j =>
    (c.blocks.map fun b =>
      ∑ a ∈ Finset.range b.jacobian.cols, b.jacobian.get i a * (p.solved b).get a j).sum

/-- The estimate of the Delassus diagonal of a constraint. -/
def estimate (p : ContactProblem K) (c : Constraint K) : Tensor K :=
  Tensor.scalar p.format ((p.delassus c).norm.value / (c.equations : K))

/-- The unprojected impulses `-R⁻¹·(Σ J·V - v̂)` of a constraint. -/
def unprojected (p : ContactProblem K) (V : Vec K) (c : Constraint K) (R vHat : Vec K) : Vec K :=
  ⟨p.format, (List.range c.equations).map fun l =>
    -(R.get l)⁻¹ * (p.constraintVelocity V c l - vHat.get l)⟩

/-- What constraint `c` answers to velocities `V` is `r`. -/
structure Responds (p : ContactProblem K) (V : Vec K) (c : Constraint K) (r : Response K) :
    Prop where
  regularization : c.regularization p.timeStep (p.estimate c) = .ok r.R
  bias : c.bias p.timeStep (p.estimate c) = .ok r.vHat
  impulses : ∃ D, c.project (p.unprojected V c r.R r.vHat) r.R false = .ok (r.γ, D)
  size : r.γ.size = c.equations

/-- The regularization in a response has one entry for each equation. -/
theorem Responds.size_R {p : ContactProblem K} {V : Vec K} {c : Constraint K} {r : Response K}
    (hr : p.Responds V c r) : r.R.size = c.equations :=
  (Constraint.of_regularization hr.regularization).1.1

/-- Responses have the sizes of their constraints. -/
theorem map_size_of_responds {p : ContactProblem K} {V : Vec K} {cs : List (Constraint K)}
    {rs : List (Response K)} (h : List.Forall₂ (p.Responds V) cs rs) :
    (rs.map (·.γ)).map Vec.size = cs.map (·.equations) ∧
      (rs.map (·.R)).map Vec.size = cs.map (·.equations) := by
  constructor
  · rw [List.map_map, ← List.forall₂_eq_eq_eq, List.forall₂_map_left_iff,
      List.forall₂_map_right_iff]
    exact h.flip.imp fun r c hr => hr.size
  · rw [List.map_map, ← List.forall₂_eq_eq_eq, List.forall₂_map_left_iff,
      List.forall₂_map_right_iff]
    exact h.flip.imp fun r c hr => hr.size_R

/-! ## Cost -/

/-- The cost `½ Σ (V - v*)ᵀ·A·(V - v*) + ½ Σ γᵀ·R·γ`: the first sum is over the coupled cliques, the
second one over the responses of all constraints. -/
def cost (p : ContactProblem K) (V : Vec K) (rs : List (Response K)) : K :=
  1 / 2 * ∑ c ∈ p.coupled, ∑ a ∈ Finset.range (p.cliqueSize c),
      (p.velocity V c a - p.velocity p.vStar c a) * p.gain V c a +
    1 / 2 * (rs.map fun r => ∑ l ∈ Finset.range r.γ.size, r.γ.get l * r.R.get l * r.γ.get l).sum

/-- Entry `a` of the momentum `Σ Jᵀ·γ` that all constraints give to clique `c`. -/
def push (p : ContactProblem K) (rs : List (Response K)) (c a : Nat) : K :=
  ((p.constraints.zip rs).map fun (con, r) =>
    ((con.blocks.filter fun b => b.clique = c).map fun b =>
      ∑ l ∈ Finset.range con.equations, b.jacobian.get l a * r.γ.get l).sum).sum

/-- Entry `a` of the gradient for clique `c`, which is zero unless the clique is coupled. -/
def slope (p : ContactProblem K) (V : Vec K) (rs : List (Response K)) (c a : Nat) : K :=
  if c ∈ p.coupled then p.gain V c a - p.push rs c a else 0

omit [ExactField K] in
/-- Coupled cliques are those that constraints name. -/
theorem mem_coupled {p : ContactProblem K} {c : Nat} :
    c ∈ p.coupled ↔ ∃ con ∈ p.constraints, c ∈ con.cliques := by
  rw [coupled, List.mem_toFinset, List.mem_flatMap]

end ContactProblem

end ConvexContact
