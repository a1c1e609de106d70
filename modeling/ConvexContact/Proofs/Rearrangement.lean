import Mathlib.Data.List.Perm.Basic
import Mathlib.Logic.Equiv.Defs
import ConvexContact.Proofs.Unreduced

/-!
# Rearranged problems

The cliques of a problem can be numbered otherwise, and its constraints added in another order
(`ContactProblem.Rearranged`). The constraints then respond as before, and the cost is the same: it
is made of sums over cliques and constraints, and no summand knows the number of a clique or the
place of a constraint.

Proof shape: sizes, velocities and dynamics matrices of renamed cliques are those of the cliques, so
each summand is equal to one of the other problem. Only `cost_eq` speaks of orders, once for cliques
and once for constraints.
-/

namespace ConvexContact

variable {K : Type} [ExactField K]

/-- A block of a constraint with its clique renamed. -/
def CliqueBlock.renamed {K : Type} (π : Nat → Nat) (b : CliqueBlock K) : CliqueBlock K :=
  { b with clique := π b.clique }

/-- A constraint with its cliques renamed. -/
def Constraint.renamed {K : Type} (π : Nat → Nat) (c : Constraint K) : Constraint K :=
  { c with first := c.first.renamed π, second := c.second.map (CliqueBlock.renamed π) }

omit [ExactField K] in
/-- Renaming leaves the Jacobians alone. -/
theorem Constraint.blocks_renamed (π : Nat → Nat) (c : Constraint K) :
    (c.renamed π).blocks = c.blocks.map (CliqueBlock.renamed π) := by
  cases h : c.second <;> simp [renamed, blocks, h]

omit [ExactField K] in
/-- The cliques of a renamed constraint are the renamed ones. -/
theorem Constraint.cliques_renamed (π : Nat → Nat) (c : Constraint K) :
    (c.renamed π).cliques = c.cliques.map π := by
  rw [cliques, blocks_renamed, cliques, List.map_map, List.map_map]
  rfl

namespace ContactProblem

/-- Problem `q` at velocities `W` is problem `p` at velocities `V` with clique `c` numbered `π c`,
and with the constraints in some other order. -/
structure Rearranged (π : Equiv.Perm Nat) (p : ContactProblem K) (V : Vec K)
    (q : ContactProblem K) (W : Vec K) : Prop where
  format : q.format = p.format
  timeStep : q.timeStep = p.timeStep
  dynamics : ∀ c, q.dynamics[π c]? = p.dynamics[c]?
  vStar : ∀ c a, a < p.cliqueSize c → q.velocity q.vStar (π c) a = p.velocity p.vStar c a
  velocity : ∀ c a, a < p.cliqueSize c → q.velocity W (π c) a = p.velocity V c a
  constraints : q.constraints.Perm (p.constraints.map (Constraint.renamed π))

namespace Rearranged

variable {π : Equiv.Perm Nat} {p q : ContactProblem K} {V W : Vec K}

/-! ## Cliques -/

/-- A clique takes its size along. -/
theorem cliqueSize (h : Rearranged π p V q W) (c : Nat) :
    q.cliqueSize (π c) = p.cliqueSize c := by
  simp only [ContactProblem.cliqueSize, sizes, List.getD_eq_getElem?_getD, List.getElem?_map,
    h.dynamics]

/-- It takes its momentum along, too. -/
theorem gain (h : Rearranged π p V q W) {c : Nat} (a : Nat) :
    q.gain W (π c) a = p.gain V c a := by
  rw [ContactProblem.gain, ContactProblem.gain, h.cliqueSize]
  apply Finset.sum_congr rfl
  intro b hb
  have hb := Finset.mem_range.mp hb
  rw [inertia, h.dynamics, h.velocity c b hb, h.vStar c b hb, inertia]

/-- The coupled cliques are the renamed ones. -/
theorem coupled (h : Rearranged π p V q W) : q.coupled = p.coupled.map π.toEmbedding := by
  ext d
  rw [Finset.mem_map, mem_coupled]
  constructor
  · rintro ⟨con, hcon, hd⟩
    obtain ⟨con', hcon', rfl⟩ := List.mem_map.mp (h.constraints.mem_iff.mp hcon)
    rw [Constraint.cliques_renamed] at hd
    obtain ⟨c, hc, rfl⟩ := List.mem_map.mp hd
    exact ⟨c, mem_coupled.mpr ⟨con', hcon', hc⟩, rfl⟩
  · rintro ⟨c, hc, rfl⟩
    obtain ⟨con, hcon, hc⟩ := mem_coupled.mp hc
    refine ⟨con.renamed π, h.constraints.mem_iff.mpr (List.mem_map_of_mem hcon), ?_⟩
    rw [Constraint.cliques_renamed]
    exact List.mem_map_of_mem hc

/-! ## Constraints

A constraint looks at its cliques through their sizes, matrices and velocities, and these go with
the cliques when they are renamed. -/

/-- The estimate is made from the blocks of a constraint and the matrices of their cliques. -/
theorem estimate (h : Rearranged π p V q W) (c : Constraint K) :
    q.estimate (c.renamed π) = p.estimate c := by
  have hdelassus : q.delassus (c.renamed π) = p.delassus c := by
    rw [delassus, delassus, h.format, Constraint.blocks_renamed]
    simp only [List.map_map]
    refine congrArg (Mat.ofFn p.format c.equations c.equations) ?_
    funext i j
    refine congrArg List.sum (List.map_congr_left fun b _ => ?_)
    -- the matrix is looked up under the new number and found to be the same
    have hsolved : q.solved (b.renamed π) = p.solved b := by
      have hmatrix : q.dynamics[(b.renamed π).clique]? = p.dynamics[b.clique]? :=
        h.dynamics b.clique
      rw [solved, hmatrix, solved]
      rfl
    rw [Function.comp_apply, hsolved]
    rfl
  rw [ContactProblem.estimate, ContactProblem.estimate, hdelassus, h.format]
  rfl

/-- The velocity of a constraint is made from its blocks and the velocities of their cliques. -/
theorem constraintVelocity (h : Rearranged π p V q W) (hp : p.WellFormed) {c : Constraint K}
    (hc : c ∈ p.constraints) (l : Nat) :
    q.constraintVelocity W (c.renamed π) l = p.constraintVelocity V c l := by
  rw [ContactProblem.constraintVelocity, ContactProblem.constraintVelocity,
    Constraint.blocks_renamed, List.map_map]
  refine congrArg List.sum (List.map_congr_left fun b hb => ?_)
  apply Finset.sum_congr rfl
  intro a ha
  have hwidth : a < p.cliqueSize b.clique := by
    rw [ContactProblem.cliqueSize, hp.getD_sizes hc hb]
    exact Finset.mem_range.mp ha
  exact congrArg _ (h.velocity b.clique a hwidth)

/-- A constraint responds as before. -/
theorem responds (h : Rearranged π p V q W) (hp : p.WellFormed) {c : Constraint K}
    (hc : c ∈ p.constraints) {r : Response K} (hr : p.Responds V c r) :
    q.Responds W (c.renamed π) r := by
  have hunprojected : q.unprojected W (c.renamed π) r.R r.vHat = p.unprojected V c r.R r.vHat := by
    rw [unprojected, unprojected, h.format]
    refine congrArg (Vec.mk p.format) (List.map_congr_left fun l _ => ?_)
    rw [h.constraintVelocity hp hc]
  refine ⟨?_, ?_, ?_, hr.size⟩
  · rw [h.estimate, h.timeStep]
    exact hr.regularization
  · rw [h.estimate, h.timeStep]
    exact hr.bias
  · rw [hunprojected]
    exact hr.impulses

/-! ## Cost -/

/-- **Rearranging.** The constraints of the rearranged problem respond as those of the problem do,
in their own order, and the cost is the same. -/
theorem cost_eq (h : Rearranged π p V q W) (hp : p.WellFormed) {rs : List (Response K)}
    (hrs : List.Forall₂ (p.Responds V) p.constraints rs) :
    ∃ rs', List.Forall₂ (q.Responds W) q.constraints rs' ∧ q.cost W rs' = p.cost V rs := by
  have hrenamed : List.Forall₂ (q.Responds W) (p.constraints.map (Constraint.renamed π)) rs := by
    rw [List.forall₂_map_left_iff]
    refine List.forall₂_iff_get.mpr ⟨hrs.length_eq, fun k hk hk' => ?_⟩
    exact h.responds hp (List.get_mem _ _) (List.forall₂_iff_get.mp hrs |>.2 k hk hk')
  -- the responses go with their constraints into the other order
  obtain ⟨rs', hrs', hperm⟩ := List.perm_comp_forall₂ h.constraints hrenamed
  refine ⟨rs', hrs', ?_⟩
  -- renaming is one to one, so no summand is lost or counted twice
  have hmomentum : ∑ c ∈ q.coupled, ∑ a ∈ Finset.range (q.cliqueSize c),
      (q.velocity W c a - q.velocity q.vStar c a) * q.gain W c a =
      ∑ c ∈ p.coupled, ∑ a ∈ Finset.range (p.cliqueSize c),
        (p.velocity V c a - p.velocity p.vStar c a) * p.gain V c a := by
    rw [h.coupled, Finset.sum_map]
    apply Finset.sum_congr rfl
    intro c _
    apply Finset.sum_congr (congrArg Finset.range (h.cliqueSize c))
    intro a ha
    have ha := Finset.mem_range.mp ha
    rw [Equiv.coe_toEmbedding, h.velocity c a ha, h.vStar c a ha, h.gain]
  rw [cost, cost, hmomentum, (hperm.map _).sum_eq]

end Rearranged

end ContactProblem

end ConvexContact
