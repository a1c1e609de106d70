import ConvexContact.Proofs.Linear.Solving
import ConvexContact.Proofs.Model.Definiteness
import ConvexContact.Proofs.Model.Delassus

/-!
# What the Delassus estimates are

For symmetric dynamics, solving with the factor of a clique multiplies by the inverse of its matrix.
So the operator whose length is taken is `Σ J·A⁻¹·Jᵀ`, over the cliques of the constraint and with
the matrices of the problem (`ContactProblem.delassusOperator`), and the estimate at place `k` of
the order is its length by the number of equations of the constraint there. The regularization and
the bias that are stored for this constraint are those it has for this estimate.

Proof shape: `Model.Steps.matrix_solved` passes from solved columns to inverse matrices, for one
clique of one constraint, and `Model.Steps.delassus_get` adds the cliques up. Lengths are treated
apart (`Mat.norm_exact`), since how the root is taken differs between a single entry and several.

Main statement: `Model.estimates_belong`.
-/

namespace ConvexContact

variable {K : Type} [ExactField K]

/-! ## Lengths -/

namespace Arith

/-- The root that is taken of a number is its square root. -/
def RootExact (a : K) : Prop := 0 ≤ ExactField.root a ∧ ExactField.root a ^ 2 = a

instance (a : K) : Decidable (RootExact a) :=
  inferInstanceAs (Decidable (_ ∧ _))

/-- Real roots are square roots. -/
theorem rootExact_real {a : ℝ} (h : 0 ≤ a) : RootExact a := ⟨Real.sqrt_nonneg a, Real.sq_sqrt h⟩

/-- The length of a list is the root of the sum of the squares. -/
theorem norm_exact (f : Format) {xs : List K} (h : RootExact (xs.map (· ^ 2)).sum) :
    0 ≤ norm f xs ∧ norm f xs ^ 2 = (xs.map (· ^ 2)).sum := by
  have hdot : ∀ ys : List K, dot f ys ys = (ys.map (· ^ 2)).sum := by
    intro ys
    have hread : dot f ys ys = (List.zipWith (fun x y => x * y) ys ys).sum :=
      Reading.exact.map_dot f ys ys
    rw [hread, List.zipWith_self]
    simp only [sq]
  -- the length of a single number is its absolute value, so no root is taken of it
  match xs, h with
  | [], h => exact h
  | [x], _ =>
    have habs : norm f [x] = |x| := abs_exact x
    rw [habs, sq_abs]
    exact ⟨abs_nonneg x, by simp⟩
  | x :: y :: xs, h =>
    have hroot : norm f (x :: y :: xs) =
        ExactField.root (dot f (x :: y :: xs) (x :: y :: xs)) := rfl
    rw [hroot, hdot]
    exact h

end Arith

namespace Mat

/-- The sum of the squares of the entries. -/
def squares (A : Mat K) : K :=
  ∑ i ∈ Finset.range A.rows, ∑ j ∈ Finset.range A.cols, A.get i j ^ 2

/-- The squares of the entries, listed row by row, add up to it. -/
theorem squares_eq (A : Mat K) : (A.entries.flatten.map (· ^ 2)).sum = A.squares := by
  rw [List.map_flatten, List.sum_flatten, List.map_map, sum_map_eq_sum_range _ _ [],
    A.length_entries]
  refine Finset.sum_congr rfl fun i hi => ?_
  have hi' : i < A.entries.length := by rw [A.length_entries]; exact Finset.mem_range.mp hi
  rw [Function.comp_apply, sum_map_eq_sum_range _ _ 0, List.getD_eq_getElem _ _ hi',
    A.length_row _ (List.getElem_mem hi')]
  refine Finset.sum_congr rfl fun j _ => ?_
  rw [get, List.getD_eq_getElem _ _ hi']

/-- **Length.** The length of a matrix, if the root that is taken is a square root. -/
theorem norm_exact {A : Mat K} (h : Arith.RootExact A.squares) :
    0 ≤ A.norm.value ∧ A.norm.value ^ 2 = A.squares := by
  rw [← A.squares_eq] at h ⊢
  exact Arith.norm_exact A.format h

end Mat

/-! ## Operators

The operator of mathematics, with inverse matrices, and the operator that is computed, with columns
that are solved for. For symmetric dynamics they are the same. -/

namespace ContactProblem

/-- The dynamics matrix of clique `c`. -/
def dynamicsMatrix (p : ContactProblem K) (c : Nat) :
    Matrix (Fin (p.cliqueSize c)) (Fin (p.cliqueSize c)) K :=
  Matrix.of fun a b => p.inertia c a b

/-- The Jacobian of a constraint for one of its cliques. -/
def jacobianMatrix (p : ContactProblem K) (c : Constraint K) (b : CliqueBlock K) :
    Matrix (Fin c.equations) (Fin (p.cliqueSize b.clique)) K :=
  b.jacobian.matrix c.equations (p.cliqueSize b.clique)

/-- The Delassus operator `Σ J·A⁻¹·Jᵀ` of a constraint, over its cliques. -/
noncomputable def delassusOperator (p : ContactProblem K) (c : Constraint K) :
    Matrix (Fin c.equations) (Fin c.equations) K :=
  (c.blocks.map fun b => p.jacobianMatrix c b * (p.dynamicsMatrix b.clique)⁻¹ *
    (p.jacobianMatrix c b).transpose).sum

/-- The roots that are taken for the lengths of the operators are square roots. -/
def LengthsExact (p : ContactProblem K) : Prop :=
  ∀ c ∈ p.constraints, Arith.RootExact (p.delassus c).squares

instance (p : ContactProblem K) : Decidable p.LengthsExact :=
  inferInstanceAs (Decidable (∀ c ∈ p.constraints, Arith.RootExact (p.delassus c).squares))

/-- Real roots are square roots. -/
theorem lengthsExact_real (p : ContactProblem ℝ) : p.LengthsExact := fun _ _ =>
  Arith.rootExact_real (Finset.sum_nonneg fun _ _ => Finset.sum_nonneg fun _ _ => sq_nonneg _)

end ContactProblem

namespace Model.Steps

variable {p : ContactProblem K} {m : Model K} {Ls : List (CholeskyFactor K)}
  {c : Constraint K} {b : CliqueBlock K}

/-- **Inverses.** The dynamics matrix of a clique of a constraint has an inverse, and the columns of
the transposed Jacobian have been multiplied by it. -/
theorem matrix_solved (hp : p.WellFormed) (h : Steps p m Ls) (hm : m.Symmetric)
    (hroots : m.RootsExact) (hc : c ∈ p.constraints) (hb : b ∈ c.blocks) :
    IsUnit (p.dynamicsMatrix b.clique) ∧
      (p.solved b).matrix (p.cliqueSize b.clique) c.equations =
        (p.dynamicsMatrix b.clique)⁻¹ * (p.jacobianMatrix c b).transpose := by
  obtain ⟨k, -, hk⟩ := h.number?_of_mem hc hb
  have hlt := h.lt_of_mem_cliques _ (List.mem_of_getElem? hk)
  have hA : m.dynamics[k]? = some p.dynamics[b.clique] := by
    rw [h.getElem?_dynamics hk, List.getElem?_eq_getElem hlt]
  obtain ⟨L, hL, -, -, hofMat⟩ := h.exists_factor hA
  have hmem := List.mem_of_getElem? hA
  have hsquare := hp.square _ (List.getElem_mem hlt)
  have hrows : p.dynamics[b.clique].rows = p.cliqueSize b.clique := by
    rw [ContactProblem.cliqueSize, ContactProblem.sizes, List.getD_eq_getElem?_getD,
      List.getElem?_map, List.getElem?_eq_getElem hlt]
    rfl
  have hcols : b.jacobian.cols = p.cliqueSize b.clique := (hp.getD_sizes hc hb).symm
  have hheight := (hp.constraint c hc).rows b hb
  -- the matrices of the problem are those that were factored
  have hmatrix : p.dynamicsMatrix b.clique =
      p.dynamics[b.clique].matrix (p.cliqueSize b.clique) (p.cliqueSize b.clique) := by
    ext i j
    simp only [ContactProblem.dynamicsMatrix, ContactProblem.inertia, Mat.matrix,
      List.getElem?_eq_getElem hlt]
  have htranspose : b.jacobian.transpose.matrix (p.cliqueSize b.clique) c.equations =
      (p.jacobianMatrix c b).transpose := by
    ext i j
    exact b.jacobian.get_transpose (i.isLt.trans_eq hcols.symm) (j.isLt.trans_eq hheight.symm)
  have hsolved : p.solved b = L.solveColumns b.jacobian.transpose := by
    rw [ContactProblem.solved, h.factor_eq hk hL]
  rw [hmatrix, hsolved, ← htranspose]
  exact ⟨(hm _ hmem).isUnit_matrix hrows (hsquare.trans hrows) hofMat (hroots _ hmem L hofMat),
    (hm _ hmem).matrix_solveColumns hrows (hsquare.trans hrows) hofMat (hroots _ hmem L hofMat)
      hcols hheight⟩

/-- **Operators.** What has been computed is the operator of the constraint. -/
theorem delassus_get (hp : p.WellFormed) (h : Steps p m Ls) (hm : m.Symmetric)
    (hroots : m.RootsExact) (hc : c ∈ p.constraints) (i j : Fin c.equations) :
    (p.delassus c).get i j = p.delassusOperator c i j := by
  have hentry : p.delassusOperator c i j = (c.blocks.map fun b =>
      (p.jacobianMatrix c b * (p.dynamicsMatrix b.clique)⁻¹ *
        (p.jacobianMatrix c b).transpose) i j).sum := by
    rw [ContactProblem.delassusOperator]
    induction c.blocks with
    | nil => rfl
    | cons b blocks ih => rw [List.map_cons, List.sum_cons, List.map_cons, List.sum_cons, ← ih]; rfl
  rw [hentry, ContactProblem.delassus, Mat.get_ofFn _ _ i.isLt j.isLt]
  refine congrArg List.sum (List.map_congr_left fun b hb => ?_)
  have hcols : b.jacobian.cols = p.cliqueSize b.clique := (hp.getD_sizes hc hb).symm
  rw [Matrix.mul_assoc, ← (matrix_solved hp h hm hroots hc hb).2, Matrix.mul_apply, hcols,
    ← Fin.sum_univ_eq_sum_range fun a => b.jacobian.get i a * (p.solved b).get a j]
  rfl

/-- **Lengths.** The estimate at place `k` of the order is the length of the operator of the
constraint there, by its number of equations. -/
theorem exists_length (hp : p.WellFormed) (h : Steps p m Ls) (hm : m.Symmetric)
    (hroots : m.RootsExact) (hlengths : p.LengthsExact) {k : Nat}
    (hk : (pick p.constraints m.order)[k]? = some c) :
    ∃ x, 0 ≤ x ∧ x ^ 2 = ∑ i, ∑ j, p.delassusOperator c i j ^ 2 ∧
      m.delassus.get k = x / c.equations := by
  have hc : c ∈ p.constraints := h.mem_of_getElem?_pick hk
  obtain ⟨-, -, hestimate⟩ := h.delassus_spec hp hk
  obtain ⟨hnonneg, hsq⟩ := Mat.norm_exact (hlengths c hc)
  refine ⟨(p.delassus c).norm.value, hnonneg, ?_, ?_⟩
  · rw [hsq, Mat.squares]
    change ∑ i ∈ Finset.range c.equations, ∑ j ∈ Finset.range c.equations, _ = _
    rw [← Fin.sum_univ_eq_sum_range fun i => ∑ j ∈ Finset.range c.equations,
      (p.delassus c).get i j ^ 2]
    refine Finset.sum_congr rfl fun i _ => ?_
    rw [← Fin.sum_univ_eq_sum_range fun j => (p.delassus c).get i j ^ 2]
    refine Finset.sum_congr rfl fun j _ => ?_
    rw [delassus_get hp h hm hroots hc]
  · have hdata := congrArg Tensor.data hestimate
    exact List.head_eq_of_cons_eq hdata

end Model.Steps

namespace Model

variable {p : ContactProblem K} {m : Model K}

/-- What the stack of a model holds for constraint `i` of its problem at place `k`: the estimate of
the constraint, and the regularization and the bias that the constraint has for this estimate. -/
structure Belongs (p : ContactProblem K) (m : Model K) (k : Nat) (i : Int) (c : Constraint K) :
    Prop where
  constraint : p.constraintAt i = .ok c
  /-- the dynamics matrices of the cliques have inverses -/
  isUnit : ∀ b ∈ c.blocks, IsUnit (p.dynamicsMatrix b.clique)
  /-- the Frobenius norm of the operator, by the number of equations -/
  estimate : ∃ x, 0 ≤ x ∧ x ^ 2 = ∑ a, ∑ b, p.delassusOperator c a b ^ 2 ∧
    m.delassus.get k = x / c.equations
  member : m.stack.members[k]? = some ⟨i.toNat, c.cliques, c.equations, c.projection⟩
  regularization : c.regularization p.timeStep (Tensor.scalar p.format (m.delassus.get k)) =
    .ok (m.stack.R.block m.stack.J.heights k)
  bias : c.bias p.timeStep (Tensor.scalar p.format (m.delassus.get k)) =
    .ok (m.stack.vHat.block m.stack.J.heights k)

/-- **Estimates.** Let a model with symmetric dynamics be built from a problem, with roots that are
square roots, as real ones are (`rootsExact_real`, `ContactProblem.lengthsExact_real`). There is one
estimate for each constraint in the order of the graph. The one at place `k` is the Frobenius norm
of `Σ J·A⁻¹·Jᵀ` by the number of equations, for the constraint at place `k` of the order, over its
cliques in the problem. The regularization and the bias that the stack has at that place are those
the same constraint computes from this estimate. -/
theorem estimates_belong (hp : p.Constructed) (hm : build? p = .ok m) (hsymmetric : m.Symmetric)
    (hroots : m.RootsExact) (hlengths : p.LengthsExact) :
    p.graph = .ok m.graph ∧ m.delassus.size = m.graph.order.length ∧
      ∀ (k : Nat) (i : Int), m.graph.order[k]? = some i → ∃ c, Belongs p m k i c := by
  obtain ⟨Ls, h⟩ := exists_steps hm
  have hwf := hp.wellFormed
  obtain ⟨laws, hparts⟩ := h.exists_parts
  refine ⟨h.graph, ?_, fun k i hi => ?_⟩
  · obtain ⟨cs, hcs, hdelassus⟩ := Outcome.bind_eq_ok.mp h.delassus
    obtain ⟨ws, hws, hdelassus⟩ := Outcome.bind_eq_ok.mp hdelassus
    rw [← Outcome.pure_eq_ok.mp hdelassus, ← Outcome.length_of_mapM hcs,
      ← Outcome.length_of_mapM hws]
    exact List.length_map _
  · rw [h.graph_order, List.getElem?_map] at hi
    obtain ⟨n, hn, rfl⟩ := Option.map_eq_some_iff.mp hi
    have hlt := h.lt_of_mem_order n (List.mem_of_getElem? hn)
    have hat : p.constraints[n]? = some p.constraints[n] := List.getElem?_eq_getElem hlt
    have hk : (pick p.constraints m.order)[k]? = some p.constraints[n] := by
      rw [getElem?_pick h.lt_of_mem_order hn, hat]
    obtain ⟨⟨R, vHat⟩, hlaw, hanswer⟩ := hparts.exists_law hk
    obtain ⟨hR, hvHat⟩ := hparts.block_law hwf hlaw
    obtain ⟨hregularization, hbias⟩ := h.law_eq hwf hk hanswer
    obtain ⟨-, -, hestimate⟩ := h.delassus_spec hwf hk
    exact ⟨p.constraints[n], {
      constraint := ContactProblem.constraintAt_of_getElem? hat
      isUnit := fun b hb =>
        (h.matrix_solved hwf hsymmetric hroots (List.getElem_mem hlt) hb).1
      estimate := h.exists_length hwf hsymmetric hroots hlengths hk
      member := by
        rw [hparts.members, List.getElem?_zipWith, hn, hk]
        rfl
      regularization := by rw [hestimate, hregularization, hR]
      bias := by rw [hestimate, hbias, hvHat] }⟩

end Model

namespace ContactProblem

/-- Four cliques, of which the second, of two velocities, and the last, of one, take part.
Constraints on the last one alone alternate with constraints between the two, which name them in
either order. Regularization and bias depend on the estimates. -/
def alternatingSample? : Except (Error ℚ) (ContactProblem ℚ) :=
  let side (n : Nat) (c a : ℚ) : LawSide ℚ :=
    (Term.affine (Vec.replicate .double n c).toTensor
      (some (Vec.replicate .double n a).toTensor) none none).side
  let law (n : Nat) : Law ℚ := { bias := side n 1 3, regularization := side n 1 2 }
  let g (n : Nat) : Given ℚ := .tensor (Vec.zeros .double n).toTensor
  let push := Constraint.build? (law 1) .nonneg (g 1) 3 (.tensor (.ofSlabs .double [1] [[3]]))
    none none
  let coupling := Constraint.build? (law 2) .identity (g 2) 3
    (.tensor (.ofSlabs .double [1] [[0], [6]])) (some 1)
    (some (.tensor (.ofSlabs .double [2] [[6, 3], [0, 6]])))
  let free := Constraint.build? (law 2) .zero (g 2) 3 (.tensor (.ofSlabs .double [1] [[3], [4]]))
    none none
  let reversed := Constraint.build? (law 1) .nonneg (g 1) 1
    (.tensor (.ofSlabs .double [2] [[2, 1]])) (some 3) (some (.tensor (.ofSlabs .double [1] [[3]])))
  assemble? ⟨.double, 1 / 100⟩
    [.tensor (.ofSlabs .double [1] [[1]]), .tensor (.ofSlabs .double [2] [[4, 2], [2, 2]]),
      .tensor (.ofSlabs .double [1] [[1]]), .tensor (.ofSlabs .double [1] [[9]])]
    (.tensor (Vec.mk .double [1, 2, 3, 4, 5]).toTensor)
    [push, coupling, free, reversed]

/-- This problem can be met. -/
theorem constructed_alternatingSample {p : ContactProblem ℚ} (h : alternatingSample? = .ok p) :
    p.Constructed :=
  constructed_of_assemble (by simp) h

end ContactProblem

namespace Model

/-- Neither the order of the problem nor its reverse is the order of the clusters here. -/
theorem estimates_belong_sample :
    ∃ (p : ContactProblem ℚ) (m : Model ℚ), ContactProblem.alternatingSample? = .ok p ∧
      build? p = .ok m ∧ m.graph.order = [0, 2, 1, 3] ∧
      m.delassus.entries = [1, 25 / 18, 41 / 2, 2] ∧
      ∀ (k : Nat) (i : Int), m.graph.order[k]? = some i → ∃ c, Belongs p m k i c := by
  obtain ⟨p, hp, h⟩ := Outcome.exists_of_check (x := ContactProblem.alternatingSample?)
    (P := fun p => p.LengthsExact && (build? p).toOption.any fun m =>
      m.Symmetric && m.RootsExact && m.graph.order == [0, 2, 1, 3] &&
        m.delassus.entries == [1, 25 / 18, 41 / 2, 2]) (by decide +kernel)
  rw [Bool.and_eq_true] at h
  obtain ⟨hlengths, h⟩ := h
  obtain ⟨m, hm, h⟩ := Outcome.exists_of_check h
  simp only [Bool.and_eq_true, beq_iff_eq, decide_eq_true_eq] at h hlengths
  obtain ⟨⟨⟨hsymmetric, hroots⟩, horder⟩, hentries⟩ := h
  exact ⟨p, m, hp, hm, horder, hentries,
    (estimates_belong (ContactProblem.constructed_alternatingSample hp) hm hsymmetric hroots
      hlengths).2.2⟩

end Model

end ConvexContact
