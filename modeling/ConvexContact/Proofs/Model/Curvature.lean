import ConvexContact.Proofs.Model.Convexity
import ConvexContact.Proofs.Model.DenseHessian
import ConvexContact.Proofs.Model.SecondDerivative

/-!
# Curvature of the cost

The Hessian `A + Jᵀ·G·J` bends upwards in a direction `w` by the energy `wᵀ·A·w` of the direction
and by what the constraints put up against it, the forms of their blocks `G` on the motions `J·w`.

A projection under which each component moves by itself, and not against its impulse, has a diagonal
Jacobian without negative entries, and so has its block `G = dP/dy·R⁻¹`, whatever the components
that move. So these forms are not negative, and the Hessian is symmetric. Together with the
definiteness of the dynamics this makes the Hessian positive definite.
-/

namespace ConvexContact

/-! ## Projections

The projections are told apart in this section only. What comes after it knows of their Jacobians
that they are diagonal, without negative entries. -/

section Projections

variable {K : Type}

/-- The projections of `n` impulses under which each component moves by itself, and not against its
impulse. -/
def Projection.MovesAlone (n : Nat) : Projection K → Prop
  | nonneg | identity | zero | box _ _ | timesR => True
  | identityOn k => k = n
  | _ => False

instance (n : Nat) (P : Projection K) : Decidable (P.MovesAlone n) :=
  match P with
  | .nonneg | .identity | .zero | .box _ _ | .timesR => isTrue trivial
  | .identityOn k => inferInstanceAs (Decidable (k = n))
  | .linear _ | .dropLast | .withoutJacobian | .wideJacobian | .unspecified | .rule _ =>
    isFalse id

/-- The projection of a spring is one of them. -/
theorem Spring.movesAlone_of_build [Arith K] {clique : Int} {x : Given K} {k τ : Scalar K}
    {c : Constraint K} (h : Spring.build? clique x k τ = .ok c) :
    c.projection.MovesAlone c.equations := by
  rw [projection_of_build h]
  exact rfl

/-- They have a derivative. -/
theorem Projection.MovesAlone.hasDerivative {P : Projection K} {n : Nat} (h : P.MovesAlone n) :
    P.HasDerivative n := by
  cases P with
  | identityOn k => exact h
  | nonneg | identity | zero | box _ _ | timesR => trivial
  | linear _ | dropLast | withoutJacobian | wideJacobian | unspecified | rule _ => exact h.elim

end Projections

variable {K : Type} [ExactField K]

/-- A matrix of `n` rows and columns without entries off its diagonal, and without negative ones on
it. -/
structure Mat.DiagonalNonneg (D : Mat K) (n : Nat) : Prop where
  off_diagonal : ∀ i < n, ∀ j < n, i ≠ j → D.get i j = 0
  diagonal : ∀ i < n, 0 ≤ D.get i i

namespace Mat.DiagonalNonneg

variable {n : Nat} {D : Mat K}

/-- Entries that are given on the diagonal. -/
theorem of_get {d : Nat → K} (hget : ∀ i < n, ∀ j < n, D.get i j = if i = j then d i else 0)
    (hd : ∀ i < n, 0 ≤ d i) : D.DiagonalNonneg n where
  off_diagonal i hi j hj hij := by rw [hget i hi j hj, if_neg hij]
  diagonal i hi := by
    rw [hget i hi i hi, if_pos rfl]
    exact hd i hi

/-- Entries of a vector on the diagonal. -/
theorem diag {d : Vec K} (hd : ∀ i < d.size, 0 ≤ d.get i) : (Mat.diag d).DiagonalNonneg d.size :=
  of_get (fun _ hi _ hj => Mat.get_diag d hi hj) hd

/-- Columns that are scaled by what is not negative. -/
theorem scaleColumns (hD : D.DiagonalNonneg n) (hrows : D.rows = n) (hcols : D.cols = n) {v : Vec K}
    (hv : ∀ i < n, 0 ≤ v.get i) : (D.scaleColumns v).DiagonalNonneg n := by
  have hget : ∀ i < n, ∀ j < n, (D.scaleColumns v).get i j = D.get i j * v.get j :=
    fun i hi j hj => Mat.get_ofFn _ _ (by rw [hrows]; exact hi) (by rw [hcols]; exact hj)
  refine ⟨fun i hi j hj hij => ?_, fun i hi => ?_⟩
  · rw [hget i hi j hj, hD.off_diagonal i hi j hj hij, zero_mul]
  · rw [hget i hi i hi]
    exact mul_nonneg (hD.diagonal i hi) (hv i hi)

/-- The form of the matrix is the sum of its diagonal entries times squares. -/
theorem form_nonneg (hD : D.DiagonalNonneg n) (x : Nat → K) : 0 ≤ form n D.get x := by
  refine Finset.sum_nonneg fun l hl => ?_
  have hl := Finset.mem_range.mp hl
  rw [sum_diagonal_mul x hl fun j hj => ?_]
  · rw [mul_left_comm]
    exact mul_nonneg (hD.diagonal l hl) (mul_self_nonneg _)
  · split_ifs with hlj
    · rw [hlj]
    · exact hD.off_diagonal l hl j hj hlj

end Mat.DiagonalNonneg

/-- Such a matrix is symmetric. -/
theorem Mat.DiagonalNonneg.get_comm {n : Nat} {D : Mat K} (hD : D.DiagonalNonneg n) {i j : Nat}
    (hi : i < n) (hj : j < n) : D.get i j = D.get j i := by
  by_cases hij : i = j
  · rw [hij]
  · rw [hD.off_diagonal i hi j hj hij, hD.off_diagonal j hj i hi (Ne.symm hij)]

/-- **Jacobians.** The Jacobian of a projection under which each component moves by itself is
diagonal, whatever the components that move. -/
theorem Projection.MovesAlone.diagonalNonneg {P : Projection K} {n : Nat} (hP : P.MovesAlone n)
    {y R γ : Vec K} {D : Mat K} (hy : y.size = n) (hR : R.size = n)
    (hpos : ∀ l < n, 0 ≤ R.get l) (hrun : P.run y R true = .ok (γ, some D)) :
    D.DiagonalNonneg n := by
  have hnamed : P.isRule = false := by
    cases P with
    | rule _ => exact hP.elim
    | _ => rfl
  rw [run_of_named hnamed] at hrun
  obtain ⟨γ', -, heq⟩ := Outcome.map_eq_ok.mp hrun
  have hD : P.jacobian y R = some D := (Prod.mk.inj heq).2
  -- three kinds of Jacobians: masks of ones and zeros, multiples of the identity, and `R` itself
  have hmask : ∀ moving : K → Bool,
      (Mat.diag (y.map fun x => (indicator (moving x) : K))).DiagonalNonneg n := by
    intro moving
    rw [← hy, ← Vec.size_map (fun x => (indicator (moving x) : K)) y]
    refine .diag fun l hl => ?_
    rw [Vec.get_map _ (by rwa [Vec.size_map] at hl), indicator]
    split_ifs
    · exact zero_le_one
    · exact le_rfl
  have hidentity : ∀ f, (Mat.identity f n : Mat K).DiagonalNonneg n := fun f =>
    .of_get (fun i hi j hj => Mat.get_ofFn _ _ hi hj) fun _ _ => zero_le_one
  cases P with
  | nonneg | box _ _ =>
    rw [← Option.some.inj hD]
    exact hmask _
  | identity =>
    rw [← Option.some.inj hD, hy]
    exact hidentity _
  | identityOn k =>
    obtain rfl : k = n := hP
    rw [← Option.some.inj hD]
    exact hidentity _
  | zero =>
    rw [← Option.some.inj hD, hy]
    have hzero : ∀ i < n, ∀ j < n, (Mat.zeros y.format n n).get i j = (0 : K) :=
      fun i hi j hj => Mat.get_ofFn _ _ hi hj
    exact ⟨fun i hi j hj _ => hzero i hi j hj, fun i hi => (hzero i hi i hi).ge⟩
  -- here the diagonal is the regularization, which is why its sign is asked for
  | timesR =>
    subst hR
    rw [← Option.some.inj hD]
    exact .diag hpos
  | linear _ | dropLast | withoutJacobian | wideJacobian | unspecified | rule _ => exact hP.elim

namespace Model

variable {m : Model K} {ts : List (PlacedBlock K)} {G : List (Mat K)} {v w : Vec K}

/-! ## Blocks -/

/-- A number that has a positive multiple which is one is positive. -/
theorem pos_of_mul_eq_one {a b : K} (ha : 0 < a) (hab : a * b = 1) : 0 < b :=
  pos_of_mul_pos_right (hab ▸ one_pos) ha.le

/-- **Blocks.** Where every projection moves each component by itself, the blocks of the Hessian are
diagonal and have no negative entries. -/
theorem WellFormed.exists_diagonal_blocks (h : m.WellFormed ts) (hv : m.Fits v)
    (halone : ∀ c ∈ m.stack.members, c.projection.MovesAlone c.equations)
    (hR : ∀ k l, l < m.stack.J.heights.getD k 0 →
      0 < m.stack.R.coord Reading.exact m.stack.J.heights k l ∧
      m.stack.R.coord Reading.exact m.stack.J.heights k l *
        m.stack.Rinv.coord Reading.exact m.stack.J.heights k l = 1) :
    ∃ G : List (Mat K), m.valueAt v .constraintsHessian = .ok G ∧ m.FitsBlocks G ∧
      ∀ (k : Nat) (B : Mat K), G[k]? = some B → B.DiagonalNonneg (m.stack.J.heights.getD k 0) := by
  obtain ⟨G, -, hG, hfits, -⟩ := h.exists_tangent_impulses hv hv.size
    fun c hc => (halone c hc).hasDerivative
  refine ⟨G, hG, hfits, fun k B hB => ?_⟩
  obtain ⟨y, hy, hysize, -⟩ := h.exists_unprojectedImpulses Reading.exact hv
  rw [valueAt_constraintsHessian, hy, Outcome.bind_of_ok _ rfl] at hG
  obtain ⟨answer, hanswer, hG⟩ := Outcome.bind_eq_ok.mp hG
  obtain ⟨pairs, hpairs, rfl⟩ := (Stack.projectWithHessian_eq_ok hysize).mp hanswer
  obtain rfl := Except.ok.inj hG
  rw [List.getElem?_map] at hB
  obtain ⟨pair, hpair, rfl⟩ := Option.map_eq_some_iff.mp hB
  obtain ⟨⟨c, i⟩, hci, -, D, hD, ⟨hrows, hcols⟩, hblock⟩ := getElem?_of_forall₂ hpairs.flip hpair
  obtain ⟨hc, rfl⟩ : m.stack.members[k]? = some c ∧ k = i := by
    rw [List.getElem?_zipIdx] at hci
    simpa using hci
  have hheight := h.getD_heights hc
  have hsize : ∀ x : Vec K, x.size = total m.stack.J.heights →
      (x.block m.stack.J.heights k).size = c.equations := fun x hx => by
    rw [Vec.size_block hx, hheight]
  rw [← hheight] at hrows hcols hsize
  -- both scalings, `R` and `R⁻¹`, have positive entries
  have hnonneg : ∀ x : Vec K, (∀ l < m.stack.J.heights.getD k 0,
      0 < x.coord Reading.exact m.stack.J.heights k l) →
      ∀ l < m.stack.J.heights.getD k 0, 0 ≤ (x.block m.stack.J.heights k).get l :=
    fun x hx l hl => by
      rw [Vec.get_block hl]
      exact (hx l hl).le
  have halone := halone c (List.mem_of_getElem? hc)
  rw [← hheight] at halone
  rw [hblock]
  refine Mat.DiagonalNonneg.scaleColumns ?_ hrows hcols (hnonneg _ fun l hl => ?_)
  · exact halone.diagonalNonneg (hsize y hysize) (hsize _ h.R_size)
      (hnonneg _ fun l hl => (hR k l hl).1) hD
  · exact pos_of_mul_eq_one (hR k l hl).1 (hR k l hl).2

/-- Where there is no block there are no entries, so what holds of the entries of blocks holds of
all entries. -/
theorem entryOf_comm {k n i j : Nat} (hG : ∀ B, G[k]? = some B → B.DiagonalNonneg n) (hi : i < n)
    (hj : j < n) : entryOf G k i j = entryOf G k j i := by
  rw [entryOf, entryOf]
  cases hB : G[k]? with
  | none => rfl
  | some B => exact (hG B hB).get_comm hi hj

/-- So are the forms: none of them is negative. -/
theorem form_entryOf_nonneg {k n : Nat} (hG : ∀ B, G[k]? = some B → B.DiagonalNonneg n)
    (x : Nat → K) : 0 ≤ form n (entryOf G k) x := by
  cases hB : G[k]? with
  | none =>
    have hzero : entryOf G k = fun _ _ => 0 := by
      funext i j
      rw [entryOf, hB]
    rw [hzero, form]
    simp
  | some B =>
    have hentries : entryOf G k = B.get := by
      funext i j
      rw [entryOf_of_getElem? hB]
    rw [hentries]
    exact (hG B hB).form_nonneg x

/-! ## Symmetry -/

/-- **Symmetry.** What a constraint contributes to the cell of two cliques is mirrored in the cell
with the cliques exchanged, where its block is symmetric. -/
theorem coupling_comm (m : Model K) {k : Nat}
    (hG : ∀ l < m.stack.J.heights.getD k 0, ∀ q < m.stack.J.heights.getD k 0,
      entryOf G k l q = entryOf G k q l) (b a i j : Nat) :
    m.coupling G k b a i j = m.coupling G k a b j i := by
  simp only [coupling, Finset.mul_sum]
  rw [Finset.sum_comm]
  refine Finset.sum_congr rfl fun q hq => Finset.sum_congr rfl fun l hl => ?_
  rw [hG l (Finset.mem_range.mp hl) q (Finset.mem_range.mp hq)]
  ring

/-- A Hessian with symmetric dynamics and symmetric blocks is symmetric. -/
theorem IsHessian.symmetric {H : Mat K} (hH : m.IsHessian G H) (hm : m.Symmetric)
    (hG : ∀ k, ∀ l < m.stack.J.heights.getD k 0, ∀ q < m.stack.J.heights.getD k 0,
      entryOf G k l q = entryOf G k q l) : H.Symmetric := by
  rintro r hr c hc
  rw [hH.rows] at hr hc
  obtain ⟨b, i, hi, rfl⟩ := exists_offset_add hr
  obtain ⟨a, j, hj, rfl⟩ := exists_offset_add hc
  rw [hH.get b a i j hi hj, hH.get a b j i hj hi, sum_touching, sum_touching]
  congr 1
  -- on the diagonal the dynamics have to be symmetric, and elsewhere they contribute nothing
  · by_cases hab : a = b
    · subst hab
      rw [if_pos rfl, if_pos rfl, hm.entryOf_comm hi hj]
    · rw [if_neg hab, if_neg (Ne.symm hab)]
  · exact Finset.sum_congr rfl fun k _ => m.coupling_comm (hG k) b a i j

/-! ## Energy of directions -/

/-- **Curvature.** A direction against its product with the Hessian is its energy and what the
blocks put up against the motions of the constraints. -/
theorem WellFormed.dot_product_eq (h : m.WellFormed ts) (hG : m.FitsBlocks G) (hw : m.Fits w)
    {x : Vec K} (hx : m.multiplyHessianOf G w = .ok x) :
    (w.dot x).value = m.energy (w.coord Reading.exact m.sizes) +
      ∑ k ∈ Finset.range m.stack.J.heights.length,
        form (m.stack.J.heights.getD k 0) (entryOf G k) (m.motion ts w k) := by
  obtain ⟨x', hx', hxsize, -, hxcoord⟩ := h.exists_product hG hw
  obtain rfl : x' = x := Except.ok.inj (hx'.symm.trans hx)
  have hadjoint := h.lists.sum_adjoint Reading.exact w (m.resistance ts G w)
  rw [h.widths] at hadjoint
  have hdot := Vec.map_dot_blocks Reading.exact hw.size hxsize
  refine hdot.trans ?_
  -- by the adjoint law the resistances are weighed by the motions
  have hforms : ∑ k ∈ Finset.range m.stack.J.heights.length,
      form (m.stack.J.heights.getD k 0) (entryOf G k) (m.motion ts w k) =
      ∑ k ∈ Finset.range m.stack.J.heights.length,
        ∑ l ∈ Finset.range (m.stack.J.heights.getD k 0),
          m.resistance ts G w k l * m.motion ts w k l :=
    Finset.sum_congr rfl fun k _ => Finset.sum_congr rfl fun l _ => mul_comm _ _
  rw [hforms]
  refine Eq.trans ?_ (congrArg (m.energy (w.coord Reading.exact m.sizes) + ·) hadjoint.symm)
  rw [energy, ← Finset.sum_add_distrib]
  refine Finset.sum_congr rfl fun b _ => ?_
  rw [form, ← Finset.sum_add_distrib]
  refine Finset.sum_congr rfl fun i hi => ?_
  rw [hxcoord b i (Finset.mem_range.mp hi), mul_add]
  rfl

/-! ## Models of problems -/

/-- **The Hessian is positive definite.** Let a model be built from a problem all of whose
constraints project by the positive part, the identity, zero, bounds or the regularization, where
springs project by the identity, and let its dynamics be symmetric. At all velocities `v`, from any
state, the dense Hessian `H` has a value. It is symmetric, and `wᵀ·H·w` is at least the energy
`wᵀ·A·w`, which is positive for all `w` that are not zero.

This needs roots of the pivots that are square roots, as real ones are. -/
theorem hessian_definite {p : ContactProblem K} (hp : p.Constructed) (hm : build? p = .ok m)
    (hf : p.constraints = [] → p.format.isFloating = true)
    (halone : ∀ c ∈ p.constraints, c.projection.MovesAlone c.equations)
    (hsymmetric : m.Symmetric) (hroots : m.RootsExact) (hv : m.Fits v)
    {s : ModelState K (Quantity.Value K)} (hs : s.size = m.velocityCount) :
    ∃ H : Mat K, m.evalAt s .hessian (.tensor v.toTensor) = .ok H ∧
      (H.rows = m.velocityCount ∧ H.cols = m.velocityCount) ∧ H.Symmetric ∧
      ∀ w, m.Fits w →
        m.energy (w.coord Reading.exact m.sizes) ≤ (w.dot (H.mulVec w)).value ∧
        ((∃ i < m.velocityCount, w.get i ≠ 0) →
          0 < m.energy (w.coord Reading.exact m.sizes)) := by
  obtain ⟨Ls, h⟩ := exists_steps hm
  have hwf := hp.wellFormed
  have hf := h.floating hwf hf
  have hmodel := Steps.wellFormed hwf hf h
  obtain ⟨G, hG, hfits, hdiagonal⟩ := hmodel.exists_diagonal_blocks hv
    (h.forall_members (P := fun P n => P.MovesAlone n) halone)
    fun k l hl => ⟨h.R_pos hwf hf hl, h.R_mul_Rinv hwf hf hl⟩
  obtain ⟨H, hH, hhessian, hformat⟩ := hmodel.exists_hessian hfits
  refine ⟨H, ?_, ⟨hhessian.rows, hhessian.cols⟩, ?_, fun w hw => ⟨?_, ?_⟩⟩
  · rw [evalAt_hessian hs hv.size, valueAt_hessian, hG]
    exact hH
  · exact hhessian.symmetric hsymmetric fun k l hl q hq => entryOf_comm (hdiagonal k) hl hq
  · have hproduct := hmodel.mulVec_hessian (h.scattered hwf) hfits hhessian hformat hw
    rw [hmodel.dot_product_eq hfits hw hproduct]
    exact le_add_of_nonneg_right (Finset.sum_nonneg fun k _ =>
      form_entryOf_nonneg (hdiagonal k) _)
  · rintro ⟨n, hn, hne⟩
    obtain ⟨k, i, hi, rfl⟩ := exists_offset_add hn
    have hpos := (h.definiteUpToAsymmetry hwf hroots).energy_pos
      (d := w.coord Reading.exact m.sizes) hi hne
    rwa [hsymmetric.asymmetry_eq_zero, add_zero] at hpos

end Model

namespace ContactProblem

/-- Two cliques, of two and three velocities, the dynamics of the first one coupled. A constraint
pushes at the first clique, one couples the two within bounds, one of two equations scales its
impulses by the regularization, one makes no impulses, and the second clique hangs on a spring. -/
def restrainedSample? : Except (Error ℚ) (ContactProblem ℚ) :=
  let law (bias regularization : List ℚ) : Law ℚ :=
    { bias := (Term.fixed (.tensor (Vec.mk .double bias).toTensor)).side
      regularization := (Term.fixed (.tensor (Vec.mk .double regularization).toTensor)).side }
  let g (n : Nat) : Given ℚ := .tensor (Vec.mk .double (List.replicate n 0)).toTensor
  let push := Constraint.build? (law [1] [1 / 2]) .nonneg (g 1) 0
    (.tensor (.ofSlabs .double [2] [[1, 1]])) none none
  let coupling := Constraint.build? (law [0] [1 / 2]) (.box (-1) 1) (g 1) 1
    (.tensor (.ofSlabs .double [3] [[1, 0, -1]])) (some 0)
    (some (.tensor (.ofSlabs .double [2] [[0, 1]])))
  let scaled := Constraint.build? (law [0, 1] [2, 3]) .timesR (g 2) 1
    (.tensor (.ofSlabs .double [3] [[0, 1, 0], [1, 1, 0]])) none none
  let free := Constraint.build? (law [0] [1]) .zero (g 1) 0
    (.tensor (.ofSlabs .double [2] [[1, 0]])) none none
  let spring := Spring.build? 1 (.tensor (Vec.mk .double [1, 0, 0]).toTensor) ⟨.double, 100⟩
    ⟨.double, 1 / 10⟩
  assemble? ⟨.double, 1 / 100⟩
    [.tensor (.ofSlabs .double [2] [[4, 2], [2, 5]]),
      .tensor (.ofSlabs .double [3] [[1, 0, 0], [0, 1, 0], [0, 0, 4]])]
    (.tensor (Vec.mk .double [1, 5, 2, 3, 0]).toTensor)
    [push, coupling, scaled, free, spring]

/-- This problem can be met. -/
theorem constructed_restrainedSample {p : ContactProblem ℚ} (h : restrainedSample? = .ok p) :
    p.Constructed :=
  constructed_of_assemble (by simp) h

end ContactProblem

namespace Model

/-- Velocities of the restrained model, and a direction. -/
def restrainedMotion : Vec ℚ × Vec ℚ := (⟨.double, [1, -2, 3, 0, 1]⟩, ⟨.double, [0, 1, 4, -1, 2]⟩)

/-- Every kind of projection of the class is among the constraints of this model. -/
theorem hessian_definite_sample :
    ∃ (p : ContactProblem ℚ) (m : Model ℚ) (H : Mat ℚ), ContactProblem.restrainedSample? = .ok p ∧
      build? p = .ok m ∧
      m.evalAt m.makeState .hessian (.tensor restrainedMotion.1.toTensor) = .ok H ∧
      H.Symmetric ∧
      0 < m.energy (restrainedMotion.2.coord Reading.exact m.sizes) ∧
      m.energy (restrainedMotion.2.coord Reading.exact m.sizes) ≤
        (restrainedMotion.2.dot (H.mulVec restrainedMotion.2)).value := by
  obtain ⟨p, hp, h⟩ := Outcome.exists_of_check (x := ContactProblem.restrainedSample?)
    (P := fun p => p.format == .double &&
      p.constraints.all (fun c => c.projection.MovesAlone c.equations) &&
      (build? p).toOption.any fun m => m.velocityCount == 5 && m.format == .double &&
        m.Symmetric && m.RootsExact)
    (by decide +kernel)
  simp only [Bool.and_eq_true, beq_iff_eq, List.all_eq_true, decide_eq_true_eq] at h
  obtain ⟨⟨hformat, halone⟩, h⟩ := h
  obtain ⟨m, hm, h⟩ := Outcome.exists_of_check h
  simp only [Bool.and_eq_true, beq_iff_eq, decide_eq_true_eq] at h
  obtain ⟨⟨⟨hcount, hmformat⟩, hsymmetric⟩, hroots⟩ := h
  obtain ⟨H, hH, -, hHsymmetric, hdefinite⟩ := hessian_definite
    (ContactProblem.constructed_restrainedSample hp) hm (fun _ => by rw [hformat]; rfl) halone
    hsymmetric hroots (v := restrainedMotion.1) ⟨hcount.symm, hmformat.symm⟩ (s := m.makeState) rfl
  obtain ⟨hle, hpos⟩ := hdefinite restrainedMotion.2 ⟨hcount.symm, hmformat.symm⟩
  exact ⟨p, m, H, hp, hm, hH, hHsymmetric,
    hpos ⟨1, by rw [hcount]; decide, by decide⟩, hle⟩

end Model

end ConvexContact
