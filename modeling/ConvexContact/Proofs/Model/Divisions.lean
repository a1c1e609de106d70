import ConvexContact.Proofs.Model.Estimates
import ConvexContact.Proofs.Model.Responses
import ConvexContact.Proofs.System.ImplicitStep

/-!
# What a model divides by

None of the divisions of a model is guarded where it is made. What is divided by has been checked
elsewhere: the regularization by the constraint that answers it, the diagonals of the dynamics by
the factorization, and the number of equations by the constructor of the constraint. So in exact
arithmetic nothing is divided by zero, and roots are taken of positive numbers only
(`Model.DividesSafely`).

The diagonals are the least direct. A factorization only looks at its pivots, but it succeeds only
if the mirrored lower triangle is positive definite, whose form at a unit vector is an entry of the
diagonal (`Mat.diagonal_pos`). The entries above the diagonal do not matter, so this holds of
matrices that are symmetric within the tolerance only.

Proof shape: each field of `Model.DividesSafely` has a lemma of its own about models whose steps are
known (`Model.Steps`), over any exact field where roots are square roots, and the main statement
lists them for the reals.
-/

namespace ConvexContact

variable {K : Type} [ExactField K]

/-! ## Reciprocals of roots -/

/-- The reciprocal of the root of a positive number is positive, and its square cancels against the
number. -/
theorem Arith.RootExact.inv_root {a : K} (h : RootExact a) (ha : 0 < a) :
    0 < (ExactField.root a)⁻¹ ∧ (ExactField.root a)⁻¹ ^ 2 * a = 1 := by
  obtain ⟨hnonneg, hsq⟩ := h
  have hne : ExactField.root a ≠ 0 := by
    intro hzero
    rw [hzero, zero_pow two_ne_zero] at hsq
    exact ha.ne hsq
  refine ⟨inv_pos.mpr (lt_of_le_of_ne hnonneg hne.symm), ?_⟩
  calc (ExactField.root a)⁻¹ ^ 2 * a
      = (ExactField.root a)⁻¹ ^ 2 * ExactField.root a ^ 2 := by rw [hsq]
    _ = 1 := by rw [← mul_pow, inv_mul_cancel₀ hne, one_pow]

/-- The root of each entry, and its reciprocal. -/
theorem Vec.get_inverse_sqrt {v : Vec K} {i : Nat} (hi : i < v.size) :
    v.sqrt.inverse.get i = (ExactField.root (v.get i))⁻¹ := by
  have hi' : i < v.entries.length := hi
  have hsize : i < v.sqrt.size := by simpa [sqrt, size] using hi'
  have hroot : v.sqrt.get i = ExactField.root (v.get i) := by
    simp [sqrt, get, List.getD_eq_getElem?_getD, hi']
    rfl
  rw [get_inverse hsize, hroot]

/-! ## Diagonals -/

namespace Mat

variable {A : Mat K}

/-- A square matrix has a diagonal entry in each row, -/
theorem size_diagonal (hsquare : A.cols = A.rows) : A.diagonal.size = A.rows := by
  simp [diagonal, Vec.size, hsquare]

/-- which is the entry of the matrix there. -/
theorem get_diagonal (hsquare : A.cols = A.rows) {i : Nat} (hi : i < A.rows) :
    A.diagonal.get i = A.get i i := by
  simp [diagonal, Vec.get, List.getD_eq_getElem?_getD, hsquare, hi]

/-- **Diagonals.** A matrix that has been factored has a positive diagonal. -/
theorem diagonal_pos (hsquare : A.cols = A.rows) {L : CholeskyFactor K}
    (h : CholeskyFactor.ofMat? A = some L) (hL : L.RootsExact) {i : Nat} (hi : i < A.rows) :
    0 < A.get i i := by
  have hpos := form_mirrored_pos hsquare h hL (w := fun j => if j = i then 1 else 0)
    ⟨i, hi, by rw [if_pos rfl]; exact one_ne_zero⟩
  rw [form_single hi, mirrored, max_self, min_self] at hpos
  exact hpos

end Mat

namespace Model

section Diagonals

variable {f : Format} {As : List (Mat K)}

/-- The diagonals of square matrices have the sizes of the matrices. -/
theorem map_size_diagonal (hsquare : ∀ A ∈ As, A.cols = A.rows) :
    (As.map Mat.diagonal).map Vec.size = As.map (·.rows) := by
  rw [List.map_map]
  exact List.map_congr_left fun A hA => Mat.size_diagonal (hsquare A hA)

/-- Where there are matrices, their diagonals are joined first. -/
theorem invSqrtDiagonal_eq (hAs : As ≠ []) :
    invSqrtDiagonal (K := K) f As = (Vec.concat f (As.map Mat.diagonal)).sqrt.inverse := by
  cases As with
  | nil => exact absurd rfl hAs
  | cons A As => rfl

/-- There is an entry for each row of each matrix. -/
theorem size_invSqrtDiagonal (hsquare : ∀ A ∈ As, A.cols = A.rows) :
    (invSqrtDiagonal f As).size = total (As.map (·.rows)) := by
  by_cases hAs : As = []
  · rw [hAs]
    rfl
  · rw [← map_size_diagonal hsquare, ← Vec.size_concat f, invSqrtDiagonal_eq hAs]
    simp [Vec.inverse, Vec.sqrt, Vec.size]

/-- Each entry belongs to an entry of the diagonal of one of the matrices. -/
theorem get_invSqrtDiagonal (hsquare : ∀ A ∈ As, A.cols = A.rows) {k i : Nat} {A : Mat K}
    (hk : As[k]? = some A) (hi : i < A.rows) :
    (invSqrtDiagonal f As).get (offset (As.map (·.rows)) k + i) =
      (ExactField.root (A.get i i))⁻¹ := by
  have hA := hsquare A (List.mem_of_getElem? hk)
  have hne : As ≠ [] := by
    rintro rfl
    cases hk
  have hpart : (As.map Mat.diagonal)[k]? = some A.diagonal := by rw [List.getElem?_map, hk]; rfl
  have hi' : i < A.diagonal.size := by rw [Mat.size_diagonal hA]; exact hi
  have hentry := Vec.coord_concat Reading.exact (f := f) hpart hi'
  rw [Vec.coord, Reading.exact_apply, map_size_diagonal hsquare] at hentry
  have hplace : offset (As.map (·.rows)) k + i < (Vec.concat f (As.map Mat.diagonal)).size := by
    rw [Vec.size_concat, map_size_diagonal hsquare]
    exact offset_add_lt (by rw [List.getD_eq_getElem?_getD, List.getElem?_map, hk]; exact hi)
  rw [invSqrtDiagonal_eq hne, Vec.get_inverse_sqrt hplace, hentry, Reading.exact_apply,
    Mat.get_diagonal hA hi]

end Diagonals

end Model

/-! ## Unprojected impulses -/

/-- A difference that has a value is the difference, -/
theorem Vec.difference_eq_ok {v w d : Vec K} (h : v.difference w = .ok d) : d = v.sub w := by
  simp only [difference, sub?] at h
  split at h
  · rename_i hd
    rw [Option.ite_none_left_eq_some, Option.some.injEq] at hd
    rw [← Except.ok.inj h, ← hd.2]
  · cases h

/-- and an opposite the opposite. -/
theorem Vec.opposite_eq_ok {v w : Vec K} (h : v.opposite = .ok w) : w = v.neg := by
  simp only [opposite, neg?] at h
  split at h
  · rename_i hw
    rw [Option.ite_none_left_eq_some, Option.some.injEq] at hw
    rw [← Except.ok.inj h, ← hw.2]
  · cases h

/-- What is answered for velocities of the constraints. -/
theorem Stack.unproject_eq_ok {s : Stack K} {vc y : Vec K} (h : s.unproject vc = .ok y) :
    vc.size = s.equations ∧ y = s.Rinv.neg.mul (vc.sub s.vHat) := by
  unfold unproject at h
  split at h
  · cases h
  · rename_i hsize
    obtain ⟨r, hr, h⟩ := Outcome.bind_eq_ok.mp h
    obtain ⟨d, hd, h⟩ := Outcome.bind_eq_ok.mp h
    rw [Vec.opposite_eq_ok hr, Vec.difference_eq_ok hd] at h
    exact ⟨not_not.mp hsize, (Outcome.pure_eq_ok.mp h).symm⟩

namespace Model

/-- Everything that a model of a problem divides by is positive, and so is everything that it takes
the root of. -/
structure DividesSafely (p : ContactProblem K) (m : Model K) : Prop where
  size_R : m.stack.R.size = m.stack.equations ∧ m.stack.Rinv.size = m.stack.equations
  regularization : ∀ i < m.stack.equations,
    0 < m.stack.R.get i ∧ m.stack.R.get i * m.stack.Rinv.get i = 1
  /-- unprojected impulses `y` solve `R·y + v_c = v̂` -/
  unproject : ∀ vc y, m.stack.unproject vc = .ok y → y.size = m.stack.equations ∧
    ∀ i < m.stack.equations, m.stack.R.get i * y.get i + vc.get i = m.stack.vHat.get i
  /-- there are unprojected impulses at all velocities -/
  unprojected : (p.constraints = [] → p.format.isFloating = true) →
    ∀ (v : Vec K) (s : ModelState K (Quantity.Value K)), m.Fits v → s.size = m.velocityCount →
      ∃ vc y, m.evalAt s .constraintVelocities (.tensor v.toTensor) = .ok vc ∧
        m.evalAt s .unprojectedImpulses (.tensor v.toTensor) = .ok y ∧ m.stack.unproject vc = .ok y
  /-- the matrix of each clique that takes part has a factor and a positive diagonal -/
  dynamics : ∀ c ∈ p.coupled, ∃ A L, p.dynamics[c]? = some A ∧
    CholeskyFactor.ofMat? A = some L ∧ (∀ a ∈ L.pivots, 0 < a) ∧ ∀ i < A.rows, 0 < A.get i i
  size_invSqrt : m.invSqrtDynamics.size = m.velocityCount
  /-- the power `-½` of the diagonals, against the entry of the same velocity -/
  invSqrt : ∀ n < m.velocityCount, 0 < m.invSqrtDynamics.get n ∧
    ∃ c ∈ p.coupled, ∃ A, p.dynamics[c]? = some A ∧ ∃ i < A.rows,
      m.velocities.number? (offset p.sizes c + i) = some n ∧
        m.invSqrtDynamics.get n ^ 2 * A.get i i = 1
  equations : ∀ c ∈ p.constraints, 0 < c.equations
  size_delassus : m.delassus.size = p.constraints.length
  /-- each estimate is a length by a number of equations -/
  estimates : ∀ k c, (pick p.constraints m.order)[k]? = some c →
    0 ≤ m.delassus.get k ∧ m.delassus.get k * c.equations = (p.delassus c).norm.value

namespace Steps

variable {p : ContactProblem K} {m : Model K} {Ls : List (CholeskyFactor K)}

/-! ## Regularization

Each entry has been checked to be positive when the law of its constraint answered. -/

/-- The regularization has an entry for each equation, -/
theorem size_R (hp : p.WellFormed) (h : Steps p m Ls) : m.stack.R.size = m.stack.equations := by
  obtain ⟨laws, hparts⟩ := h.exists_parts
  rw [hparts.R, Vec.size_concat, (hparts.fits_side hp (Or.inl rfl)).1, ← hparts.heights_eq]
  rfl

/-- so does the bias, -/
theorem size_vHat (hp : p.WellFormed) (h : Steps p m Ls) :
    m.stack.vHat.size = m.stack.equations := by
  obtain ⟨laws, hparts⟩ := h.exists_parts
  rw [hparts.vHat, Vec.size_concat, (hparts.fits_side hp (Or.inr rfl)).1, ← hparts.heights_eq]
  rfl

/-- and so does the inverse of the regularization. -/
theorem size_Rinv (hp : p.WellFormed) (h : Steps p m Ls) :
    m.stack.Rinv.size = m.stack.equations := by
  obtain ⟨laws, hparts⟩ := h.exists_parts
  rw [hparts.Rinv, ← h.size_R hp]
  exact List.length_map _

/-- Each entry of the regularization is positive and cancels against its reciprocal. -/
theorem get_R (hp : p.WellFormed) (h : Steps p m Ls) {i : Nat} (hi : i < m.stack.equations) :
    0 < m.stack.R.get i ∧ m.stack.R.get i * m.stack.Rinv.get i = 1 := by
  obtain ⟨laws, hparts⟩ := h.exists_parts
  rw [← h.size_R hp] at hi
  have hpos : 0 < m.stack.R.get i := by
    rw [Vec.get, List.getD_eq_getElem _ _ hi]
    exact h.R_pos_of_mem (List.getElem_mem hi)
  refine ⟨hpos, ?_⟩
  rw [hparts.Rinv, Vec.get_inverse hi]
  exact mul_inv_cancel₀ hpos.ne'

/-- Unprojected impulses solve `R·y + v_c = v̂`, row by row. -/
theorem solves_of_unproject (hp : p.WellFormed) (h : Steps p m Ls) {vc y : Vec K}
    (hy : m.stack.unproject vc = .ok y) : y.size = m.stack.equations ∧
      ∀ i < m.stack.equations, m.stack.R.get i * y.get i + vc.get i = m.stack.vHat.get i := by
  obtain ⟨hvc, rfl⟩ := Stack.unproject_eq_ok hy
  have hmatch : vc.size = m.stack.vHat.size := hvc.trans (h.size_vHat hp).symm
  have hsub : (vc.sub m.stack.vHat).size = m.stack.equations := by
    rw [Vec.size_sub, ← hmatch, Nat.min_self, hvc]
  have hfactors : m.stack.Rinv.neg.size = (vc.sub m.stack.vHat).size := by
    rw [Vec.size_neg, h.size_Rinv hp, hsub]
  refine ⟨by rw [Vec.size_mul, ← hfactors, Nat.min_self, hfactors, hsub], fun i hi => ?_⟩
  -- what is answered, row by row, before the cancellation
  have hentry : (m.stack.Rinv.neg.mul (vc.sub m.stack.vHat)).get i =
      -m.stack.Rinv.get i * (vc.get i - m.stack.vHat.get i) := by
    have hmul := Vec.map_get_mul Reading.exact hfactors i
    rwa [Vec.map_get_neg, Vec.map_get_sub Reading.exact hmatch] at hmul
  obtain ⟨-, hcancel⟩ := h.get_R hp hi
  calc m.stack.R.get i * (m.stack.Rinv.neg.mul (vc.sub m.stack.vHat)).get i + vc.get i
      = vc.get i - m.stack.R.get i * m.stack.Rinv.get i * (vc.get i - m.stack.vHat.get i) := by
        rw [hentry]
        ring
    _ = m.stack.vHat.get i := by rw [hcancel, one_mul, sub_sub_cancel]

/-- At velocities that fit the model there are unprojected impulses. -/
theorem exists_unproject (hp : p.WellFormed) (hf : p.format.isFloating = true) (h : Steps p m Ls)
    {v : Vec K} (hv : m.Fits v) {s : ModelState K (Quantity.Value K)}
    (hs : s.size = m.velocityCount) :
    ∃ vc y, m.evalAt s .constraintVelocities (.tensor v.toTensor) = .ok vc ∧
      m.evalAt s .unprojectedImpulses (.tensor v.toTensor) = .ok y ∧
      m.stack.unproject vc = .ok y := by
  obtain ⟨y, hy, -⟩ := (wellFormed hp hf h).exists_unprojectedImpulses Reading.exact hv
  have hvalue := hy
  rw [valueAt_unprojectedImpulses] at hvalue
  obtain ⟨vc, hvc, hunproject⟩ := Outcome.bind_eq_ok.mp hvalue
  exact ⟨vc, y, (evalAt_eq hs hv.size follows_constraintVelocities).trans hvc,
    (evalAt_eq hs hv.size follows_unprojectedImpulses).trans hy, hunproject⟩

/-! ## Dynamics -/

/-- The matrix of a clique that takes part has a factor with positive pivots, and so a positive
diagonal. -/
theorem exists_diagonal (hp : p.WellFormed) (h : Steps p m Ls) (hroots : m.RootsExact) {k c : Nat}
    (hk : m.cliques.inverse[k]? = some c) :
    ∃ A L, p.dynamics[c]? = some A ∧ m.dynamics[k]? = some A ∧ p.sizes.getD c 0 = A.rows ∧
      CholeskyFactor.ofMat? A = some L ∧ (∀ a ∈ L.pivots, 0 < a) ∧
      ∀ i < A.rows, 0 < A.get i i := by
  have hlt := h.lt_of_mem_cliques c (List.mem_of_getElem? hk)
  have hc : p.dynamics[c]? = some p.dynamics[c] := List.getElem?_eq_getElem hlt
  have hA := (h.getElem?_dynamics hk).trans hc
  obtain ⟨L, -, -, -, hL⟩ := h.exists_factor hA
  have hmem := List.mem_of_getElem? hA
  have hsquare := hp.square _ (h.mem_dynamics hmem)
  refine ⟨_, L, hc, hA, ?_, hL, fun a ha => ?_, fun i hi => ?_⟩
  · rw [ContactProblem.sizes, List.getD_eq_getElem?_getD, List.getElem?_map, hc]
    rfl
  · exact Arith.lt_eq_true_iff.mp (CholeskyFactor.pivots_pos hL a ha)
  · exact Mat.diagonal_pos hsquare hL (hroots _ hmem L hL) hi

/-- The power `-½` of the diagonal has an entry for each velocity. -/
theorem size_invSqrt (hp : p.WellFormed) (hm : build? p = .ok m) (h : Steps p m Ls) :
    m.invSqrtDynamics.size = m.velocityCount := by
  rw [(fields_of_build hm).2]
  exact size_invSqrtDiagonal fun A hA => hp.square A (h.mem_dynamics hA)

/-- Each entry belongs to a velocity of a clique that takes part, and its square cancels against the
entry of the diagonal at this velocity. -/
theorem get_invSqrt (hp : p.WellFormed) (hm : build? p = .ok m) (h : Steps p m Ls)
    (hroots : m.RootsExact) (hdiagonals : ∀ A ∈ m.dynamics, ∀ i < A.rows, 0 < A.get i i →
      Arith.RootExact (A.get i i)) {n : Nat} (hn : n < m.velocityCount) :
    0 < m.invSqrtDynamics.get n ∧ ∃ c ∈ p.coupled, ∃ A, p.dynamics[c]? = some A ∧ ∃ i < A.rows,
      m.velocities.number? (offset p.sizes c + i) = some n ∧
        m.invSqrtDynamics.get n ^ 2 * A.get i i = 1 := by
  obtain ⟨k, i, hi, rfl⟩ := exists_offset_add hn
  have hlt := lt_length_of_lt_size hi
  rw [h.sizes_eq, List.length_map] at hlt
  have hk : m.cliques.inverse[k]? = some m.cliques.inverse[k] := List.getElem?_eq_getElem hlt
  obtain ⟨A, L, hA, hA', hrows, -, -, hpos⟩ := h.exists_diagonal hp hroots hk
  rw [getD_sizes_of_dynamics hA'] at hi
  have hsquare : ∀ A ∈ m.dynamics, A.cols = A.rows := fun A hA => hp.square A (h.mem_dynamics hA)
  have hentry : m.invSqrtDynamics.get (offset m.sizes k + i) =
      (ExactField.root (A.get i i))⁻¹ := by
    rw [(fields_of_build hm).2, sizes, get_invSqrtDiagonal hsquare hA' hi]
  -- the number of the velocity belongs to one clique and one of its rows
  obtain ⟨hinv, hcancel⟩ :=
    (hdiagonals A (List.mem_of_getElem? hA') i hi (hpos i hi)).inv_root (hpos i hi)
  rw [hentry]
  exact ⟨hinv, _, ContactProblem.mem_coupled.mpr (h.mem_cliques.mp (List.getElem_mem hlt)), A, hA,
    i, hi, h.number?_velocity hk (by rw [hrows]; exact hi), hcancel⟩

/-! ## Estimates -/

/-- There is an estimate for each constraint. -/
theorem size_delassus (h : Steps p m Ls) : m.delassus.size = p.constraints.length := by
  obtain ⟨cs, hcs, hdelassus⟩ := Outcome.bind_eq_ok.mp h.delassus
  obtain ⟨ws, hws, hdelassus⟩ := Outcome.bind_eq_ok.mp hdelassus
  have hlength : m.delassus.size = ws.length := by
    rw [← Outcome.pure_eq_ok.mp hdelassus]
    exact List.length_map _
  rw [hlength, Outcome.length_of_mapM hws, Outcome.length_of_mapM hcs, h.graph_order,
    List.length_map, h.order_perm.length_eq, List.length_range]

/-- Each estimate is a length by a positive number of equations. -/
theorem get_delassus (hp : p.WellFormed) (h : Steps p m Ls) (hlengths : p.LengthsExact) {k : Nat}
    {c : Constraint K} (hk : (pick p.constraints m.order)[k]? = some c) :
    0 ≤ m.delassus.get k ∧ m.delassus.get k * c.equations = (p.delassus c).norm.value := by
  have hc : c ∈ p.constraints := h.mem_of_getElem?_pick hk
  have hequations : (0 : K) < c.equations := Nat.cast_pos.mpr (hp.constraint c hc).equations_pos
  obtain ⟨-, -, hestimate⟩ := h.delassus_spec hp hk
  have hvalue : m.delassus.get k = (p.delassus c).norm.value / c.equations :=
    List.head_eq_of_cons_eq (congrArg Tensor.data hestimate)
  rw [hvalue]
  exact ⟨div_nonneg (Mat.norm_exact (hlengths c hc)).1 hequations.le,
    div_mul_cancel₀ _ hequations.ne'⟩

end Steps

/-- **Divisions.** A real model that is built from a problem divides by positive numbers only, and
takes roots of positive numbers only. -/
theorem divides_safely {p : ContactProblem ℝ} {m : Model ℝ} (hp : p.Constructed)
    (hm : build? p = .ok m) : DividesSafely p m := by
  obtain ⟨Ls, h⟩ := exists_steps hm
  have hwf := hp.wellFormed
  have hroots := m.rootsExact_real
  exact {
    size_R := ⟨h.size_R hwf, h.size_Rinv hwf⟩
    regularization := fun i hi => h.get_R hwf hi
    unproject := fun vc y hy => h.solves_of_unproject hwf hy
    unprojected := fun hf v s hv hs => h.exists_unproject hwf (h.floating hwf hf) hv hs
    dynamics := fun c hc => by
      obtain ⟨k, hk⟩ := List.mem_iff_getElem?.mp
        (h.mem_cliques.mpr (ContactProblem.mem_coupled.mp hc))
      obtain ⟨A, L, hA, -, -, hL, hpivots, hpos⟩ := h.exists_diagonal hwf hroots hk
      exact ⟨A, L, hA, hL, hpivots, hpos⟩
    size_invSqrt := h.size_invSqrt hwf hm
    invSqrt := fun n hn => h.get_invSqrt hwf hm hroots
      (fun A _ i _ hpos => Arith.rootExact_real hpos.le) hn
    equations := fun c hc => (hwf.constraint c hc).equations_pos
    size_delassus := h.size_delassus
    estimates := fun k c hk => h.get_delassus hwf p.lengthsExact_real hk }

/-- Two particles, the first of which is tied to the origin. -/
noncomputable def sampleSystem : SpringMass ℝ where
  mass1 := ⟨.double, (4 : ℕ)⟩
  mass2 := ⟨.double, 1⟩
  stiffness := ⟨.double, (10 : ℕ)⟩
  relaxation := ⟨.double, 0⟩
  timeStep := ⟨.double, 1 / (10 : ℕ)⟩
  gravity := ⟨.double, (10 : ℕ)⟩
  axis := .along (Fin.last 2)
  mass1_pos := by norm_num
  stiffness_pos := by norm_num
  relaxation_nonneg := by norm_num
  timeStep_pos := by norm_num

/-- In the model of the two particles there are three velocities and one constraint. -/
theorem divides_safely_sample :
    ∃ (p : ContactProblem ℝ) (m : Model ℝ),
      sampleSystem.config.problem .double (some (.tensor (Vec.zeros .double 6).toTensor))
        (some (.tensor (Vec.zeros .double 6).toTensor)) = .ok p ∧ build? p = .ok m ∧
      p.constraints.length = 1 ∧ m.velocityCount = 3 ∧ DividesSafely p m := by
  have hread : SpringMassConfig.readPair .double
      (some (.tensor (Vec.zeros .double 6 : Vec ℝ).toTensor)) =
        .ok (Vec.zeros .double 6 : Vec ℝ).toTensor := rfl
  obtain ⟨p, hp, hposes⟩ := sampleSystem.exists_problem hread hread (Vec.size_zeros _ _)
    (Vec.size_zeros _ _) rfl rfl
  obtain ⟨m, hm⟩ := hposes.exists_model
  obtain ⟨c, hconstraints, -⟩ := hposes.constraint
  exact ⟨p, m, hp, hm, by rw [hconstraints]; rfl, (hposes.reduces hm).velocityCount,
    divides_safely hposes.constructed hm⟩

end Model

end ConvexContact
