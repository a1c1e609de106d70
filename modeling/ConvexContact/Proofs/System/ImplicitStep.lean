import ConvexContact.Proofs.Model.Curvature
import ConvexContact.Proofs.Model.QuadraticPieces
import ConvexContact.Proofs.System.SpringMass

/-!
# The implicit step of a spring-mass system

The problem of a spring-mass system becomes a model of the first particle
(`SpringMass.Poses.exists_model`), which is known in every part (`SpringMass.Reduces`). Its impulses
are those of a spring with damping over the time step, at the positions and velocities at the end of
the step; bias and regularization amount to them. So the velocities at which the gradient vanishes
are those of the implicit step.

Proof shape: `Reduces` is a structure with a field for each datum of the model, proved once from the
construction (`Poses.reduces`). Every quantity is then a general theorem about models, read at a
model of one clique and one constraint, where the sums over rows and blocks have one summand
(`motion_eq`, `sum_dynamics_mul`, `sum_block_mul`).
-/

namespace ConvexContact

/-- The coordinates in the first block are the first entries. -/
theorem Vec.coord_zero {K : Type} [ExactField K] (sizes : List Nat) (x : Vec K) (l : Nat) :
    x.coord Reading.exact sizes 0 l = x.get l := by
  simp [coord]

/-- A problem with one constraint on one clique has one place in its order, and one clique that
takes part. -/
theorem ContactProblem.Arranged.eq_singleton {K : Type} {p : ContactProblem K} {g : ClusterGraph}
    {r : PartialPermutation} (h : p.Arranged g r) {c : Constraint K} (hc : p.constraints = [c])
    (hsecond : c.second = none) : g.places = [0] ∧ r.inverse = [c.first.clique] := by
  have hplaces := h.places_perm
  rw [hc] at hplaces
  have hcliques : r.inverse.Perm [c.first.clique] := by
    refine (List.perm_ext_iff_of_nodup h.cliques_valid.nodup (List.nodup_singleton _)).mpr
      fun k => ?_
    rw [h.mem_cliques, hc]
    simp [Constraint.cliques, Constraint.blocks, hsecond]
  exact ⟨List.perm_singleton.mp hplaces, List.perm_singleton.mp hcliques⟩

namespace SpringMass

variable {K : Type} [ExactField K] {s : SpringMass K} {q v : Vec K} {p : ContactProblem K}
  {m : Model K}

/-! ## The model

One constraint on one clique: the order of the constraints and the numbering of the cliques leave no
choice, so every part of the model can be written down. -/

/-- The one constraint comes first, and so does the clique it couples. -/
theorem Poses.arrangement (h : s.Poses q v p) {g : ClusterGraph} {r : PartialPermutation}
    (harranged : p.Arranged g r) : g.places = [0] ∧ r.inverse = [0] := by
  obtain ⟨c, hconstraints, hc⟩ := h.constraint
  have hsingle := harranged.eq_singleton hconstraints hc.second
  rwa [hc.clique] at hsingle

/-- Nothing of the problem is refused. -/
theorem Poses.exists_model (h : s.Poses q v p) : ∃ m, Model.build? p = .ok m := by
  have hwf := h.constructed.wellFormed
  obtain ⟨c, hconstraints, hc⟩ := h.constraint
  obtain ⟨A, hA, hmultiple⟩ := h.dynamics
  obtain ⟨L, hL⟩ := hmultiple.exists_factor s.mass1_pos
  obtain ⟨g, r, harranged⟩ := hwf.exists_arranged
  obtain ⟨hplaces, hcliques⟩ := h.arrangement harranged
  have hfloating : c.g.format.isFloating = true := by
    rw [hwf.constraint_format c (by simp [hconstraints])]
    exact h.floating
  have hfactor : p.factorAt 0 = .ok L := by
    have hA' : A.format.isFloating = true := by
      rw [hwf.dynamics_format A (List.mem_of_getElem? hA)]
      exact h.floating
    rw [ContactProblem.factorAt, hA]
    simp [Model.factor, hmultiple.nearlySymmetric, hA', hL]
  have hlaws : ∃ law, p.laws c = .ok law := by
    rw [ContactProblem.laws, h.timeStep, Outcome.bind_of_ok _ (hc.regularization_eq _),
      Outcome.bind_of_ok _ (hc.bias_eq hfloating _)]
    exact ⟨_, rfl⟩
  obtain ⟨law, hlaw⟩ := hlaws
  rw [Outcome.exists_ok_iff]
  intro e he
  -- a construction fails at a dynamics matrix or at a law, and neither can be here
  rcases (harranged.build_eq_error hwf h.floating).mp he with hrefused | ⟨-, hfailed⟩
  · rw [hcliques, Outcome.mapM_of_forall (g := fun _ => L)] at hrefused
    · cases hrefused
    · simpa using hfactor
  · rw [hplaces, hconstraints, Outcome.mapM_of_forall (g := fun _ => law)] at hfailed
    · cases hfailed
    · simpa [pick] using hlaw

/-- The model of a system at positions `q` and velocities `v`. -/
structure Reduces (s : SpringMass K) (q v : Vec K) (m : Model K) : Prop where
  wellFormed : ∃ J : Mat K, m.WellFormed [⟨0, 0, J⟩] ∧ J.IsMultiple 3 1
  sizes : m.sizes = [3]
  fullVelocityCount : m.fullVelocityCount = 6
  members : ∃ index cliques, m.stack.members = [⟨index, cliques, 3, .identityOn 3⟩]
  dynamics : ∃ A, m.dynamics = [A] ∧ A.IsMultiple 3 s.mass1.value
  freeVelocity : ∀ i < 3, m.vStar.get i = s.freeVelocity v i
  R : ∀ i < 3, m.stack.R.get i = s.regularization
  Rinv : ∀ i < 3, m.stack.Rinv.get i = 1 / s.regularization
  vHat : ∀ i < 3, m.stack.vHat.get i = -q.get i / (s.timeStep.value + s.relaxation.value)

section Steps

variable {Ls : List (CholeskyFactor K)}

/-- The stack of the model holds the one constraint. -/
theorem Poses.exists_stack (h : s.Poses q v p) (hsteps : Model.Steps p m Ls) :
    ∃ c, s.Ties q c ∧ pick p.constraints m.order = [c] ∧
      m.WellFormed [⟨0, 0, c.first.jacobian⟩] ∧ m.stack.J.heights = [3] ∧
      ∃ index cliques, m.stack.members = [⟨index, cliques, 3, .identityOn 3⟩] := by
  obtain ⟨c, hconstraints, hc⟩ := h.constraint
  obtain ⟨horder, hcliques⟩ := h.arrangement hsteps.toArranged
  have horder : m.order = [0] := horder
  have hpick : pick p.constraints m.order = [c] := by
    rw [horder, hconstraints]
    rfl
  have hplaced : placed m.cliques [c] = [⟨0, 0, c.first.jacobian⟩] := by
    -- the first clique is numbered first, as no other takes part
    have hnumber : m.cliques.number? c.first.clique = some 0 := by
      rw [hc.clique, hsteps.cliques_valid.number?_eq_some_iff, hcliques]
      rfl
    simp [placed, Constraint.blocks, hc.second, placeOf, hnumber]
  have hmodel := hsteps.wellFormed h.constructed.wellFormed h.floating
  rw [hpick, hplaced] at hmodel
  obtain ⟨laws, hparts⟩ := hsteps.exists_parts
  have hmembers : m.stack.members = [⟨0, c.cliques, 3, .identityOn 3⟩] := by
    rw [hparts.members, horder, hconstraints]
    simp [pick, Constraint.equations, hc.size, hc.projection]
  refine ⟨c, hc, hpick, hmodel, ?_, 0, c.cliques, hmembers⟩
  rw [hmodel.heights, hmembers]
  rfl

/-- The law of the stack is that of the spring, which does not look at the estimate. -/
theorem Poses.get_law (h : s.Poses q v p) (hsteps : Model.Steps p m Ls) {i : Nat} (hi : i < 3) :
    m.stack.R.get i = s.regularization ∧ m.stack.Rinv.get i = 1 / s.regularization ∧
      m.stack.vHat.get i = -q.get i / (s.timeStep.value + s.relaxation.value) := by
  have hwf := h.constructed.wellFormed
  obtain ⟨c, hc, hpick, -, hheights, -⟩ := h.exists_stack hsteps
  have hk : (pick p.constraints m.order)[0]? = some c := by rw [hpick]; rfl
  obtain ⟨laws, hparts⟩ := hsteps.exists_parts
  obtain ⟨⟨R, vHat⟩, hlaw, hlawOf⟩ := hparts.exists_law hk
  obtain ⟨hregularization, hbias⟩ := hsteps.law_eq hwf hk hlawOf
  obtain ⟨hRblock, hvblock⟩ := hparts.block_law hwf hlaw
  have hfloating : c.g.format.isFloating = true := by
    rw [hwf.constraint_format c (hsteps.mem_of_getElem?_pick hk)]
    exact h.floating
  rw [h.timeStep, hc.regularization_eq, Except.ok.injEq] at hregularization
  rw [h.timeStep, hc.bias_eq hfloating, Except.ok.injEq] at hbias
  -- there is one block, the whole vector
  have hblock : ∀ x : Vec K, x.get i = (x.block m.stack.J.heights 0).get i := by
    intro x
    rw [hheights, Vec.get_block (by simpa using hi)]
    exact congrArg x.get (Nat.zero_add i).symm
  have hR : m.stack.R.get i = s.regularization := by
    rw [hblock, hRblock, ← hregularization, Vec.get_cast_exact, Vec.get_replicate _ hi]
  refine ⟨hR, ?_, ?_⟩
  · have hinverse := hsteps.R_mul_Rinv hwf h.floating (k := 0) (l := i) (by rw [hheights]; exact hi)
    rw [Vec.coord_zero, Vec.coord_zero, hR] at hinverse
    exact eq_one_div_of_mul_eq_one_right hinverse
  · rw [hblock, hvblock, ← hbias, Vec.get_cast_exact, ← hc.position i hi,
      Vec.get_divideBy_neg (by rw [hc.size]; exact hi)]

end Steps

/-- The model that is built is the model of the system. -/
theorem Poses.reduces (h : s.Poses q v p) (hm : Model.build? p = .ok m) : s.Reduces q v m := by
  obtain ⟨Ls, hsteps⟩ := Model.exists_steps hm
  obtain ⟨c, hc, -, hmodel, -, hmembers⟩ := h.exists_stack hsteps
  obtain ⟨A, hA, hmultiple⟩ := h.dynamics
  obtain ⟨-, hcliques⟩ := h.arrangement hsteps.toArranged
  exact {
    wellFormed := ⟨c.first.jacobian, hmodel, hc.jacobian⟩
    sizes := by
      rw [hsteps.sizes_eq, hcliques, h.sizes]
      rfl
    fullVelocityCount := by
      rw [(Model.fields_of_build hm).1, ContactProblem.velocityCount, h.sizes]
      rfl
    members := hmembers
    dynamics := by
      refine ⟨A, ?_, hmultiple⟩
      rw [hsteps.dynamics_eq, hcliques]
      simp [pick, hA]
    freeVelocity := fun i hi => by
      have hreduced := hsteps.coord_reduced Reading.exact p.vStar (k := 0) (c := 0) (l := i)
        (by rw [hcliques]; rfl) (by rw [h.sizes]; exact hi)
      rw [← hsteps.vStar_eq, Vec.coord_zero, Vec.coord_zero] at hreduced
      exact hreduced.trans (h.freeVelocity i (by omega))
    R := fun i hi => (h.get_law hsteps hi).1
    Rinv := fun i hi => (h.get_law hsteps hi).2.1
    vHat := fun i hi => (h.get_law hsteps hi).2.2 }

/-! ## Evaluation -/

/-- The impulse on coordinate `i` of a spring with damping over the time step, at the position and
velocity at the end of the step. -/
def impulse (s : SpringMass K) (q u : Vec K) (i : Nat) : K :=
  -s.timeStep.value * (s.stiffness.value * (q.get i + s.timeStep.value * u.get i) +
    s.relaxation.value * s.stiffness.value * u.get i)

/-- Bias and regularization amount to the spring. -/
theorem impulse_eq (s : SpringMass K) (q u : Vec K) (i : Nat) :
    -(1 / s.regularization) * (u.get i - -q.get i / (s.timeStep.value + s.relaxation.value)) =
      s.impulse q u i := by
  -- the span of time cancels between bias and regularization
  have hspan := s.span_pos.ne'
  rw [regularization, one_div_one_div, impulse]
  field_simp
  ring

/-- The mass that the first particle shows to an impulse: its own, and what the spring adds over the
time step. -/
def effectiveMass (s : SpringMass K) : K :=
  s.mass1.value +
    s.timeStep.value * (s.timeStep.value + s.relaxation.value) * s.stiffness.value

/-- The spring adds the inverse of the regularization. -/
theorem effectiveMass_eq (s : SpringMass K) :
    s.mass1.value + 1 / s.regularization = s.effectiveMass := by
  rw [regularization, one_div_one_div, effectiveMass]

/-- It is positive, as both parts are. -/
theorem effectiveMass_pos (s : SpringMass K) : 0 < s.effectiveMass :=
  add_pos s.mass1_pos s.compliance_pos

namespace Reduces

variable {u : Vec K}

/-- The constraint has three equations. -/
theorem heights (h : s.Reduces q v m) : m.stack.J.heights = [3] := by
  obtain ⟨J, hmodel, -⟩ := h.wellFormed
  obtain ⟨index, cliques, hmembers⟩ := h.members
  rw [hmodel.heights, hmembers]
  rfl

/-- The velocity of the constraint is that of the particle. -/
theorem motion_eq (m : Model K) {J : Mat K} (hJ : J.IsMultiple 3 1) (w : Vec K) {l : Nat}
    (hl : l < 3) : m.motion [⟨0, 0, J⟩] w 0 l = w.get l := by
  have hsum := hJ.sum_mul (fun j => w.get j) hl
  rw [one_mul] at hsum
  simp only [Model.motion, PlacedBlock.forward, List.filter_cons, decide_true, if_true,
    List.filter_nil, List.map_cons, List.map_nil, List.sum_cons, List.sum_nil, add_zero, hJ.cols,
    Vec.coord_zero, Reading.exact_apply]
  exact hsum

/-- **Impulses.** They are those of the spring, and what the blocks of the Hessian put up against a
motion is the motion scaled. -/
theorem exists_impulses (h : s.Reduces q v m) {J : Mat K} (hmodel : m.WellFormed [⟨0, 0, J⟩])
    (hJ : J.IsMultiple 3 1) (hu : m.Fits u) :
    ∃ γ G, m.valueAt u .impulses = .ok γ ∧ γ.format = m.format ∧
      (∀ i < 3, γ.get i = s.impulse q u i) ∧
      m.valueAt u .constraintsHessian = .ok G ∧ m.FitsBlocks G ∧
      ∀ w, m.Fits w → ∀ l < 3,
        m.resistance [⟨0, 0, J⟩] G w 0 l = 1 / s.regularization * w.get l := by
  obtain ⟨index, cliques, hmembers⟩ := h.members
  have hmember : m.stack.members[0]? = some ⟨index, cliques, 3, .identityOn 3⟩ := by
    rw [hmembers]
    rfl
  have hrow : ∀ l < 3, l < m.stack.J.heights.getD 0 0 := by
    rw [h.heights]
    exact fun l hl => hl
  obtain ⟨y, γ, G, hy, hγ, hG, hfits, hresistance⟩ := hmodel.exists_resistance hu
    (by simp [hmembers, Projection.Selects]) (by simp [hmembers, Projection.HasDerivative])
  refine ⟨γ, G, hγ.impulses, hγ.format, fun i hi => ?_, hG, hfits, fun w hw l hl => ?_⟩
  · have hkept := hγ.selected 0 i _ hmember (hrow i hi)
    have hunprojected := hγ.unprojected 0 i (hrow i hi)
    simp only [Projection.keeps, if_true, Vec.coord_zero] at hkept hunprojected
    rw [hkept, hunprojected, h.Rinv i hi, h.vHat i hi, motion_eq m hJ u hi, impulse_eq]
  · have hscaled := hresistance w hw 0 l _ hmember (hrow l hl)
    simp only [Projection.keeps, if_true, Vec.coord_zero] at hscaled
    rw [hscaled, h.Rinv l hl, motion_eq m hJ w hl]

/-- The products of the dynamics matrix are those of the mass. -/
theorem sum_dynamics_mul (h : s.Reduces q v m) (y : Nat → K) {i : Nat} (hi : i < 3) :
    ∑ j ∈ Finset.range (m.sizes.getD 0 0), entryOf m.dynamics 0 i j * y j =
      s.mass1.value * y i := by
  obtain ⟨A, hA, hmultiple⟩ := h.dynamics
  rw [entryOf_of_getElem? (B := A) (by rw [hA]; rfl), h.sizes]
  exact hmultiple.sum_mul y hi

/-- What the one block of the Jacobian takes back is what it is given. -/
theorem sum_block_mul {J : Mat K} (hJ : J.IsMultiple 3 1) (y : Nat → K) {i : Nat} (hi : i < 3) :
    ∑ l ∈ Finset.range J.rows, J.get l i * y l = y i := by
  rw [hJ.rows, hJ.sum_mul_col y hi, one_mul]

/-- The clique has three velocities. -/
theorem lt_width (h : s.Reduces q v m) {i : Nat} (hi : i < 3) : i < m.sizes.getD 0 0 := by
  rw [h.sizes]
  exact hi

/-- The model moves three velocities. -/
theorem velocityCount (h : s.Reduces q v m) : m.velocityCount = 3 := by
  rw [Model.velocityCount, h.sizes]
  rfl

/-- **Gradient.** It is what the velocities gain over those of free motion, as a momentum, less the
impulses. -/
theorem exists_gradient (h : s.Reduces q v m) (hu : m.Fits u) :
    ∃ g, m.valueAt u .costGradient = .ok g ∧ g.size = 3 ∧ ∀ i < 3, g.get i =
      s.mass1.value * (u.get i - s.freeVelocity v i) - s.impulse q u i := by
  obtain ⟨J, hmodel, hJ⟩ := h.wellFormed
  obtain ⟨γ, -, hγ, hformat, himpulse, -⟩ := h.exists_impulses hmodel hJ hu
  obtain ⟨g, hg⟩ := hmodel.exists_gradient hu hγ hformat
  obtain ⟨hsize, hcoord⟩ := hmodel.coord_gradient Reading.exact hu hγ hg
  refine ⟨g, hg, hsize.trans h.velocityCount, fun i hi => ?_⟩
  have hgain := h.sum_dynamics_mul (fun j => u.get j - m.vStar.get j) hi
  have hback := sum_block_mul hJ (fun l => γ.get l) hi
  have hentry := hcoord 0 i (h.lt_width hi)
  simp only [Vec.coord_zero, Reading.exact_apply, PlacedBlock.backward, List.filter_cons,
    decide_true, if_true, List.filter_nil, List.map_cons, List.map_nil, List.sum_cons,
    List.sum_nil, add_zero] at hentry
  rw [hentry, hgain, hback, himpulse i hi, h.freeVelocity i hi]

/-- **Hessian.** It is the effective mass times the identity, and acts as this number. -/
theorem exists_hessian (h : s.Reduces q v m) (hu : m.Fits u) :
    ∃ G H, m.valueAt u .constraintsHessian = .ok G ∧ m.valueAt u .hessian = .ok H ∧
      H.IsMultiple 3 s.effectiveMass ∧
      ∀ w, m.Fits w → ∃ x, m.multiplyHessianOf G w = .ok x ∧ x.size = 3 ∧
        ∀ i < 3, x.get i = s.effectiveMass * w.get i := by
  obtain ⟨J, hmodel, hJ⟩ := h.wellFormed
  obtain ⟨γ, G, -, -, -, hG, hfits, hresistance⟩ := h.exists_impulses hmodel hJ hu
  have hproduct : ∀ w, m.Fits w → ∃ x, m.multiplyHessianOf G w = .ok x ∧ x.size = 3 ∧
      ∀ i < 3, x.get i = s.effectiveMass * w.get i := by
    intro w hw
    obtain ⟨x, hx, hsize, -, hcoord⟩ := hmodel.exists_product hfits hw
    refine ⟨x, hx, hsize.trans h.velocityCount, fun i hi => ?_⟩
    have hmass := h.sum_dynamics_mul (fun j => w.get j) hi
    have hback := sum_block_mul hJ (fun l => m.resistance [⟨0, 0, J⟩] G w 0 l) hi
    have hentry := hcoord 0 i (h.lt_width hi)
    simp only [Vec.coord_zero, List.filter_cons, decide_true, if_true, List.filter_nil,
      List.map_cons, List.map_nil, List.sum_cons, List.sum_nil, add_zero] at hentry
    rw [hentry, hmass, hback, hresistance w hw i hi, ← add_mul, effectiveMass_eq]
  obtain ⟨H, hH, hhessian, hformat⟩ := hmodel.exists_hessian hfits
  -- the matrix is known by its products, which those without the matrix agree with
  refine ⟨G, H, hG, ?_, ?_, hproduct⟩
  · rw [Model.valueAt_hessian, hG]
    exact hH
  · refine Mat.IsMultiple.of_mulVec (f := m.format) (hhessian.rows.trans h.velocityCount)
      (hhessian.cols.trans h.velocityCount) fun w hsize hwformat => ?_
    have hw : m.Fits w := ⟨hsize.trans h.velocityCount.symm, hwformat⟩
    obtain ⟨x, hx, -, hget⟩ := hproduct w hw
    have happly := hmodel.mulVec_hessian (fun i => ?_) hfits hhessian hformat hw
    · rw [hx] at happly
      rw [← Except.ok.inj happly]
      exact hget
    · by_cases hi : 0 = i <;> simp [hi]

/-- **Cost.** Half the mass against the squares of what the velocities gain over those of free
motion, and half the regularization against the squares of the impulses. -/
theorem exists_cost (h : s.Reduces q v m) (hu : m.Fits u) :
    ∃ x, m.valueAt u .cost = .ok x ∧ x.value =
      1 / 2 * ∑ i ∈ Finset.range 3, s.mass1.value * (u.get i - s.freeVelocity v i) ^ 2 +
      1 / 2 * ∑ i ∈ Finset.range 3, s.regularization * s.impulse q u i ^ 2 := by
  obtain ⟨J, hmodel, hJ⟩ := h.wellFormed
  obtain ⟨γ, -, hγ, -, himpulse, -⟩ := h.exists_impulses hmodel hJ hu
  obtain ⟨x, hx, hvalue⟩ := hmodel.exists_cost Reading.exact hu hγ
  refine ⟨x, hx, ?_⟩
  have hlength : m.sizes.length = 1 := by rw [h.sizes]; rfl
  have hmomentum : ∀ i ∈ Finset.range 3, (u.get i - m.vStar.get i) *
      ∑ j ∈ Finset.range (m.sizes.getD 0 0), entryOf m.dynamics 0 i j *
        (u.get j - m.vStar.get j) = s.mass1.value * (u.get i - s.freeVelocity v i) ^ 2 := by
    intro i hi
    have hi := Finset.mem_range.mp hi
    rw [h.sum_dynamics_mul (fun j => u.get j - m.vStar.get j) hi, h.freeVelocity i hi]
    ring
  have hregularizer : ∀ l ∈ Finset.range 3, γ.get l * m.stack.R.get l * γ.get l =
      s.regularization * s.impulse q u l ^ 2 := by
    intro l hl
    have hl := Finset.mem_range.mp hl
    rw [himpulse l hl, h.R l hl]
    ring
  rw [hlength, h.heights] at hvalue
  simp only [Finset.sum_range_one, Vec.coord_zero, Reading.exact_apply, Arith.half_exact,
    List.length_singleton, List.getD_cons_zero] at hvalue
  rw [hvalue, ← Finset.sum_congr rfl hmomentum, ← Finset.sum_congr rfl hregularizer, h.sizes]
  rfl

end Reduces

/-- **The implicit step.** Let positions and velocities of the two particles come as fractions, of
size six. The problem of the system is posed and a model of it is built, which moves three of the
six velocities. At all velocities `u`, from any state, the impulses are those of the spring and
damper at the end of the step, the gradient is what the particle gains over free motion less these
impulses, and the Hessian is the effective mass times the identity. So the velocities at which the
gradient vanishes are those at which the particle gains the impulses of the spring and damper. -/
theorem implicit_step (s : SpringMass K) {f : Format} {q' v' : Option (Given K)} {q v : Vec K}
    (hq' : SpringMassConfig.readPair f q' = .ok q.toTensor)
    (hv' : SpringMassConfig.readPair f v' = .ok v.toTensor) (hq : q.size = 6) (hv : v.size = 6)
    (hqf : q.format.isFloating = true) (hvf : v.format.isFloating = true) :
    ∃ p m, s.config.problem f q' v' = .ok p ∧ Model.build? p = .ok m ∧
      m.velocityCount = 3 ∧ m.fullVelocityCount = 6 ∧
      ∀ (t : ModelState K (Quantity.Value K)) (u : Vec K), t.size = m.velocityCount → m.Fits u →
        ∃ (γ g : Vec K) (H : Mat K), m.evalAt t .impulses (.tensor u.toTensor) = .ok γ ∧
          m.evalAt t .costGradient (.tensor u.toTensor) = .ok g ∧
          m.evalAt t .hessian (.tensor u.toTensor) = .ok H ∧ γ.size = 3 ∧ g.size = 3 ∧
          (∀ i < 3, γ.get i = s.impulse q u i ∧
            g.get i = s.mass1.value * (u.get i - s.freeVelocity v i) +
              s.timeStep.value * s.stiffness.value *
                (q.get i + (s.timeStep.value + s.relaxation.value) * u.get i)) ∧
          H.IsMultiple 3 s.effectiveMass ∧
          ((∀ i < 3, g.get i = 0) ↔
            ∀ i < 3, s.mass1.value * (u.get i - s.freeVelocity v i) = s.impulse q u i) := by
  obtain ⟨p, hp, hposes⟩ := s.exists_problem hq' hv' hq hv hqf hvf
  obtain ⟨m, hm⟩ := hposes.exists_model
  have hreduces := hposes.reduces hm
  refine ⟨p, m, hp, hm, hreduces.velocityCount, hreduces.fullVelocityCount, fun t u ht hu => ?_⟩
  obtain ⟨J, hmodel, hJ⟩ := hreduces.wellFormed
  obtain ⟨γ, -, hγ, -, himpulse, -⟩ := hreduces.exists_impulses hmodel hJ hu
  obtain ⟨g, hg, hgsize, hgradient⟩ := hreduces.exists_gradient hu
  obtain ⟨-, H, -, hH, hmultiple, -⟩ := hreduces.exists_hessian hu
  refine ⟨γ, g, H, ?_, ?_, ?_, ?_, hgsize, fun i hi => ⟨himpulse i hi, ?_⟩, hmultiple, ?_⟩
  · rw [Model.evalAt_eq ht hu.size Model.follows_impulses, hγ]
  · rw [Model.evalAt_eq ht hu.size Model.follows_costGradient, hg]
  · rw [Model.evalAt_hessian ht hu.size, hH]
  · rw [hmodel.size_impulses hu hγ, hreduces.heights]
    rfl
  · rw [hgradient i hi, impulse]
    ring
  · exact forall₂_congr fun i hi => by rw [hgradient i hi, sub_eq_zero]

/-- A light particle under gravity along the last axis. -/
def sample : SpringMass ℚ where
  mass1 := ⟨.double, 1⟩
  mass2 := ⟨.double, 3⟩
  stiffness := ⟨.double, 10⟩
  relaxation := ⟨.double, 1 / 10⟩
  timeStep := ⟨.double, 1 / 10⟩
  gravity := ⟨.integer, 10⟩
  axis := .along 2
  mass1_pos := by norm_num
  stiffness_pos := by norm_num
  relaxation_nonneg := by norm_num
  timeStep_pos := by norm_num

/-- Positions and velocities of both particles. -/
def sampleMotion : Vec ℚ × Vec ℚ :=
  (⟨.double, [6 / 5, 0, -1, 2, 0, 1]⟩, ⟨.double, [0, 12 / 5, 0, 1, 1, 0]⟩)

/-- At `(-1, 2, 0)` the step of the sample ends. -/
theorem implicit_step_sample :
    ∃ (p : ContactProblem ℚ) (m : Model ℚ) (γ g : Vec ℚ),
      sample.config.problem .double (some (.tensor sampleMotion.1.toTensor))
        (some (.tensor sampleMotion.2.toTensor)) = .ok p ∧ Model.build? p = .ok m ∧
      m.evalAt m.makeState .impulses (.tensor (Vec.mk m.format [-1, 2, 0]).toTensor) = .ok γ ∧
      m.evalAt m.makeState .costGradient (.tensor (Vec.mk m.format [-1, 2, 0]).toTensor) = .ok g ∧
      (γ.get 0 = -1 ∧ γ.get 1 = -2 / 5 ∧ γ.get 2 = 1) ∧ ∀ i < 3, g.get i = 0 := by
  have hq : SpringMassConfig.readPair .double (some (.tensor sampleMotion.1.toTensor)) =
      .ok sampleMotion.1.toTensor := rfl
  have hv : SpringMassConfig.readPair .double (some (.tensor sampleMotion.2.toTensor)) =
      .ok sampleMotion.2.toTensor := rfl
  obtain ⟨p, m, hp, hm, hcount, -, heval⟩ := implicit_step sample hq hv rfl rfl rfl rfl
  obtain ⟨γ, g, -, hγ, hg, -, -, -, hvalues, -, hstationary⟩ := heval m.makeState
    ⟨m.format, [-1, 2, 0]⟩ rfl ⟨hcount.symm, rfl⟩
  have himpulse : ∀ i < 3, γ.get i = sample.impulse sampleMotion.1 ⟨m.format, [-1, 2, 0]⟩ i :=
    fun i hi => (hvalues i hi).1
  refine ⟨p, m, γ, g, hp, hm, hγ, hg, ⟨?_, ?_, ?_⟩, hstationary.mpr fun i hi => ?_⟩
  · rw [himpulse 0 (by omega)]
    norm_num [impulse, sample, sampleMotion, Vec.get]
  · rw [himpulse 1 (by omega)]
    norm_num [impulse, sample, sampleMotion, Vec.get]
  · rw [himpulse 2 (by omega)]
    norm_num [impulse, sample, sampleMotion, Vec.get]
  · obtain rfl | rfl | rfl : i = 0 ∨ i = 1 ∨ i = 2 := by omega
    all_goals norm_num [impulse, freeVelocity, GravityAxis.acts, sample, sampleMotion, Vec.get]

end SpringMass

end ConvexContact
