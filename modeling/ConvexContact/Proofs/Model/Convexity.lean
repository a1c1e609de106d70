import Mathlib.Tactic.LinearCombination
import ConvexContact.Proofs.Model.Definiteness
import ConvexContact.Proofs.Model.Derivative

/-!
# Strong convexity of the cost

Where every constraint projects by the positive part, the identity or zero, and the dynamics is
symmetric, the cost grows at least as fast as its linearization plus half the energy of the motion.

The momentum term is quadratic, so its growth beyond the linearization is half the energy exactly.
The regularizer term grows row by row: with impulses `γ` before and `δ` after, and `y` and `z`
before their projection, the growth beyond the linearization is `r·(½δ² - ½γ² + γ·(y - z))`, which
is not negative for any combination of rows that are kept and rows that are dropped
(`Projection.growth_nonneg`).
-/

namespace ConvexContact

variable {K : Type} [ExactField K]

/-! ## Rows

A row may be kept or dropped at each end. The cases are told apart here, about plain numbers, and
nowhere else. -/

/-- What is kept of one number and dropped of another is not negative in the first and negative in
the second. -/
theorem Projection.sign_of_keeps {P : Projection K} {y z : K} (hy : P.keeps y = true)
    (hz : P.keeps z = false) : 0 ≤ y ∧ z < 0 := by
  cases P with
  | nonneg => exact ⟨Arith.le_eq_true_iff.mp hy, not_le.mp (of_decide_eq_false hz)⟩
  | zero => cases hy
  | identity | identityOn _ | box _ _ | linear _ | timesR | dropLast | withoutJacobian
  | wideJacobian | unspecified | rule _ => cases hz

/-- **Row.** The regularizer term of a row grows at least as fast as its linearization. -/
theorem Projection.growth_nonneg (P : Projection K) {y z γ δ : K}
    (hγ : γ = if P.keeps y then y else 0) (hδ : δ = if P.keeps z then z else 0) :
    0 ≤ 1 / 2 * δ ^ 2 - 1 / 2 * γ ^ 2 + γ * (y - z) := by
  -- a row that is dropped at the start has only its square to gain
  cases hy : P.keeps y with
  | false =>
    rw [hy, if_neg Bool.false_ne_true] at hγ
    subst hγ
    have hsquare := sq_nonneg δ
    linarith
  | true =>
    rw [hy, if_pos rfl] at hγ
    subst hγ
    -- kept at both ends: the difference is half the square of how far the row moves
    cases hz : P.keeps z with
    | true =>
      rw [hz, if_pos rfl] at hδ
      subst hδ
      have hsquare := sq_nonneg (γ - δ)
      linarith
    | false =>
      rw [hz, if_neg Bool.false_ne_true] at hδ
      subst hδ
      -- kept and then dropped: here the signs are needed
      obtain ⟨hpos, hneg⟩ := sign_of_keeps hy hz
      have hproduct := mul_nonneg hpos (neg_nonneg.mpr hneg.le)
      have hsquare := sq_nonneg γ
      linarith

/-! ## Quadratic forms -/

/-- A symmetric form of a sum. -/
theorem form_add {n : Nat} {E : Nat → Nat → K} (hE : ∀ i < n, ∀ j < n, E i j = E j i)
    (d t : Nat → K) :
    form n E (fun i => d i + t i) = form n E d + form n E t +
      2 * ∑ i ∈ Finset.range n, t i * ∑ j ∈ Finset.range n, E i j * d j := by
  have hswap : ∑ i ∈ Finset.range n, d i * ∑ j ∈ Finset.range n, E i j * t j =
      ∑ i ∈ Finset.range n, t i * ∑ j ∈ Finset.range n, E i j * d j := by
    simp only [Finset.mul_sum]
    rw [Finset.sum_comm]
    refine Finset.sum_congr rfl fun j hj => Finset.sum_congr rfl fun i hi => ?_
    rw [hE i (Finset.mem_range.mp hi) j (Finset.mem_range.mp hj)]
    ring
  have hexpand : form n E (fun i => d i + t i) =
      form n E d + ∑ i ∈ Finset.range n, d i * ∑ j ∈ Finset.range n, E i j * t j +
        (∑ i ∈ Finset.range n, t i * ∑ j ∈ Finset.range n, E i j * d j + form n E t) := by
    simp only [form, mul_add, add_mul, Finset.sum_add_distrib]
    ring
  rw [hexpand, hswap]
  ring

namespace Model

variable {m : Model K} {ts : List (PlacedBlock K)} {v w : Vec K}

/-- Entries of the dynamics may be read in either order. -/
theorem Symmetric.entryOf_comm (hm : m.Symmetric) {k i j : Nat} (hi : i < m.sizes.getD k 0)
    (hj : j < m.sizes.getD k 0) : entryOf m.dynamics k i j = entryOf m.dynamics k j i := by
  rw [entryOf, entryOf]
  cases hk : m.dynamics[k]? with
  | none => rfl
  | some A =>
    rw [getD_sizes_of_dynamics hk] at hi hj
    exact hm A (List.mem_of_getElem? hk) i hi j hj

/-- The energy of a sum. -/
theorem Symmetric.energy_add (hm : m.Symmetric) (d t : Nat → Nat → K) :
    m.energy (fun k i => d k i + t k i) = m.energy d + m.energy t +
      2 * ∑ k ∈ Finset.range m.sizes.length, ∑ i ∈ Finset.range (m.sizes.getD k 0),
        t k i * ∑ j ∈ Finset.range (m.sizes.getD k 0), entryOf m.dynamics k i j * d k j := by
  rw [energy, energy, energy, Finset.mul_sum, ← Finset.sum_add_distrib, ← Finset.sum_add_distrib]
  exact Finset.sum_congr rfl fun k _ =>
    form_add (fun i hi j hj => hm.entryOf_comm hi hj) (d k) (t k)

/-! ## Differences of velocities -/

/-- The difference of velocities of a model is one, -/
theorem Fits.sub (hw : m.Fits w) (hv : m.Fits v) : m.Fits (w.sub v) where
  size := by rw [Vec.size_sub, hw.size, hv.size, Nat.min_self]
  format := by rw [Vec.format_sub, hw.format, hv.format, Format.join_self]

/-- coordinate by coordinate. -/
theorem coord_sub (h : w.size = v.size) (sizes : List Nat) (k i : Nat) :
    (w.sub v).coord Reading.exact sizes k i =
      w.coord Reading.exact sizes k i - v.coord Reading.exact sizes k i :=
  Vec.map_get_sub Reading.exact h _

/-- Other velocities depart from `v*` by the difference more. -/
theorem departure_eq_add (h : w.size = v.size) : m.departure w = fun k i =>
    m.departure v k i + (w.sub v).coord Reading.exact m.sizes k i := by
  funext k i
  rw [coord_sub h, departure, departure]
  ring

/-- The motion of a difference. -/
theorem motion_sub (h : w.size = v.size) (k l : Nat) :
    m.motion ts (w.sub v) k l = m.motion ts w k l - m.motion ts v k l := by
  have hforward : ∀ b : PlacedBlock K, b.forward Reading.exact m.sizes (w.sub v) l +
      b.forward Reading.exact m.sizes v l = b.forward Reading.exact m.sizes w l := by
    intro b
    rw [PlacedBlock.forward, PlacedBlock.forward, PlacedBlock.forward, ← Finset.sum_add_distrib]
    refine Finset.sum_congr rfl fun a _ => ?_
    rw [coord_sub h, ← mul_add, sub_add_cancel]
  rw [eq_sub_iff_add_eq, motion, motion, motion, ← List.sum_map_add]
  exact congrArg List.sum (List.map_congr_left fun b _ => hforward b)

/-! ## Growth

The two terms of the cost are bounded from below apart. The momentum term grows by the energy
exactly, the regularizer term row by row. -/

/-- The impulses at velocities `v`, from what they are before their projection. -/
structure SelectedAt (m : Model K) (ts : List (PlacedBlock K)) (v y γ : Vec K) : Prop where
  impulses : m.valueAt v .impulses = .ok γ
  format : γ.format = m.format
  unprojected : ∀ k l, l < m.stack.J.heights.getD k 0 →
    y.coord Reading.exact m.stack.J.heights k l =
      -m.stack.Rinv.coord Reading.exact m.stack.J.heights k l *
        (m.motion ts v k l - m.stack.vHat.coord Reading.exact m.stack.J.heights k l)
  selected : ∀ k l c, m.stack.members[k]? = some c → l < m.stack.J.heights.getD k 0 →
    γ.coord Reading.exact m.stack.J.heights k l =
      if c.projection.keeps (y.coord Reading.exact m.stack.J.heights k l) then
        y.coord Reading.exact m.stack.J.heights k l else 0

/-- Where every projection keeps or drops, the impulses are selected from what they are before. -/
theorem WellFormed.exists_selectedAt (h : m.WellFormed ts) (hv : m.Fits v)
    (hsel : ∀ c ∈ m.stack.members, c.projection.Selects) :
    ∃ y γ, m.valueAt v .unprojectedImpulses = .ok y ∧ m.SelectedAt ts v y γ := by
  obtain ⟨y, hy, hysize, hyformat, hycoord⟩ := h.exists_unprojectedImpulses Reading.exact hv
  obtain ⟨γ, hγ, hγformat, hγcoord⟩ :=
    h.exists_selected Reading.exact (Arith.isExact_of_field K) hsel hy hysize hyformat
  exact ⟨y, γ, hy, hγ, hγformat, hycoord, hγcoord⟩

/-- Twice the regularizer term of the cost. -/
def regularizer (m : Model K) (γ : Vec K) : K :=
  ∑ k ∈ Finset.range m.stack.J.heights.length,
    ∑ l ∈ Finset.range (m.stack.J.heights.getD k 0),
      γ.coord Reading.exact m.stack.J.heights k l *
        m.stack.R.coord Reading.exact m.stack.J.heights k l *
          γ.coord Reading.exact m.stack.J.heights k l

/-- **Rows.** The regularizer term grows at least as fast as its linearization. -/
theorem WellFormed.regularizer_growth (h : m.WellFormed ts) {y z γ δ : Vec K}
    (hR : ∀ k l, l < m.stack.J.heights.getD k 0 →
      0 < m.stack.R.coord Reading.exact m.stack.J.heights k l ∧
      m.stack.R.coord Reading.exact m.stack.J.heights k l *
        m.stack.Rinv.coord Reading.exact m.stack.J.heights k l = 1)
    (hsize : w.size = v.size) (hv : m.SelectedAt ts v y γ) (hw : m.SelectedAt ts w z δ) :
    1 / 2 * m.regularizer γ ≤ 1 / 2 * m.regularizer δ +
      ∑ k ∈ Finset.range m.stack.J.heights.length,
        ∑ l ∈ Finset.range (m.stack.J.heights.getD k 0),
          γ.coord Reading.exact m.stack.J.heights k l * m.motion ts (w.sub v) k l := by
  simp only [regularizer, Finset.mul_sum, ← Finset.sum_add_distrib]
  refine Finset.sum_le_sum fun k _ => Finset.sum_le_sum fun l hl => ?_
  have hl := Finset.mem_range.mp hl
  obtain ⟨c, hc⟩ := h.exists_member hl
  obtain ⟨hpos, hcancel⟩ := hR k l hl
  have hgrowth := c.projection.growth_nonneg (hv.selected k l c hc hl) (hw.selected k l c hc hl)
  have hscaled := mul_nonneg hpos.le hgrowth
  -- before the projection the row moves against the motion, scaled by the inverse
  rw [hv.unprojected k l hl, hw.unprojected k l hl] at hscaled
  rw [motion_sub hsize]
  refine sub_nonneg.mp (hscaled.trans_eq ?_)
  linear_combination γ.coord Reading.exact m.stack.J.heights k l *
    (m.motion ts w k l - m.motion ts v k l) * hcancel

/-- The cost, from the impulses. -/
theorem WellFormed.exists_cost_eq (h : m.WellFormed ts) (hv : m.Fits v) {γ : Vec K}
    (hγ : m.valueAt v .impulses = .ok γ) :
    ∃ x, m.valueAt v .cost = .ok x ∧ x.value =
      1 / 2 * m.energy (m.departure v) + 1 / 2 * m.regularizer γ := by
  obtain ⟨x, hx, hvalue⟩ := h.exists_cost Reading.exact hv hγ
  refine ⟨x, hx, ?_⟩
  rw [← Arith.half_exact]
  exact hvalue

/-- **Growth.** The cost grows at least as fast as its linearization plus half the energy of the
motion. -/
theorem WellFormed.cost_growth (h : m.WellFormed ts) (hm : m.Symmetric)
    (hsel : ∀ c ∈ m.stack.members, c.projection.Selects)
    (hR : ∀ k l, l < m.stack.J.heights.getD k 0 →
      0 < m.stack.R.coord Reading.exact m.stack.J.heights k l ∧
      m.stack.R.coord Reading.exact m.stack.J.heights k l *
        m.stack.Rinv.coord Reading.exact m.stack.J.heights k l = 1)
    (hv : m.Fits v) :
    ∃ (x : Scalar K) (g : Vec K), m.valueAt v .cost = .ok x ∧
      m.valueAt v .costGradient = .ok g ∧ g.size = m.velocityCount ∧
      ∀ w, m.Fits w → ∃ z, m.valueAt w .cost = .ok z ∧
        x.value + (g.dot (w.sub v)).value +
          1 / 2 * m.energy ((w.sub v).coord Reading.exact m.sizes) ≤ z.value := by
  obtain ⟨y, γ, -, hγ⟩ := h.exists_selectedAt hv hsel
  obtain ⟨x, hx, hxvalue⟩ := h.exists_cost_eq hv hγ.impulses
  obtain ⟨g, hg⟩ := h.exists_gradient hv hγ.impulses hγ.format
  refine ⟨x, g, hx, hg, (h.coord_gradient Reading.exact hv hγ.impulses hg).1, fun w hw => ?_⟩
  obtain ⟨u, δ, -, hδ⟩ := h.exists_selectedAt hw hsel
  obtain ⟨z, hz, hzvalue⟩ := h.exists_cost_eq hw hδ.impulses
  have hsize : w.size = v.size := hw.size.trans hv.size.symm
  have hregularizer := h.regularizer_growth hR hsize hγ hδ
  refine ⟨z, hz, ?_⟩
  rw [hxvalue, hzvalue, departure_eq_add hsize, hm.energy_add,
    h.dot_gradient hv (hw.sub hv).size hγ.impulses hγ.format hg]
  simp only [departure]
  linarith

/-! ## Models of problems -/

/-- A gradient of zeros says nothing about any direction. -/
theorem dot_eq_zero {g t : Vec K} (hg : ∀ i < g.size, g.get i = 0) (hsize : g.size = t.size) :
    (g.dot t).value = 0 := by
  have hdot := Vec.map_dot Reading.exact hsize
  simp only [Reading.exact_apply] at hdot
  rw [hdot]
  exact Finset.sum_eq_zero fun i hi => by rw [hg i (Finset.mem_range.mp hi), zero_mul]

/-- **Strong convexity.** Let a model be built from a problem all of whose constraints keep each
component of their unprojected impulses or drop it, and let its dynamics matrices be symmetric. At
all velocities `v` and `w`, from any states, cost and gradient have values, and the cost at `w` is
at least the linearization at `v` plus half the energy of `w - v`.

So if the gradient at `v` is zero, the cost is less there than at all other velocities. This needs
roots of the pivots that are square roots, as real ones are. -/
theorem cost_strongly_convex {p : ContactProblem K} (hp : p.Constructed) (hm : build? p = .ok m)
    (hf : p.constraints = [] → p.format.isFloating = true)
    (hsel : ∀ c ∈ p.constraints, c.projection.Selects) (hsymmetric : m.Symmetric)
    (hv : m.Fits v) {s : ModelState K (Quantity.Value K)} (hs : s.size = m.velocityCount) :
    ∃ (x : Scalar K) (g : Vec K), m.evalAt s .cost (.tensor v.toTensor) = .ok x ∧
      m.evalAt s .costGradient (.tensor v.toTensor) = .ok g ∧
      (∀ (w : Vec K) (σ : ModelState K (Quantity.Value K)), m.Fits w → σ.size = m.velocityCount →
        ∃ z, m.evalAt σ .cost (.tensor w.toTensor) = .ok z ∧
          x.value + (g.dot (w.sub v)).value +
            1 / 2 * m.energy ((w.sub v).coord Reading.exact m.sizes) ≤ z.value) ∧
      (m.RootsExact → (∀ i < m.velocityCount, g.get i = 0) →
        ∀ (w : Vec K) (σ : ModelState K (Quantity.Value K)), m.Fits w →
          σ.size = m.velocityCount → w ≠ v →
            ∃ z, m.evalAt σ .cost (.tensor w.toTensor) = .ok z ∧ x.value < z.value) := by
  obtain ⟨Ls, h⟩ := exists_steps hm
  have hwf := hp.wellFormed
  have hf := h.floating hwf hf
  have hmodel := Steps.wellFormed hwf hf h
  obtain ⟨x, g, hx, hg, hgsize, hgrowth⟩ := hmodel.cost_growth hsymmetric
    (h.forall_members (P := fun P _ => P.Selects) hsel)
    (fun k l hl => ⟨h.R_pos hwf hf hl, h.R_mul_Rinv hwf hf hl⟩) hv
  refine ⟨x, g, ?_, ?_, fun w σ hw hσ => ?_, fun hroots hzero w σ hw hσ hne => ?_⟩
  · rw [evalAt_eq hs hv.size follows_cost, hx]
  · rw [evalAt_eq hs hv.size follows_costGradient, hg]
  · obtain ⟨z, hz, hle⟩ := hgrowth w hw
    exact ⟨z, by rw [evalAt_eq hσ hw.size follows_cost, hz], hle⟩
  · obtain ⟨z, hz, hle⟩ := hgrowth w hw
    refine ⟨z, by rw [evalAt_eq hσ hw.size follows_cost, hz], ?_⟩
    -- other velocities differ somewhere, and the motion there has energy
    obtain ⟨k, i, hi, hki⟩ := hw.exists_ne hv hne
    rw [← coord_sub (hw.size.trans hv.size.symm)] at hki
    have hpos := (h.definiteUpToAsymmetry hwf hroots).energy_pos
      (d := (w.sub v).coord Reading.exact m.sizes) hi hki
    rw [hsymmetric.asymmetry_eq_zero, add_zero] at hpos
    rw [dot_eq_zero (by rw [hgsize]; exact hzero) (hgsize.trans (hw.sub hv).size.symm)] at hle
    linarith

/-- The velocities of the small model at which its gradient is zero. -/
def sampleOptimum : Vec ℚ := ⟨.double, [98 / 89, 182 / 89, 263 / 89]⟩

/-- The gradient of the small model is zero at its optimum, so its cost is least there. -/
theorem cost_strongly_convex_sample :
    ∃ (p : ContactProblem ℚ) (m : Model ℚ) (x : Scalar ℚ), ContactProblem.sample? = .ok p ∧
      build? p = .ok m ∧
      m.evalAt m.makeState .cost (.tensor sampleOptimum.toTensor) = .ok x ∧
      ∀ w, m.Fits w → w ≠ sampleOptimum → ∃ z,
        m.evalAt m.makeState .cost (.tensor w.toTensor) = .ok z ∧ x.value < z.value := by
  obtain ⟨p, hp, h⟩ := Outcome.exists_of_check (x := ContactProblem.sample?)
    (P := fun p => p.format == .double && p.constraints.all (fun c => c.projection.Selects) &&
      (build? p).toOption.any fun m => m.velocityCount == 3 && m.format == .double &&
        m.Symmetric && m.RootsExact &&
        (m.evalAt m.makeState .costGradient (.tensor sampleOptimum.toTensor)).toOption.any
          fun g : Vec ℚ => (List.range 3).all fun i => g.get i == 0)
    (by decide +kernel)
  simp only [Bool.and_eq_true, beq_iff_eq, List.all_eq_true, decide_eq_true_eq] at h
  obtain ⟨⟨hformat, hsel⟩, h⟩ := h
  obtain ⟨m, hm, h⟩ := Outcome.exists_of_check h
  simp only [Bool.and_eq_true, beq_iff_eq, decide_eq_true_eq] at h
  obtain ⟨⟨⟨⟨hcount, hmformat⟩, hsymmetric⟩, hroots⟩, h⟩ := h
  obtain ⟨g', hg', hzero⟩ := Outcome.exists_of_check h
  obtain ⟨x, g, hx, hg, -, hleast⟩ := cost_strongly_convex (ContactProblem.constructed_sample hp) hm
    (fun _ => by rw [hformat]; rfl) hsel hsymmetric (v := sampleOptimum)
    ⟨hcount.symm, hmformat.symm⟩ (s := m.makeState) rfl
  obtain rfl : g' = g := Except.ok.inj (hg'.symm.trans hg)
  simp only [List.all_eq_true, List.mem_range, beq_iff_eq] at hzero
  exact ⟨p, m, x, hp, hm, hx, fun w hw hne =>
    hleast hroots (by rw [hcount]; exact hzero) w m.makeState hw rfl hne⟩

end Model

end ConvexContact
