import ConvexContact.Proofs.Model.Curvature

/-!
# Strong monotonicity of the gradient

From velocities `v` to velocities `w` the gradient `A·(v - v*) - Jᵀ·γ` changes, against `w - v`, by
the energy of `w - v` and by what the impulses give up against the motions `J·(w - v)` of the
constraints. Where each impulse rises with its unprojected one, it falls with the motion, since the
unprojected impulses move by `-R⁻¹·J·(w - v)`. So the change is at least the energy.

Neither symmetry of the dynamics nor a cost of which the gradient would be the derivative comes into
this: bounds and scaled impulses are covered, too (`Projection.MovesAlone.rises`).

Proof shape: a projection enters only through the functions it goes by (`Projection.GoesBy`), one
for each component. `row_falls` is the whole argument on one row, about plain numbers.
`WellFormed.exists_componentwise` is the only place where impulses of the model are computed, and
`WellFormed.energy_le_dot` adds the rows up.
-/

namespace ConvexContact

variable {K : Type} [ExactField K]

namespace Projection

/-! ## Projections that go component by component

A projection is reduced to one function for each component here, and only its monotonicity is used
later. So further projections are covered when they go by monotone functions. -/

/-- With regularization `R`, unprojected impulses are answered with the values of `φ`, component by
component. -/
def GoesBy (n : Nat) (R : Vec K) (φ : Nat → K → K) (P : Projection K) : Prop :=
  ∀ y : Vec K, y.size = n → y.format = R.format → y.format.isFloating = true →
    ∃ γ D, P.run y R false = .ok (γ, D) ∧ γ.size = n ∧ γ.format = y.format ∧
      ∀ l < n, γ.get l = φ l (y.get l)

/-- A projection of `n` impulses that goes component by component and does not fall in any: for each
regularization there is a function that never falls for each component, and unprojected impulses are
answered with its values. -/
def Rises (n : Nat) (P : Projection K) : Prop :=
  ∀ R : Vec K, R.size = n → (∀ l < n, 0 < R.get l) →
    ∃ φ : Nat → K → K, (∀ l < n, Monotone (φ l)) ∧
      ∀ y : Vec K, y.size = n → y.format = R.format → y.format.isFloating = true →
        ∃ γ D, P.run y R false = .ok (γ, D) ∧ γ.size = n ∧ γ.format = y.format ∧
          ∀ l < n, γ.get l = φ l (y.get l)

/-- The positive part is the larger of the number and zero. -/
theorem positivePart_eq_max (y : K) : positivePart y = max 0 y := by
  have hread := map_positivePart Reading.exact (Arith.isExact_of_field K) y
  simp only [Reading.exact_apply, Arith.le_eq_true_iff] at hread
  rw [hread]
  split_ifs with hy
  · exact (max_eq_right hy).symm
  · exact (max_eq_left (not_le.mp hy).le).symm

/-- Bringing a number between bounds puts it above the lower one first, so that the upper one wins
where they cross. -/
theorem clamp_eq_min (lo hi y : K) : clamp lo hi y = min (max lo y) hi := by
  have hnot : ∀ {a b : K}, a ≤ b → Arith.lt b a = false := fun hab =>
    decide_eq_false (not_lt.mpr hab)
  -- the tests of the program, in its order: inside, crossing bounds, below, beyond
  by_cases hinside : lo ≤ y ∧ y ≤ hi
  · obtain ⟨hlo, hhi⟩ := hinside
    rw [clamp_of_le (Arith.le_eq_true_iff.mpr hlo) (Arith.le_eq_true_iff.mpr hhi) (hnot hlo)
      (hnot hhi), max_eq_right hlo, min_eq_left hhi]
  · have hclamp : clamp lo hi y = nearestBound lo hi y := by
      rw [clamp, if_neg (by simpa using hinside), Arith.alongside_exact]
    rw [hclamp, nearestBound]
    -- outside, the program asks for crossing bounds before it looks at the number
    rcases lt_or_ge hi lo with hcross | hordered
    · rw [if_pos (Arith.lt_eq_true_iff.mpr hcross), if_pos (by simp [Arith.eq]),
        min_eq_right (hcross.le.trans (le_max_left lo y))]
    rw [hnot hordered, if_neg Bool.false_ne_true]
    rcases lt_or_ge y lo with hbelow | habove
    · rw [if_pos (Arith.lt_eq_true_iff.mpr hbelow), if_pos (Arith.le_eq_true_iff.mpr hordered),
        max_eq_left hbelow.le, min_eq_left hordered]
    · have hbeyond : hi < y := not_le.mp fun hy => hinside ⟨habove, hy⟩
      rw [hnot habove, if_neg Bool.false_ne_true, if_pos (Arith.lt_eq_true_iff.mpr hbeyond),
        if_pos (Arith.le_eq_true_iff.mpr habove), max_eq_right habove, min_eq_right hbeyond.le]

/-- A projection given by its components goes by them. -/
theorem GoesBy.of_componentwise {P : Projection K} {n : Nat} {R : Vec K} {φ : K → K}
    (hrun : ∀ y R : Vec K, P.run y R false = .ok (P.componentwise y, none))
    (hformat : ∀ f : Format, f.isFloating = true → P.formatOf f = f)
    (hcomponent : ∀ f y, P.component f y = φ y) : P.GoesBy n R fun _ => φ := by
  intro y hy _ hf
  refine ⟨P.componentwise y, none, hrun y R, (size_componentwise P y).trans hy, hformat _ hf,
    fun l hl => ?_⟩
  rw [get_componentwise P (by rw [hy]; exact hl), hcomponent]

/-- Positive parts go by the maximum with zero. -/
theorem goesBy_nonneg (n : Nat) (R : Vec K) :
    (nonneg : Projection K).GoesBy n R fun _ => max 0 :=
  .of_componentwise (fun _ _ => rfl) (fun _ hf => if_pos hf) fun _ y => positivePart_eq_max y

/-- **Mixtures.** Positive part, identity, zero, bounds, crossing ones included, and impulses scaled
by the regularization rise. -/
theorem MovesAlone.rises {P : Projection K} {n : Nat} (hP : P.MovesAlone n) : P.Rises n := by
  cases P with
  | nonneg =>
    exact fun R _ _ => ⟨fun _ => max 0, fun _ _ => monotone_const.max monotone_id,
      goesBy_nonneg n R⟩
  | box lo hi =>
    exact fun R _ _ => ⟨fun _ y => min (max lo y) hi,
      fun _ _ => (monotone_const.max monotone_id).min monotone_const,
      GoesBy.of_componentwise (P := box lo hi) (fun _ _ => rfl) (fun _ hf => if_pos hf)
        fun _ y => clamp_eq_min lo hi y⟩
  | zero =>
    exact fun R _ _ => ⟨fun _ _ => 0, fun _ _ => monotone_const,
      GoesBy.of_componentwise (P := zero) (fun _ _ => rfl) (fun _ hf => if_pos hf)
        fun _ y => mul_zero y⟩
  -- springs pass their impulses on, as the identity does
  | identity | identityOn _ =>
    exact fun R _ _ => ⟨fun _ => id, fun _ _ => monotone_id, fun y hy _ _ =>
      ⟨y, none, rfl, hy, rfl, fun _ _ => rfl⟩⟩
  -- the factors are the regularization, whose sign makes the impulses rise
  | timesR =>
    intro R hR hpos
    refine ⟨fun l y => y * R.get l, fun l hl => monotone_mul_right_of_nonneg (hpos l hl).le,
      fun y hy hyR _ => ?_⟩
    have hsizes : y.size = R.size := hy.trans hR.symm
    have hmul : y.mul? R = some (y.mul R) := if_pos hsizes
    refine ⟨y.mul R, none, ?_, ?_, ?_, fun l _ => ?_⟩
    · rw [run_of_named rfl, value, hmul]
      rfl
    · rw [Vec.size_mul, ← hsizes, Nat.min_self, hy]
    · rw [Vec.format_mul, ← hyR, Format.join_self]
    · have hread := Vec.map_get_mul Reading.exact hsizes l
      simpa only [Reading.exact_apply] using hread
  -- the others mix components, change their number or are not known
  | linear _ | dropLast | withoutJacobian | wideJacobian | unspecified | rule _ => exact hP.elim

end Projection

/-- **Row.** An impulse that rises with its unprojected one falls with the motion `μ`. -/
theorem row_falls {φ : K → K} (hφ : Monotone φ) {r σ μ y z : K} (hr : 0 < r) (hcancel : r * σ = 1)
    (hz : z = y - σ * μ) : 0 ≤ (φ y - φ z) * μ := by
  -- the motion has the sign of the fall of the unprojected impulse
  have hmotion : μ = r * (y - z) := by
    rw [hz]
    linear_combination (-μ) * hcancel
  have hrise : 0 ≤ (φ y - φ z) * (y - z) := by
    rcases le_total y z with hyz | hyz
    · exact mul_nonneg_of_nonpos_of_nonpos (sub_nonpos.mpr (hφ hyz)) (sub_nonpos.mpr hyz)
    · exact mul_nonneg (sub_nonneg.mpr (hφ hyz)) (sub_nonneg.mpr hyz)
  rw [hmotion, mul_left_comm]
  exact mul_nonneg hr.le hrise

namespace Model

variable {m : Model K} {ts : List (PlacedBlock K)} {v w : Vec K}

/-! ## Impulses

The functions depend on the regularization but not on the velocities, so they are the same at both
ends of the difference. -/

/-- The regularization of a member. -/
theorem WellFormed.R_block (h : m.WellFormed ts)
    (hR : ∀ k l, l < m.stack.J.heights.getD k 0 →
      0 < m.stack.R.coord Reading.exact m.stack.J.heights k l)
    {k : Nat} {c : StackedConstraint K} (hc : m.stack.members[k]? = some c) :
    (m.stack.R.block m.stack.J.heights k).size = c.equations ∧
      ∀ l < c.equations, 0 < (m.stack.R.block m.stack.J.heights k).get l := by
  rw [Vec.size_block h.R_size, h.getD_heights hc]
  refine ⟨rfl, fun l hl => ?_⟩
  rw [← h.getD_heights hc] at hl
  rw [Vec.get_block hl]
  exact hR k l hl

/-- **Impulses.** Where every projection goes component by component, so do the impulses, on the
unprojected ones of each row. -/
theorem WellFormed.exists_componentwise (h : m.WellFormed ts) {φ : Nat → Nat → K → K}
    (hφ : ∀ k (c : StackedConstraint K), m.stack.members[k]? = some c →
      c.projection.GoesBy c.equations (m.stack.R.block m.stack.J.heights k) (φ k))
    (hv : m.Fits v) :
    ∃ γ, m.valueAt v .impulses = .ok γ ∧ γ.format = m.format ∧
      ∀ k l, l < m.stack.J.heights.getD k 0 → γ.coord Reading.exact m.stack.J.heights k l =
        φ k l (-m.stack.Rinv.coord Reading.exact m.stack.J.heights k l *
          (m.motion ts v k l - m.stack.vHat.coord Reading.exact m.stack.J.heights k l)) := by
  obtain ⟨y, hy, hysize, hyformat, hycoord⟩ := h.exists_unprojectedImpulses Reading.exact hv
  have hanswers : ∀ k (c : StackedConstraint K), m.stack.members[k]? = some c →
      ∃ γi, m.stack.Answers y k c γi ∧ γi.format = y.format ∧ ∀ l < c.equations,
        Reading.exact (γi.get l) = φ k l (y.coord Reading.exact m.stack.J.heights k l) := by
    intro k c hc
    have hheight := h.getD_heights hc
    obtain ⟨γi, D, hrun, hsize, hformat, hget⟩ := hφ k c hc (y.block m.stack.J.heights k)
      (by rw [Vec.size_block hysize, hheight]) (hyformat.trans h.R_format.symm) (by
        rw [Vec.format_block, hyformat]
        exact h.floating)
    refine ⟨γi, ⟨hsize, D, hrun⟩, hformat, fun l hl => ?_⟩
    rw [Reading.exact_apply, hget l hl, Vec.get_block (by rw [hheight]; exact hl)]
    rfl
  obtain ⟨γ, hγ, hγformat, hget⟩ := h.exists_impulses Reading.exact hy hysize
    (Q := fun k _ l x => x = φ k l (y.coord Reading.exact m.stack.J.heights k l)) hanswers
  refine ⟨γ, hγ, hγformat.trans hyformat, fun k l hl => ?_⟩
  obtain ⟨c, hc⟩ := h.exists_member hl
  rw [hget k c hc l hl, hycoord k l hl]
  rfl

/-- **Impulses.** Where every projection rises, there are functions that never fall, one for each
row, of whose values at all velocities the impulses consist. -/
theorem WellFormed.exists_rising (h : m.WellFormed ts)
    (hrise : ∀ c ∈ m.stack.members, c.projection.Rises c.equations)
    (hR : ∀ k l, l < m.stack.J.heights.getD k 0 →
      0 < m.stack.R.coord Reading.exact m.stack.J.heights k l) :
    ∃ φ : Nat → Nat → K → K,
      (∀ k l, l < m.stack.J.heights.getD k 0 → Monotone (φ k l)) ∧
      ∀ v, m.Fits v → ∃ γ, m.valueAt v .impulses = .ok γ ∧ γ.format = m.format ∧
        ∀ k l, l < m.stack.J.heights.getD k 0 → γ.coord Reading.exact m.stack.J.heights k l =
          φ k l (-m.stack.Rinv.coord Reading.exact m.stack.J.heights k l *
            (m.motion ts v k l - m.stack.vHat.coord Reading.exact m.stack.J.heights k l)) := by
  -- chosen member by member, as each has a regularization of its own
  have hmember : ∀ k, ∃ φ : Nat → K → K, ∀ c : StackedConstraint K, m.stack.members[k]? = some c →
      (∀ l < c.equations, Monotone (φ l)) ∧
      c.projection.GoesBy c.equations (m.stack.R.block m.stack.J.heights k) φ := by
    intro k
    cases hk : m.stack.members[k]? with
    | none => exact ⟨fun _ => id, nofun⟩
    | some c =>
      obtain ⟨hsize, hpos⟩ := h.R_block hR hk
      obtain ⟨φ, hφ, hgoes⟩ := hrise c (List.mem_of_getElem? hk) _ hsize hpos
      refine ⟨φ, fun c' hc' => ?_⟩
      obtain rfl := Option.some.inj hc'
      exact ⟨hφ, hgoes⟩
  choose φ hφ using hmember
  refine ⟨φ, fun k l hl => ?_, fun v hv => ?_⟩
  · obtain ⟨c, hc⟩ := h.exists_member hl
    exact (hφ k c hc).1 l (by rw [← h.getD_heights hc]; exact hl)
  · exact h.exists_componentwise (fun k c hc => (hφ k c hc).2) hv

/-! ## Gradients -/

/-- Products of vectors are linear in the first factor. -/
theorem dot_sub_left {g g' t : Vec K} (h : g'.size = g.size) (ht : g.size = t.size) :
    ((g'.sub g).dot t).value = (g'.dot t).value - (g.dot t).value := by
  have hsize : (g'.sub g).size = g.size := by rw [Vec.size_sub, h, Nat.min_self]
  have hdifference := Vec.map_dot Reading.exact (hsize.trans ht)
  have hfirst := Vec.map_dot Reading.exact (h.trans ht)
  have hsecond := Vec.map_dot Reading.exact ht
  rw [hsize] at hdifference
  rw [h] at hfirst
  simp only [Reading.exact_apply] at hdifference hfirst hsecond
  rw [hdifference, hfirst, hsecond, ← Finset.sum_sub_distrib]
  refine Finset.sum_congr rfl fun i _ => ?_
  have hget := Vec.map_get_sub Reading.exact h i
  simp only [Reading.exact_apply] at hget
  rw [hget, sub_mul]

/-- **Monotonicity.** Where each impulse falls with the motion of its row, the gradient changes
against the difference of the velocities by at least the energy of the difference. -/
theorem WellFormed.energy_le_dot (h : m.WellFormed ts) (hv : m.Fits v) (hw : m.Fits w)
    {γ δ : Vec K} (hγ : m.valueAt v .impulses = .ok γ) (hδ : m.valueAt w .impulses = .ok δ)
    (hγformat : γ.format = m.format) (hδformat : δ.format = m.format)
    (hfall : ∀ k l, l < m.stack.J.heights.getD k 0 →
      0 ≤ (γ.coord Reading.exact m.stack.J.heights k l -
        δ.coord Reading.exact m.stack.J.heights k l) * m.motion ts (w.sub v) k l)
    {g g' : Vec K} (hg : m.valueAt v .costGradient = .ok g)
    (hg' : m.valueAt w .costGradient = .ok g') :
    m.energy ((w.sub v).coord Reading.exact m.sizes) ≤ ((g'.sub g).dot (w.sub v)).value := by
  obtain ⟨hgsize, -⟩ := h.coord_gradient Reading.exact hv hγ hg
  obtain ⟨hgsize', -⟩ := h.coord_gradient Reading.exact hw hδ hg'
  have hd := hw.sub hv
  -- the part of the dynamics is the energy, exactly
  have hmomentum : m.energy ((w.sub v).coord Reading.exact m.sizes) =
      (∑ k ∈ Finset.range m.sizes.length, ∑ i ∈ Finset.range (m.sizes.getD k 0),
        (w.sub v).coord Reading.exact m.sizes k i * ∑ j ∈ Finset.range (m.sizes.getD k 0),
          entryOf m.dynamics k i j *
            (w.coord Reading.exact m.sizes k j - m.vStar.coord Reading.exact m.sizes k j)) -
      ∑ k ∈ Finset.range m.sizes.length, ∑ i ∈ Finset.range (m.sizes.getD k 0),
        (w.sub v).coord Reading.exact m.sizes k i * ∑ j ∈ Finset.range (m.sizes.getD k 0),
          entryOf m.dynamics k i j *
            (v.coord Reading.exact m.sizes k j - m.vStar.coord Reading.exact m.sizes k j) := by
    simp only [energy, form, ← Finset.sum_sub_distrib, ← mul_sub, sub_sub_sub_cancel_right,
      ← coord_sub (hw.size.trans hv.size.symm)]
  -- the part of the constraints is never negative, row by row
  have hgiven : 0 ≤ ∑ k ∈ Finset.range m.stack.J.heights.length,
      ∑ l ∈ Finset.range (m.stack.J.heights.getD k 0),
        (γ.coord Reading.exact m.stack.J.heights k l -
          δ.coord Reading.exact m.stack.J.heights k l) * m.motion ts (w.sub v) k l :=
    Finset.sum_nonneg fun k _ => Finset.sum_nonneg fun l hl => hfall k l (Finset.mem_range.mp hl)
  simp only [sub_mul, Finset.sum_sub_distrib] at hgiven
  rw [dot_sub_left (hgsize'.trans hgsize.symm) (hgsize.trans hd.size.symm),
    h.dot_gradient hw hd.size hδ hδformat hg', h.dot_gradient hv hd.size hγ hγformat hg, hmomentum]
  linarith

/-! ## Models of problems -/

/-- **The gradient is strongly monotone.** Let a model be built from a problem all of whose
constraints project component by component without falling in any, as the positive part, the
identity, zero, bounds and scaling by the regularization do, springs included
(`Projection.MovesAlone.rises`). At all velocities `v` and `w`, from any states, the gradient has a
value, and against `w - v` its difference is at least the energy of `w - v`. -/
theorem gradient_strongly_monotone {p : ContactProblem K} (hp : p.Constructed)
    (hm : build? p = .ok m) (hf : p.constraints = [] → p.format.isFloating = true)
    (hrise : ∀ c ∈ p.constraints, c.projection.Rises c.equations) (hv : m.Fits v) (hw : m.Fits w)
    {s σ : ModelState K (Quantity.Value K)} (hs : s.size = m.velocityCount)
    (hσ : σ.size = m.velocityCount) :
    ∃ g g' : Vec K, m.evalAt s .costGradient (.tensor v.toTensor) = .ok g ∧
      m.evalAt σ .costGradient (.tensor w.toTensor) = .ok g' ∧
      m.energy ((w.sub v).coord Reading.exact m.sizes) ≤ ((g'.sub g).dot (w.sub v)).value := by
  obtain ⟨Ls, h⟩ := exists_steps hm
  have hwf := hp.wellFormed
  have hf := h.floating hwf hf
  have hmodel := Steps.wellFormed hwf hf h
  obtain ⟨φ, hφ, himpulses⟩ := hmodel.exists_rising
    (h.forall_members (P := fun P n => P.Rises n) hrise) fun k l hl => h.R_pos hwf hf hl
  obtain ⟨γ, hγ, hγformat, hγcoord⟩ := himpulses v hv
  obtain ⟨δ, hδ, hδformat, hδcoord⟩ := himpulses w hw
  obtain ⟨g, hg⟩ := hmodel.exists_gradient hv hγ hγformat
  obtain ⟨g', hg'⟩ := hmodel.exists_gradient hw hδ hδformat
  refine ⟨g, g', ?_, ?_, hmodel.energy_le_dot hv hw hγ hδ hγformat hδformat (fun k l hl => ?_)
    hg hg'⟩
  · rw [evalAt_eq hs hv.size follows_costGradient, hg]
  · rw [evalAt_eq hσ hw.size follows_costGradient, hg']
  · rw [hγcoord k l hl, hδcoord k l hl]
    refine row_falls (hφ k l hl) (h.R_pos hwf hf hl) (h.R_mul_Rinv hwf hf hl) ?_
    rw [motion_sub (hw.size.trans hv.size.symm)]
    ring

/-- Bounds, a scaled impulse and a spring, between two motions on which the impulses differ. -/
theorem gradient_strongly_monotone_sample :
    ∃ (p : ContactProblem ℚ) (m : Model ℚ) (g g' : Vec ℚ),
      ContactProblem.restrainedSample? = .ok p ∧ build? p = .ok m ∧
      m.evalAt m.makeState .costGradient (.tensor restrainedMotion.1.toTensor) = .ok g ∧
      m.evalAt m.makeState .costGradient (.tensor restrainedMotion.2.toTensor) = .ok g' ∧
      m.energy ((restrainedMotion.2.sub restrainedMotion.1).coord Reading.exact m.sizes) ≤
        ((g'.sub g).dot (restrainedMotion.2.sub restrainedMotion.1)).value := by
  obtain ⟨p, hp, h⟩ := Outcome.exists_of_check (x := ContactProblem.restrainedSample?)
    (P := fun p => p.format == .double &&
      p.constraints.all (fun c => c.projection.MovesAlone c.equations) &&
      (build? p).toOption.any fun m => m.velocityCount == 5 && m.format == .double)
    (by decide +kernel)
  simp only [Bool.and_eq_true, beq_iff_eq, List.all_eq_true, decide_eq_true_eq] at h
  obtain ⟨⟨hformat, halone⟩, h⟩ := h
  obtain ⟨m, hm, h⟩ := Outcome.exists_of_check h
  simp only [Bool.and_eq_true, beq_iff_eq] at h
  obtain ⟨hcount, hmformat⟩ := h
  obtain ⟨g, g', hg, hg', hle⟩ := gradient_strongly_monotone
    (ContactProblem.constructed_restrainedSample hp) hm (fun _ => by rw [hformat]; rfl)
    (fun c hc => (halone c hc).rises) (v := restrainedMotion.1) (w := restrainedMotion.2)
    ⟨hcount.symm, hmformat.symm⟩ ⟨hcount.symm, hmformat.symm⟩ (s := m.makeState)
    (σ := m.makeState) rfl rfl
  exact ⟨p, m, g, g', hp, hm, hg, hg', hle⟩

end Model

end ConvexContact
