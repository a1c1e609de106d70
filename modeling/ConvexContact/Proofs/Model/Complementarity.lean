import ConvexContact.Proofs.Linear.GridProducts
import ConvexContact.Proofs.Model.Monotonicity

/-!
# The complementarity problem of the impulses

Where every constraint projects by the positive part, the impulses `γ` at velocities `v` solve a
complementarity problem: with the velocities `vc` of the constraints, in each row neither `γ` nor
`R·γ + vc - v̂` is negative, and one of them is zero (`Stack.Complements`). No other vector does,
since row by row this says that `γ` is the positive part of `-R⁻¹·(vc - v̂)`
(`row_complements_iff`). So the gradient `A·(v - v*) - Jᵀ·γ` is zero just where some solution of the
problem balances the momentum (`Model.Balances`).

Proof shape: `row_complements_iff` is the whole argument, about four numbers. It is carried to the
rows of a stack by `Stack.complements_iff`, and to the impulses of a model by
`WellFormed.exists_complements`, which only has to say where a row has its numbers.

Main statement: `Model.impulses_complement`.
-/

namespace ConvexContact

variable {K : Type} [ExactField K]

/-- A projection of `n` impulses that answers with the positive part of each component, with any
regularization. -/
def Projection.TakesPositivePart (n : Nat) (P : Projection K) : Prop :=
  ∀ R : Vec K, R.size = n → (∀ l < n, 0 < R.get l) → P.GoesBy n R fun _ => max 0

/-- The named projection of this kind. -/
theorem Projection.takesPositivePart_nonneg (n : Nat) :
    (nonneg : Projection K).TakesPositivePart n :=
  fun R _ _ => goesBy_nonneg n R

/-- The format of a vector does not matter for its numbers. -/
theorem Vec.get_congr {v w : Vec K} (h : v.entries = w.entries) : v.get = w.get :=
  funext fun i => by rw [get, get, h]

/-! ## Rows

With `y` the unprojected impulse of a row, the slack of the row is `R·(γ - y)`. So complementarity
says that `γ` is the larger of `y` and zero. -/

/-- **Row.** An impulse and its slack `r·γ + μ` are not negative, and one of them is zero, just when
the impulse is the positive part of `-r⁻¹·μ`. -/
theorem row_complements_iff {r σ μ γ : K} (hr : 0 < r) (hcancel : r * σ = 1) :
    (0 ≤ γ ∧ 0 ≤ r * γ + μ ∧ γ * (r * γ + μ) = 0) ↔ γ = max 0 (-σ * μ) := by
  have hslack : r * γ + μ = r * (γ - -σ * μ) := by linear_combination (-μ) * hcancel
  rw [hslack]
  generalize -σ * μ = y
  constructor
  -- the slack bounds the impulse from below, and it is zero or the impulse is
  · rintro ⟨hγ, hnonneg, hzero⟩
    have hle : y ≤ γ := sub_nonneg.mp ((mul_nonneg_iff_of_pos_left hr).mp hnonneg)
    rcases mul_eq_zero.mp hzero with rfl | hzero
    · exact (max_eq_left hle).symm
    · obtain rfl : γ = y := sub_eq_zero.mp ((mul_eq_zero_iff_left hr.ne').mp hzero)
      exact (max_eq_right hγ).symm
  · rintro rfl
    refine ⟨le_max_left 0 y, mul_nonneg hr.le (sub_nonneg.mpr (le_max_right 0 y)), ?_⟩
    -- of the positive part one factor is always zero
    rcases le_total y 0 with hy | hy
    · rw [max_eq_left hy, zero_mul]
    · rw [max_eq_right hy, sub_self, mul_zero, mul_zero]

namespace Stack

variable {s : Stack K} {vc γ : Vec K}

/-- What the impulses `γ` leave of a row of constraint velocities `vc`: `R·γ + vc - v̂`. -/
def slack (s : Stack K) (vc γ : Vec K) (i : Nat) : K :=
  s.R.get i * γ.get i + vc.get i - s.vHat.get i

/-- The complementarity problem of a stack at constraint velocities `vc`. -/
structure Complements (s : Stack K) (vc γ : Vec K) : Prop where
  size : γ.size = s.equations
  nonneg : ∀ i < s.equations, 0 ≤ γ.get i
  slack_nonneg : ∀ i < s.equations, 0 ≤ s.slack vc γ i
  orthogonal : ∀ i < s.equations, γ.get i * s.slack vc γ i = 0

/-- The solution of the problem, row by row. -/
theorem complements_iff (hR : ∀ i < s.equations, 0 < s.R.get i ∧ s.R.get i * s.Rinv.get i = 1) :
    s.Complements vc γ ↔ γ.size = s.equations ∧ ∀ i < s.equations,
      γ.get i = max 0 (-s.Rinv.get i * (vc.get i - s.vHat.get i)) := by
  have hrow : ∀ i < s.equations,
      (0 ≤ γ.get i ∧ 0 ≤ s.slack vc γ i ∧ γ.get i * s.slack vc γ i = 0) ↔
        γ.get i = max 0 (-s.Rinv.get i * (vc.get i - s.vHat.get i)) := by
    intro i hi
    rw [slack, add_sub_assoc]
    exact row_complements_iff (hR i hi).1 (hR i hi).2
  constructor
  · exact fun h => ⟨h.size, fun i hi =>
      (hrow i hi).mp ⟨h.nonneg i hi, h.slack_nonneg i hi, h.orthogonal i hi⟩⟩
  · rintro ⟨hsize, hγ⟩
    exact ⟨hsize, fun i hi => ((hrow i hi).mpr (hγ i hi)).1,
      fun i hi => ((hrow i hi).mpr (hγ i hi)).2.1, fun i hi => ((hrow i hi).mpr (hγ i hi)).2.2⟩

end Stack

namespace Model

variable {m : Model K} {ts : List (PlacedBlock K)} {v γ : Vec K}

/-- The momentum that velocities `v` have over `v*` comes from the impulses `γ`:
`A·(v - v*) = Jᵀ·γ`, by the entries of the dynamics matrices and of the dense Jacobian. -/
def Balances (m : Model K) (v γ : Vec K) : Prop :=
  ∀ k i, i < m.sizes.getD k 0 →
    ∑ j ∈ Finset.range (m.sizes.getD k 0), entryOf m.dynamics k i j * m.departure v k j =
      ∑ r ∈ Finset.range m.stack.equations,
        m.stack.J.toDense.get r (offset m.sizes k + i) * γ.get r

/-! ## Impulses -/

/-- The impulses solve the complementarity problem, and nothing else does. -/
theorem WellFormed.exists_complements (h : m.WellFormed ts)
    (hpositive : ∀ c ∈ m.stack.members, c.projection.TakesPositivePart c.equations)
    (hR : ∀ k l, l < m.stack.J.heights.getD k 0 →
      0 < m.stack.R.coord Reading.exact m.stack.J.heights k l ∧
      m.stack.R.coord Reading.exact m.stack.J.heights k l *
        m.stack.Rinv.coord Reading.exact m.stack.J.heights k l = 1)
    (hv : m.Fits v) :
    ∃ γ vc, m.valueAt v .impulses = .ok γ ∧ γ.format = m.format ∧
      m.valueAt v .constraintVelocities = .ok vc ∧
      ∀ δ, m.stack.Complements vc δ ↔ δ.entries = γ.entries := by
  obtain ⟨γ, hγ, hformat, hcoord⟩ := h.exists_componentwise (φ := fun _ _ => max 0)
    (fun k c hc => by
      obtain ⟨hsize, hpos⟩ := h.R_block (fun k l hl => (hR k l hl).1) hc
      exact hpositive c (List.mem_of_getElem? hc) _ hsize hpos) hv
  obtain ⟨vc, hvc, -, -, hmotion⟩ := h.exists_motion hv
  have hγsize : γ.size = m.stack.equations := h.size_impulses hv hγ
  -- from coordinates by block and component to rows
  have hget : ∀ i < m.stack.equations,
      γ.get i = max 0 (-m.stack.Rinv.get i * (vc.get i - m.stack.vHat.get i)) := by
    intro i hi
    obtain ⟨k, l, hl, rfl⟩ := exists_offset_add hi
    refine (hcoord k l hl).trans ?_
    rw [← hmotion k l hl]
    rfl
  have hflat : ∀ i < m.stack.equations,
      0 < m.stack.R.get i ∧ m.stack.R.get i * m.stack.Rinv.get i = 1 := by
    intro i hi
    obtain ⟨k, l, hl, rfl⟩ := exists_offset_add hi
    exact hR k l hl
  refine ⟨γ, vc, hγ, hformat, by rw [valueAt_constraintVelocities, hvc], fun δ => ?_⟩
  rw [Stack.complements_iff hflat]
  constructor
  · rintro ⟨hsize, hδ⟩
    -- another solution has the same entries, though its format is not determined
    have hsame : (⟨γ.format, δ.entries⟩ : Vec K) = γ := by
      refine Vec.ext_get rfl (hsize.trans hγsize.symm) fun i hi => ?_
      have hi : i < m.stack.equations := hsize ▸ hi
      exact (hδ i hi).trans (hget i hi).symm
    rw [← hsame]
  · intro hentries
    rw [Vec.get_congr hentries]
    exact ⟨(congrArg List.length hentries).trans hγsize, hget⟩

/-! ## Gradients -/

/-- The gradient is zero just where the impulses balance the momentum. -/
theorem WellFormed.gradient_eq_zero_iff (h : m.WellFormed ts) (hts : BlockGrid.Scattered ts)
    (hv : m.Fits v) (hγ : m.valueAt v .impulses = .ok γ) {g : Vec K}
    (hg : m.valueAt v .costGradient = .ok g) :
    (∀ i < m.velocityCount, g.get i = 0) ↔ m.Balances v γ := by
  obtain ⟨-, hcoord⟩ := h.coord_gradient Reading.exact hv hγ hg
  have hrow : ∀ k i, i < m.sizes.getD k 0 → g.get (offset m.sizes k + i) =
      (∑ j ∈ Finset.range (m.sizes.getD k 0), entryOf m.dynamics k i j * m.departure v k j) -
        ∑ r ∈ Finset.range m.stack.equations,
          m.stack.J.toDense.get r (offset m.sizes k + i) * γ.get r := by
    intro k i hi
    have hback := h.lists.sum_backward_eq_col Reading.exact hts γ (j := k) (q := i)
      (by rw [h.widths]; exact hi)
    rw [h.widths] at hback
    refine (hcoord k i hi).trans ?_
    rw [hback]
    rfl
  constructor
  · intro hzero k i hi
    rw [← sub_eq_zero, ← hrow k i hi]
    exact hzero _ (offset_add_lt hi)
  · intro hbalances i hi
    obtain ⟨k, l, hl, rfl⟩ := exists_offset_add hi
    rw [hrow k l hl, hbalances k l hl, sub_self]

/-! ## Models of problems -/

/-- **The impulses solve the regularized complementarity problem.** Let a model be built from a
problem all of whose constraints project by the positive part. At all velocities `v`, from any
state, the impulses `γ` and the velocities `vc` of the constraints have values, in each row neither
`γ` nor `R·γ + vc - v̂` is negative and one of them is zero, and this is true of no other numbers.
The gradient has a value, too, and is zero just where some solution `δ` of this problem balances the
momentum, `A·(v - v*) = Jᵀ·δ`. -/
theorem impulses_complement {p : ContactProblem K} (hp : p.Constructed) (hm : build? p = .ok m)
    (hf : p.constraints = [] → p.format.isFloating = true)
    (hpositive : ∀ c ∈ p.constraints, c.projection.TakesPositivePart c.equations)
    (hv : m.Fits v) {s : ModelState K (Quantity.Value K)} (hs : s.size = m.velocityCount) :
    ∃ γ vc g : Vec K, m.evalAt s .impulses (.tensor v.toTensor) = .ok γ ∧
      m.evalAt s .constraintVelocities (.tensor v.toTensor) = .ok vc ∧
      m.evalAt s .costGradient (.tensor v.toTensor) = .ok g ∧ g.size = m.velocityCount ∧
      m.stack.Complements vc γ ∧
      (∀ δ, m.stack.Complements vc δ → δ.entries = γ.entries) ∧
      ((∀ i < m.velocityCount, g.get i = 0) ↔
        ∃ δ, m.stack.Complements vc δ ∧ m.Balances v δ) := by
  obtain ⟨Ls, h⟩ := exists_steps hm
  have hwf := hp.wellFormed
  have hf := h.floating hwf hf
  have hmodel := Steps.wellFormed hwf hf h
  obtain ⟨γ, vc, hγ, hγformat, hvc, hsolves⟩ := hmodel.exists_complements
    (h.forall_members (P := fun P n => P.TakesPositivePart n) hpositive)
    (fun k l hl => ⟨h.R_pos hwf hf hl, h.R_mul_Rinv hwf hf hl⟩) hv
  obtain ⟨g, hg⟩ := hmodel.exists_gradient hv hγ hγformat
  have hzero := hmodel.gradient_eq_zero_iff (h.scattered hwf) hv hγ hg
  refine ⟨γ, vc, g, ?_, ?_, ?_, (hmodel.coord_gradient Reading.exact hv hγ hg).1,
    (hsolves γ).mpr rfl, fun δ => (hsolves δ).mp, ?_⟩
  · rw [evalAt_eq hs hv.size follows_impulses, hγ]
  · rw [evalAt_eq hs hv.size follows_constraintVelocities, hvc]
  · rw [evalAt_eq hs hv.size follows_costGradient, hg]
  · rw [hzero]
    constructor
    -- the solution that balances the momentum can only be the impulses
    · exact fun hbalances => ⟨γ, (hsolves γ).mpr rfl, hbalances⟩
    · rintro ⟨δ, hδ, hbalances⟩ k i hi
      rw [← Vec.get_congr ((hsolves δ).mp hδ)]
      exact hbalances k i hi

end Model

/-- Two cliques of one velocity each, and a constraint of two equations, one for either clique. The
second clique is stopped by its equation, and the first one moves away from its own. -/
def ContactProblem.stoppedSample? : Except (Error ℚ) (ContactProblem ℚ) :=
  let law : Law ℚ :=
    { bias := (Term.fixed (.tensor (Vec.mk .double [0, 0]).toTensor)).side
      regularization := (Term.fixed (.tensor (Vec.mk .double [3, 5]).toTensor)).side }
  let stop := Constraint.build? law .nonneg (.tensor (Vec.mk .double [0, 0]).toTensor) 1
    (.tensor (.ofSlabs .double [1] [[1], [0]])) (some 0)
    (some (.tensor (.ofSlabs .double [1] [[0], [1]])))
  assemble? ⟨.double, 1 / 100⟩
    [.tensor (.ofSlabs .double [1] [[2]]), .tensor (.ofSlabs .double [1] [[1]])]
    (.tensor (Vec.mk .double [1, -4]).toTensor)
    [stop]

/-- This problem can be met. -/
theorem ContactProblem.constructed_stoppedSample {p : ContactProblem ℚ}
    (h : stoppedSample? = .ok p) : p.Constructed :=
  constructed_of_assemble (by simp) h

namespace Model

/-- The velocities at which the gradient of that model is zero. -/
def stoppedVelocities : Vec ℚ := ⟨.double, [1, -3]⟩

/-- At the velocities where its gradient is zero, the second clique is held by an impulse of `1` and
the first one by none. -/
theorem impulses_complement_sample :
    ∃ (p : ContactProblem ℚ) (m : Model ℚ) (γ vc : Vec ℚ),
      ContactProblem.stoppedSample? = .ok p ∧ build? p = .ok m ∧
      m.evalAt m.makeState .impulses (.tensor stoppedVelocities.toTensor) = .ok γ ∧
      m.evalAt m.makeState .constraintVelocities (.tensor stoppedVelocities.toTensor) = .ok vc ∧
      γ.entries = [1, 0] ∧ m.stack.Complements vc γ ∧
      (∀ δ, m.stack.Complements vc δ → δ.entries = γ.entries) ∧
      ∃ δ, m.stack.Complements vc δ ∧ m.Balances stoppedVelocities δ := by
  obtain ⟨p, hp, h⟩ := Outcome.exists_of_check (x := ContactProblem.stoppedSample?)
    (P := fun p => p.format == .double &&
      p.constraints.all (fun c => c.projection matches .nonneg) &&
      (build? p).toOption.any fun m => m.velocityCount == 2 && m.format == .double &&
        ((m.evalAt m.makeState .impulses (.tensor stoppedVelocities.toTensor)).toOption.any
          fun γ : Vec ℚ => γ.entries == [1, 0]) &&
        (m.evalAt m.makeState .costGradient (.tensor stoppedVelocities.toTensor)).toOption.any
          fun g : Vec ℚ => (List.range 2).all fun i => g.get i == 0)
    (by decide +kernel)
  simp only [Bool.and_eq_true, beq_iff_eq, List.all_eq_true] at h
  obtain ⟨⟨hformat, hnonneg⟩, h⟩ := h
  obtain ⟨m, hm, h⟩ := Outcome.exists_of_check h
  simp only [Bool.and_eq_true, beq_iff_eq] at h
  obtain ⟨⟨⟨hcount, hmformat⟩, hγ⟩, hg⟩ := h
  obtain ⟨γ', hγ', hentries⟩ := Outcome.exists_of_check hγ
  obtain ⟨g', hg', hzero⟩ := Outcome.exists_of_check hg
  simp only [List.all_eq_true, List.mem_range, beq_iff_eq] at hzero hentries
  have hpositive : ∀ c ∈ p.constraints, c.projection.TakesPositivePart c.equations := by
    intro c hc
    have hprojection := hnonneg c hc
    split at hprojection
    · rename_i heq
      rw [heq]
      exact Projection.takesPositivePart_nonneg _
    · cases hprojection
  obtain ⟨γ, vc, g, hγ, hvc, hg, -, hsolves, hunique, hiff⟩ := impulses_complement
    (ContactProblem.constructed_stoppedSample hp) hm (fun _ => by rw [hformat]; rfl) hpositive
    (v := stoppedVelocities) ⟨hcount.symm, hmformat.symm⟩ (s := m.makeState) rfl
  obtain rfl : γ' = γ := Except.ok.inj (hγ'.symm.trans hγ)
  obtain rfl : g' = g := Except.ok.inj (hg'.symm.trans hg)
  exact ⟨p, m, γ', vc, hp, hm, hγ, hvc, hentries, hsolves, hunique,
    hiff.mp (by rw [hcount]; exact hzero)⟩

end Model

end ConvexContact
