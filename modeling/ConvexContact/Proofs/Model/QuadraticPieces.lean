import ConvexContact.Proofs.Model.Curvature

/-!
# Quadratic pieces of the cost

Where every constraint projects by the positive part, the identity or zero, nothing but the choice
of the components that are kept stops the impulses from being affine. Between velocities `v` and `w`
at which the same components are kept, a row that is kept moves by `-R⁻¹·J·(w - v)` and one that is
dropped stays at zero, and that is `-G·J·(w - v)` with the blocks `G` of the Hessian at `v`. So the
gradient moves by exactly the product of the Hessian with `w - v`, and the cost is the quadratic
polynomial that value, gradient and Hessian at `v` describe, however far `w` is from `v`.

The choice is the same where on each row of a positive part the unprojected impulses at `v` and `w`
lie on the same side of zero (`Model.SameSides`), zero itself on the side that is kept.

Proof shape: `row_step` is the identity of one row, about plain numbers, and `StepsBy` says it of
all rows of a model. Gradient and cost are derived from `StepsBy` separately, so that the gradient
needs no symmetry.
-/

namespace ConvexContact

variable {K : Type}

/-! ## Rows

The choice of the components is made by signs. Where two numbers lie on the same side of zero the
choice is the same, and between them a row is affine. -/

/-- The projection whose choice of components depends on the impulses. -/
def Projection.Pushes : Projection K → Prop
  | nonneg => True
  | _ => False

instance (P : Projection K) : Decidable P.Pushes :=
  match P with
  | .nonneg => isTrue trivial
  | .identity | .identityOn _ | .zero | .box _ _ | .linear _ | .timesR | .dropLast
  | .withoutJacobian | .wideJacobian | .unspecified | .rule _ => isFalse id

variable [ExactField K]

/-- Numbers on the same side of zero are kept or dropped together. -/
theorem Projection.Selects.keeps_eq {P : Projection K} (hP : P.Selects) {y z : K}
    (h : P.Pushes → (0 ≤ y ∧ 0 ≤ z) ∨ (y < 0 ∧ z < 0)) : P.keeps z = P.keeps y := by
  cases P with
  | nonneg =>
    obtain ⟨hy, hz⟩ | ⟨hy, hz⟩ := h trivial
    · exact (Arith.le_eq_true_iff.mpr hz).trans (Arith.le_eq_true_iff.mpr hy).symm
    · exact (decide_eq_false (not_le.mpr hz)).trans (decide_eq_false (not_le.mpr hy)).symm
  | identity | identityOn _ | zero => rfl
  | box _ _ | linear _ | timesR | dropLast | withoutJacobian | wideJacobian | unspecified
  | rule _ => exact hP.elim

/-- **Row.** On a row whose component is kept at both ends or dropped at both, the impulse moves by
the resistance `ρ` to the motion `μ`, and the regularizer term by the impulses at both ends against
the motion. -/
theorem row_step {kept : Bool} {r σ μ y z γ δ ρ : K} (hcancel : r * σ = 1) (hz : z = y - σ * μ)
    (hγ : γ = if kept then y else 0) (hδ : δ = if kept then z else 0)
    (hρ : ρ = if kept then σ * μ else 0) :
    δ = γ - ρ ∧ δ * r * δ = γ * r * γ - (γ + δ) * μ := by
  -- a row that is dropped stays at zero on both sides
  cases kept with
  | true =>
    rw [if_pos rfl] at hγ hδ hρ
    rw [hγ, hδ, hρ, hz]
    refine ⟨rfl, ?_⟩
    linear_combination (σ * μ - 2 * y) * μ * hcancel
  | false =>
    rw [if_neg Bool.false_ne_true] at hγ hδ hρ
    rw [hγ, hδ, hρ]
    constructor <;> ring

namespace Model

variable {m : Model K} {ts : List (PlacedBlock K)} {G : List (Mat K)} {v w y z γ δ : Vec K}

/-- On each row of a positive part, unprojected impulses `y` and `z` are both negative or both
not. -/
def SameSides (m : Model K) (y z : Vec K) : Prop :=
  ∀ ck ∈ m.stack.members.zipIdx, ck.1.projection.Pushes →
    ∀ l < m.stack.J.heights.getD ck.2 0,
      (0 ≤ y.coord Reading.exact m.stack.J.heights ck.2 l ∧
        0 ≤ z.coord Reading.exact m.stack.J.heights ck.2 l) ∨
      (y.coord Reading.exact m.stack.J.heights ck.2 l < 0 ∧
        z.coord Reading.exact m.stack.J.heights ck.2 l < 0)

instance (m : Model K) (y z : Vec K) : Decidable (m.SameSides y z) :=
  List.decidableBAll _ _

/-! ## Impulses

The blocks of the Hessian are those at `v`. As no row changes sides on the way to `w`, they tell
what every row does there as well. -/

/-- **Blocks.** Against a motion they put up the motion scaled by `R⁻¹` on the rows that are kept,
and nothing on the others. -/
theorem WellFormed.exists_resistance (h : m.WellFormed ts) (hv : m.Fits v)
    (hsel : ∀ c ∈ m.stack.members, c.projection.Selects)
    (hder : ∀ c ∈ m.stack.members, c.projection.HasDerivative c.equations) :
    ∃ y γ G, m.valueAt v .unprojectedImpulses = .ok y ∧ m.SelectedAt ts v y γ ∧
      m.valueAt v .constraintsHessian = .ok G ∧ m.FitsBlocks G ∧
      ∀ t, m.Fits t → ∀ k l c, m.stack.members[k]? = some c →
        l < m.stack.J.heights.getD k 0 → m.resistance ts G t k l =
          if c.projection.keeps (y.coord Reading.exact m.stack.J.heights k l) then
            m.stack.Rinv.coord Reading.exact m.stack.J.heights k l * m.motion ts t k l else 0 := by
  obtain ⟨y, γ, hy, hγ⟩ := h.exists_selectedAt hv hsel
  obtain ⟨G, -, hG, hfits, -⟩ := h.exists_tangent_impulses hv hv.size hder
  refine ⟨y, γ, G, hy, hγ, hG, hfits, fun t ht k l c hc hl => ?_⟩
  -- the derivative of the impulses, once by the blocks and once by the choice of components
  obtain ⟨G', δ, hG', -, hδ, -, hmoves⟩ := h.exists_tangent_impulses hv ht.size hder
  obtain ⟨y', _, z, δ', hy', -, -, hδ', hrows⟩ := h.exists_selected_dual hv ht.size hsel
  obtain rfl : G' = G := Except.ok.inj (hG'.symm.trans hG)
  obtain rfl : y' = y := Except.ok.inj (hy'.symm.trans hy)
  obtain rfl : δ' = δ := Except.ok.inj (hδ'.symm.trans hδ)
  obtain ⟨c', hc', -, hsnd, -, hδkl⟩ := hrows k l hl
  obtain rfl : c' = c := Option.some.inj (hc'.symm.trans hc)
  have hderivative := hmoves k l hl
  rw [hδkl] at hderivative
  split_ifs at hderivative ⊢
  · rw [← neg_inj, ← hderivative, hsnd, neg_mul]
  · rw [← neg_inj, ← hderivative, TrivSqZeroExt.snd_zero, neg_zero]

/-- What the rows do between velocities `v` and `w`: the impulses move by the resistance, and the
regularizer term by the impulses at both ends against the motions. -/
def StepsBy (m : Model K) (ts : List (PlacedBlock K)) (G : List (Mat K)) (v w γ δ : Vec K) :
    Prop :=
  ∀ k l, l < m.stack.J.heights.getD k 0 →
    δ.coord Reading.exact m.stack.J.heights k l =
      γ.coord Reading.exact m.stack.J.heights k l - m.resistance ts G (w.sub v) k l ∧
    δ.coord Reading.exact m.stack.J.heights k l *
        m.stack.R.coord Reading.exact m.stack.J.heights k l *
          δ.coord Reading.exact m.stack.J.heights k l =
      γ.coord Reading.exact m.stack.J.heights k l *
          m.stack.R.coord Reading.exact m.stack.J.heights k l *
            γ.coord Reading.exact m.stack.J.heights k l -
        (γ.coord Reading.exact m.stack.J.heights k l +
          δ.coord Reading.exact m.stack.J.heights k l) * m.motion ts (w.sub v) k l

/-- **Rows.** Between velocities with unprojected impulses on the same sides. -/
theorem WellFormed.stepsBy (h : m.WellFormed ts)
    (hsel : ∀ c ∈ m.stack.members, c.projection.Selects)
    (hR : ∀ k l, l < m.stack.J.heights.getD k 0 →
      m.stack.R.coord Reading.exact m.stack.J.heights k l *
        m.stack.Rinv.coord Reading.exact m.stack.J.heights k l = 1)
    (hsize : w.size = v.size) (hv : m.SelectedAt ts v y γ) (hw : m.SelectedAt ts w z δ)
    (hresistance : ∀ k l c, m.stack.members[k]? = some c → l < m.stack.J.heights.getD k 0 →
      m.resistance ts G (w.sub v) k l =
        if c.projection.keeps (y.coord Reading.exact m.stack.J.heights k l) then
          m.stack.Rinv.coord Reading.exact m.stack.J.heights k l * m.motion ts (w.sub v) k l
        else 0)
    (hsides : m.SameSides y z) : m.StepsBy ts G v w γ δ := by
  intro k l hl
  obtain ⟨c, hc⟩ := h.exists_member hl
  have hmoved : z.coord Reading.exact m.stack.J.heights k l =
      y.coord Reading.exact m.stack.J.heights k l -
        m.stack.Rinv.coord Reading.exact m.stack.J.heights k l * m.motion ts (w.sub v) k l := by
    rw [hv.unprojected k l hl, hw.unprojected k l hl, motion_sub hsize]
    ring
  have hkeeps := (hsel c (List.mem_of_getElem? hc)).keeps_eq fun hpushes =>
    hsides (c, k) (List.mem_zipIdx_iff_getElem?.mpr hc) hpushes l hl
  have hδ := hw.selected k l c hc hl
  rw [hkeeps] at hδ
  exact row_step (hR k l hl) hmoved (hv.selected k l c hc hl) hδ (hresistance k l c hc hl)

/-! ## Gradient and cost -/

/-- **The gradient is affine.** It moves by the product of the Hessian. -/
theorem StepsBy.gradient_eq (hstep : m.StepsBy ts G v w γ δ) (h : m.WellFormed ts) (hv : m.Fits v)
    (hw : m.Fits w) (hγ : m.valueAt v .impulses = .ok γ) (hδ : m.valueAt w .impulses = .ok δ)
    (hG : m.FitsBlocks G) {g g' q : Vec K} (hg : m.valueAt v .costGradient = .ok g)
    (hg' : m.valueAt w .costGradient = .ok g') (hformat : g.format = m.format)
    (hformat' : g'.format = m.format) (hq : m.multiplyHessianOf G (w.sub v) = .ok q) :
    g' = g.add q := by
  obtain ⟨hgsize, hgcoord⟩ := h.coord_gradient Reading.exact hv hγ hg
  obtain ⟨hgsize', hgcoord'⟩ := h.coord_gradient Reading.exact hw hδ hg'
  obtain ⟨q', hq', hqsize, hqformat, hqcoord⟩ := h.exists_product hG (hw.sub hv)
  obtain rfl : q' = q := Except.ok.inj (hq'.symm.trans hq)
  have hmatch : g.size = q'.size := hgsize.trans hqsize.symm
  refine Vec.ext_get ?_ ?_ fun n hn => ?_
  · rw [Vec.format_add, hformat, hformat', hqformat, Format.join_self]
  · rw [Vec.size_add, ← hmatch, Nat.min_self, hgsize, hgsize']
  · rw [hgsize'] at hn
    obtain ⟨k, i, hi, rfl⟩ := exists_offset_add hn
    -- what the constraints take back grows by what they put up against the difference
    have hback : ∀ t ∈ ts.filter fun t => t.col = k,
        t.backward Reading.exact m.stack.J.heights γ i =
          t.backward Reading.exact m.stack.J.heights δ i +
            ∑ l ∈ Finset.range t.block.rows,
              t.block.get l i * m.resistance ts G (w.sub v) t.row l := by
      intro t ht
      rw [PlacedBlock.backward, PlacedBlock.backward, ← Finset.sum_add_distrib]
      refine Finset.sum_congr rfl fun l hl => ?_
      have hl : l < m.stack.J.heights.getD t.row 0 := by
        rw [← h.lists.height t (List.mem_filter.mp ht).1]
        exact Finset.mem_range.mp hl
      rw [(hstep t.row l hl).1, Reading.exact_apply]
      ring
    -- the dynamics is linear in the velocities
    have hmomentum : ∑ j ∈ Finset.range (m.sizes.getD k 0), entryOf m.dynamics k i j *
        (w.coord Reading.exact m.sizes k j - m.vStar.coord Reading.exact m.sizes k j) =
        ∑ j ∈ Finset.range (m.sizes.getD k 0), entryOf m.dynamics k i j *
          (v.coord Reading.exact m.sizes k j - m.vStar.coord Reading.exact m.sizes k j) +
        ∑ j ∈ Finset.range (m.sizes.getD k 0), entryOf m.dynamics k i j *
          (w.sub v).coord Reading.exact m.sizes k j := by
      rw [← Finset.sum_add_distrib]
      refine Finset.sum_congr rfl fun j _ => ?_
      rw [coord_sub (hw.size.trans hv.size.symm)]
      ring
    have hadd := Vec.map_get_add Reading.exact hmatch (offset m.sizes k + i)
    simp only [Reading.exact_apply] at hadd hgcoord hgcoord'
    rw [hadd]
    refine (hgcoord' k i hi).trans (Eq.trans ?_ (congrArg₂ (· + ·) (hgcoord k i hi)
      (hqcoord k i hi)).symm)
    rw [hmomentum, List.map_congr_left hback, List.sum_map_add]
    ring

/-- **The cost is quadratic.** It moves by the gradient and half the product with the Hessian. -/
theorem StepsBy.cost_eq (hstep : m.StepsBy ts G v w γ δ) (h : m.WellFormed ts) (hm : m.Symmetric)
    (hv : m.Fits v) (hw : m.Fits w) (hγ : m.valueAt v .impulses = .ok γ)
    (hδ : m.valueAt w .impulses = .ok δ) (hformat : γ.format = m.format) (hG : m.FitsBlocks G)
    {g q : Vec K} (hg : m.valueAt v .costGradient = .ok g)
    (hq : m.multiplyHessianOf G (w.sub v) = .ok q) {x x' : Scalar K}
    (hx : m.valueAt v .cost = .ok x) (hx' : m.valueAt w .cost = .ok x') :
    x'.value = x.value + (g.dot (w.sub v)).value + 1 / 2 * ((w.sub v).dot q).value := by
  obtain ⟨u, hu, hvalue⟩ := h.exists_cost_eq hv hγ
  obtain ⟨u', hu', hvalue'⟩ := h.exists_cost_eq hw hδ
  obtain rfl : u = x := Except.ok.inj (hu.symm.trans hx)
  obtain rfl : u' = x' := Except.ok.inj (hu'.symm.trans hx')
  -- the regularizer gives up the impulses at `v` twice and the form of the Hessian once
  have hregularizer : m.regularizer δ = m.regularizer γ -
      2 * ∑ k ∈ Finset.range m.stack.J.heights.length,
        ∑ l ∈ Finset.range (m.stack.J.heights.getD k 0),
          γ.coord Reading.exact m.stack.J.heights k l * m.motion ts (w.sub v) k l +
      ∑ k ∈ Finset.range m.stack.J.heights.length,
        form (m.stack.J.heights.getD k 0) (entryOf G k) (m.motion ts (w.sub v) k) := by
    rw [regularizer, regularizer, Finset.mul_sum, ← Finset.sum_sub_distrib,
      ← Finset.sum_add_distrib]
    refine Finset.sum_congr rfl fun k _ => ?_
    rw [form, Finset.mul_sum, ← Finset.sum_sub_distrib, ← Finset.sum_add_distrib]
    refine Finset.sum_congr rfl fun l hl => ?_
    obtain ⟨himpulse, hterm⟩ := hstep k l (Finset.mem_range.mp hl)
    rw [hterm, himpulse, resistance]
    ring
  rw [hvalue, hvalue', departure_eq_add (hw.size.trans hv.size.symm), hm.energy_add, hregularizer,
    h.dot_gradient hv (hw.sub hv).size hγ hformat hg, h.dot_product_eq hG (hw.sub hv) hq]
  simp only [departure]
  ring

/-! ## Models of problems -/

/-- Velocities of the model add up to velocities of the model. -/
theorem Fits.add {t : Vec K} (hv : m.Fits v) (ht : m.Fits t) : m.Fits (v.add t) where
  size := by rw [Vec.size_add, hv.size, ht.size, Nat.min_self]
  format := by rw [Vec.format_add, hv.format, ht.format, Format.join_self]

/-- Nothing is rounded, so the difference is the direction. -/
theorem Fits.add_sub_cancel {t : Vec K} (hv : m.Fits v) (ht : m.Fits t) :
    (v.add t).sub v = t := by
  have hsize : v.size = t.size := hv.size.trans ht.size.symm
  refine Vec.ext_get ?_ ?_ fun i _ => ?_
  · rw [Vec.format_sub, (hv.add ht).format, hv.format, Format.join_self, ht.format]
  · rw [Vec.size_sub, (hv.add ht).size, hv.size, Nat.min_self, ht.size]
  · have hsub := Vec.map_get_sub Reading.exact ((hv.add ht).size.trans hv.size.symm) i
    have hadd := Vec.map_get_add Reading.exact hsize i
    simp only [Reading.exact_apply] at hsub hadd
    rw [hsub, hadd, add_sub_cancel_left]

/-- **Second order.** Let a model be built from a problem all of whose constraints project by the
positive part, the identity or zero, where springs project by the identity. At all velocities `v`,
and at `v + t` for all directions `t`, from any states, unprojected impulses, cost and gradient have
values, and so has the product `q` of the Hessian at `v` with `t`. If on each row of a positive part
the unprojected impulses at `v` and `v + t` are both negative or both not, the gradient at `v + t`
is the gradient at `v` plus `q`. If moreover the dynamics is symmetric, the cost at `v + t` is the
cost at `v`, plus the gradient at `v` in direction `t`, plus half of `q` in direction `t`. -/
theorem second_order_exact {p : ContactProblem K} (hp : p.Constructed) (hm : build? p = .ok m)
    (hf : p.constraints = [] → p.format.isFloating = true)
    (hprojections : ∀ c ∈ p.constraints,
      c.projection.Selects ∧ c.projection.HasDerivative c.equations)
    {t : Vec K} (hv : m.Fits v) (ht : m.Fits t) {s σ : ModelState K (Quantity.Value K)}
    (hs : s.size = m.velocityCount) (hσ : σ.size = m.velocityCount) :
    ∃ (y z : Vec K) (x x' : Scalar K) (g g' q : Vec K),
      m.evalAt s .unprojectedImpulses (.tensor v.toTensor) = .ok y ∧
      m.evalAt σ .unprojectedImpulses (.tensor (v.add t).toTensor) = .ok z ∧
      m.evalAt s .cost (.tensor v.toTensor) = .ok x ∧
      m.evalAt σ .cost (.tensor (v.add t).toTensor) = .ok x' ∧
      m.evalAt s .costGradient (.tensor v.toTensor) = .ok g ∧
      m.evalAt σ .costGradient (.tensor (v.add t).toTensor) = .ok g' ∧
      m.productAt s (.tensor v.toTensor) (.tensor t.toTensor) = .ok q ∧
      (m.SameSides y z → g' = g.add q ∧
        (m.Symmetric → x'.value = x.value + (g.dot t).value + 1 / 2 * (t.dot q).value)) := by
  obtain ⟨Ls, h⟩ := exists_steps hm
  have hwf := hp.wellFormed
  have hf := h.floating hwf hf
  have hmodel := Steps.wellFormed hwf hf h
  have hsel := h.forall_members (P := fun P _ => P.Selects) fun c hc => (hprojections c hc).1
  have hder := h.forall_members (P := fun P n => P.HasDerivative n) fun c hc =>
    (hprojections c hc).2
  have hw := hv.add ht
  have hcancel := hv.add_sub_cancel ht
  obtain ⟨y, γ, G, hy, hγ, hG, hfits, hresistance⟩ := hmodel.exists_resistance hv hsel hder
  obtain ⟨z, δ, hz, hδ⟩ := hmodel.exists_selectedAt hw hsel
  obtain ⟨x, hx, -⟩ := hmodel.exists_cost_eq hv hγ.impulses
  obtain ⟨x', hx', -⟩ := hmodel.exists_cost_eq hw hδ.impulses
  obtain ⟨g, hg, hgformat⟩ := hmodel.exists_gradient_format hv hγ.impulses hγ.format
  obtain ⟨g', hg', hgformat'⟩ := hmodel.exists_gradient_format hw hδ.impulses hδ.format
  obtain ⟨q, hq, -⟩ := hmodel.exists_product hfits ht
  refine ⟨y, z, x, x', g, g', q, ?_, ?_, ?_, ?_, ?_, ?_, ?_, fun hsides => ?_⟩
  · rw [evalAt_eq hs hv.size follows_unprojectedImpulses, hy]
  · rw [evalAt_eq hσ hw.size follows_unprojectedImpulses, hz]
  · rw [evalAt_eq hs hv.size follows_cost, hx]
  · rw [evalAt_eq hσ hw.size follows_cost, hx']
  · rw [evalAt_eq hs hv.size follows_costGradient, hg]
  · rw [evalAt_eq hσ hw.size follows_costGradient, hg']
  · rw [productAt_eq hs hv.size, hG]
    exact hq
  · have hstep := hmodel.stepsBy hsel (fun k l hl => h.R_mul_Rinv hwf hf hl)
      (hw.size.trans hv.size.symm) hγ hδ (hresistance _ (hw.sub hv)) hsides
    rw [← hcancel] at hq
    refine ⟨hstep.gradient_eq hmodel hv hw hγ.impulses hδ.impulses hfits hg hg' hgformat hgformat'
      hq, fun hsymmetric => ?_⟩
    have hcost := hstep.cost_eq hmodel hsymmetric hv hw hγ.impulses hδ.impulses hγ.format hfits hg
      hq hx hx'
    rwa [hcancel] at hcost

/-- Velocities of the interleaved model at which one constraint pushes while another one that could
is at rest, and a direction along which that stays so. -/
def pushingMotion : Vec ℚ × Vec ℚ := (⟨.double, [3, -2, 3]⟩, ⟨.double, [1, 1, 4]⟩)

/-- One constraint pushes at both ends and one at neither. -/
theorem second_order_exact_sample :
    ∃ (p : ContactProblem ℚ) (m : Model ℚ) (x x' : Scalar ℚ) (g g' q : Vec ℚ),
      ContactProblem.interleavedSample? = .ok p ∧ build? p = .ok m ∧
      m.evalAt m.makeState .cost (.tensor pushingMotion.1.toTensor) = .ok x ∧
      m.evalAt m.makeState .cost (.tensor (pushingMotion.1.add pushingMotion.2).toTensor) = .ok x' ∧
      m.evalAt m.makeState .costGradient (.tensor pushingMotion.1.toTensor) = .ok g ∧
      m.evalAt m.makeState .costGradient
        (.tensor (pushingMotion.1.add pushingMotion.2).toTensor) = .ok g' ∧
      m.productAt m.makeState (.tensor pushingMotion.1.toTensor)
        (.tensor pushingMotion.2.toTensor) = .ok q ∧
      g' = g.add q ∧
      x'.value = x.value + (g.dot pushingMotion.2).value +
        1 / 2 * (pushingMotion.2.dot q).value := by
  obtain ⟨p, hp, h⟩ := Outcome.exists_of_check (x := ContactProblem.interleavedSample?)
    (P := fun p => p.format == .double &&
      p.constraints.all (fun c =>
        c.projection.Selects ∧ c.projection.HasDerivative c.equations) &&
      (build? p).toOption.any fun m => m.velocityCount == 3 && m.format == .double && m.Symmetric &&
        (m.evalAt m.makeState .unprojectedImpulses
          (.tensor pushingMotion.1.toTensor)).toOption.any fun y =>
            (m.evalAt m.makeState .unprojectedImpulses
              (.tensor (pushingMotion.1.add pushingMotion.2).toTensor)).toOption.any fun z =>
                m.SameSides y z)
    (by decide +kernel)
  simp only [Bool.and_eq_true, beq_iff_eq, List.all_eq_true, decide_eq_true_eq] at h
  obtain ⟨⟨hformat, hprojections⟩, h⟩ := h
  obtain ⟨m, hm, h⟩ := Outcome.exists_of_check h
  simp only [Bool.and_eq_true, beq_iff_eq, decide_eq_true_eq] at h
  obtain ⟨⟨⟨hcount, hmformat⟩, hsymmetric⟩, h⟩ := h
  obtain ⟨y', hy', h⟩ := Outcome.exists_of_check h
  obtain ⟨z', hz', hsides⟩ := Outcome.exists_of_check h
  obtain ⟨y, z, x, x', g, g', q, hy, hz, hx, hx', hg, hg', hq, hexact⟩ := second_order_exact
    (ContactProblem.constructed_interleavedSample hp) hm (fun _ => by rw [hformat]; rfl)
    hprojections (v := pushingMotion.1) (t := pushingMotion.2) ⟨hcount.symm, hmformat.symm⟩
    ⟨hcount.symm, hmformat.symm⟩ (s := m.makeState) (σ := m.makeState) rfl rfl
  obtain rfl : y = y' := Except.ok.inj (hy.symm.trans hy')
  obtain rfl : z = z' := Except.ok.inj (hz.symm.trans hz')
  obtain ⟨hgradient, hcost⟩ := hexact (of_decide_eq_true hsides)
  exact ⟨p, m, x, x', g, g', q, hp, hm, hx, hx', hg, hg', hq, hgradient, hcost hsymmetric⟩

end Model

end ConvexContact
