import Mathlib.Tactic.LinearCombination
import ConvexContact.Proofs.Constraint.Selection
import ConvexContact.Proofs.Evaluation.Session
import ConvexContact.Proofs.Model.Motion
import ConvexContact.Proofs.Model.Responses

/-!
# The gradient as derivative of the cost

Where every constraint projects by the positive part, the identity or zero, the derivative of the
cost in direction `t` is `∇ℓ·t`, up to a term `½ tᵀ·(A - Aᵀ)·(v - v*)` for dynamics matrices that
are not symmetric. The derivative is the tangent of the cost on dual numbers.

Cost and gradient are computed by unrelated formulas. They agree since each impulse is kept or
dropped as a whole: `γ = D·y` with ones and zeros on the diagonal of `D`, so the regularizer term
`½γᵀRγ` moves by `γᵀR·D·ẏ = -γᵀR·R⁻¹·J·t = -γᵀ·J·t`.

Proof shape: `Model.kept_moves` is this computation for one row, and `Model.Moves` what it says of
all rows. The cost has two terms, and their tangents are `Model.tangent_momentum` and
`Model.tangent_regularizer`. The gradient in direction `t` is `Model.WellFormed.dot_gradient`, by
the adjoint law of the Jacobian.
-/

namespace ConvexContact

/-! ## Selected impulses

Stated for any numbers that can be read in a ring, since it is needed for the model and for the
model on dual numbers. -/

namespace Model

section Selected

variable {K R : Type} [Arith K] [CommRing R] (φ : Reading K R) {m : Model K}
  {ts : List (PlacedBlock K)} {v y : Vec K}

/-- The impulses of projections that select components: each is the unprojected one or zero. -/
theorem WellFormed.exists_selected (h : m.WellFormed ts) (hK : Arith.IsExact K)
    (hsel : ∀ c ∈ m.stack.members, c.projection.Selects)
    (hy : m.valueAt v .unprojectedImpulses = .ok y) (hsize : y.size = total m.stack.J.heights)
    (hformat : y.format = m.format) :
    ∃ γ, m.valueAt v .impulses = .ok γ ∧ γ.format = m.format ∧
      ∀ k l c, m.stack.members[k]? = some c → l < m.stack.J.heights.getD k 0 →
        γ.coord φ m.stack.J.heights k l =
          if c.projection.keeps (y.get (offset m.stack.J.heights k + l)) then
            y.coord φ m.stack.J.heights k l else 0 := by
  have hanswers : ∀ k c, m.stack.members[k]? = some c → ∃ γi, m.stack.Answers y k c γi ∧
      γi.format = y.format ∧ ∀ l < c.equations, φ (γi.get l) =
        if c.projection.keeps (y.get (offset m.stack.J.heights k + l)) then
          y.coord φ m.stack.J.heights k l else 0 := by
    intro k c hc
    have hblock : (y.block m.stack.J.heights k).size = c.equations := by
      rw [Vec.size_block hsize, h.getD_heights hc]
    obtain ⟨γi, hrun, hγsize, hγformat, hget⟩ :=
      (hsel c (List.mem_of_getElem? hc)).exists_run φ hK (y.block m.stack.J.heights k)
        (m.stack.R.block m.stack.J.heights k)
    refine ⟨γi, ⟨hγsize.trans hblock, none, hrun⟩, ?_, fun l hl => ?_⟩
    · exact hγformat (by rw [Vec.format_block, hformat]; exact h.floating)
    · rw [hget l (by rw [hblock]; exact hl), Vec.get_block (by rw [h.getD_heights hc]; exact hl)]
      rfl
  obtain ⟨γ, hγ, hγformat, hget⟩ := h.exists_impulses φ hy hsize
    (Q := fun k c l x => x = if c.projection.keeps (y.get (offset m.stack.J.heights k + l)) then
      y.coord φ m.stack.J.heights k l else 0) hanswers
  exact ⟨γ, hγ, hγformat.trans hformat, fun k l c hc hl => hget k c hc l hl⟩

end Selected

end Model

/-! ## Impulses along a direction

Which impulses are kept does not vary along the direction: comparisons look at values only, so an
impulse on dual numbers is kept just when its value is. -/

variable {K : Type} [ExactField K]

namespace Projection

/-- On dual numbers a projection selects, too, -/
theorem Selects.toDual {P : Projection K} (h : P.Selects) : P.toDual.Selects := by
  cases P <;> first | exact h.elim | trivial

/-- and it keeps what it keeps of the values. -/
theorem keeps_toDual (P : Projection K) (y : Dual K) : P.toDual.keeps y = P.keeps y.primal := by
  cases P <;> rfl

end Projection

namespace Model

variable {m : Model K} {ts : List (PlacedBlock K)} {v t γ : Vec K}

/-- An impulse that is kept moves against the motion `μ`, and one that is dropped does not count. -/
theorem kept_moves {kept : Bool} {ρ σ μ y γ : K} {z δ : DualNumber K} (hcancel : ρ * σ = 1)
    (hfst : z.fst = y) (hsnd : z.snd = -σ * μ) (hγ : γ = if kept then y else 0)
    (hδ : δ = if kept then z else 0) : δ.fst = γ ∧ γ * ρ * δ.snd = -(γ * μ) := by
  cases kept with
  | true =>
    rw [if_pos rfl] at hγ hδ
    rw [hδ, hγ, hfst, hsnd]
    -- the regularization cancels against its inverse, so the motion is left
    refine ⟨rfl, ?_⟩
    linear_combination (-(y * μ)) * hcancel
  -- both sides vanish with the impulse
  | false =>
    rw [if_neg Bool.false_ne_true] at hγ hδ
    rw [hδ, hγ]
    simp

/-- Impulses `γ` move as `δ` says: weighted by the impulses and the regularization, against the
motions of the constraints. -/
structure Moves (m : Model K) (ts : List (PlacedBlock K)) (t γ : Vec K) (δ : Vec (Dual K)) :
    Prop where
  value : ∀ k l, l < m.stack.J.heights.getD k 0 →
    (δ.coord Reading.dual m.stack.J.heights k l).fst = γ.coord Reading.exact m.stack.J.heights k l
  tangent : ∀ k l, l < m.stack.J.heights.getD k 0 →
    γ.coord Reading.exact m.stack.J.heights k l *
        m.stack.R.coord Reading.exact m.stack.J.heights k l *
          (δ.coord Reading.dual m.stack.J.heights k l).snd =
      -(γ.coord Reading.exact m.stack.J.heights k l * m.motion ts t k l)

/-- **Selected impulses along a direction.** They vary with the unprojected impulses `y + ε·ẏ` where
these are kept, since comparisons look at the values. -/
theorem WellFormed.exists_selected_dual (h : m.WellFormed ts) (hv : m.Fits v)
    (ht : t.size = m.velocityCount) (hsel : ∀ c ∈ m.stack.members, c.projection.Selects) :
    ∃ (y γ : Vec K) (z δ : Vec (Dual K)), m.valueAt v .unprojectedImpulses = .ok y ∧
      m.valueAt v .impulses = .ok γ ∧ γ.format = m.format ∧
      m.toDual.valueAt (Vec.dual v t) .impulses = .ok δ ∧
      ∀ k l, l < m.stack.J.heights.getD k 0 → ∃ c, m.stack.members[k]? = some c ∧
        (z.coord Reading.dual m.stack.J.heights k l).fst =
          y.coord Reading.exact m.stack.J.heights k l ∧
        (z.coord Reading.dual m.stack.J.heights k l).snd =
          -m.stack.Rinv.coord Reading.exact m.stack.J.heights k l * m.motion ts t k l ∧
        (γ.coord Reading.exact m.stack.J.heights k l =
          if c.projection.keeps (y.coord Reading.exact m.stack.J.heights k l) then
            y.coord Reading.exact m.stack.J.heights k l else 0) ∧
        δ.coord Reading.dual m.stack.J.heights k l =
          if c.projection.keeps (y.coord Reading.exact m.stack.J.heights k l) then
            z.coord Reading.dual m.stack.J.heights k l else 0 := by
  obtain ⟨y, z, hy, hz, ⟨hysize, hyformat⟩, ⟨hzsize, hzformat⟩, hyz⟩ :=
    h.exists_unprojected_dual hv ht
  have hmembers : m.toDual.stack.members = m.stack.members.map StackedConstraint.toDual := rfl
  have hsel' : ∀ c ∈ m.toDual.stack.members, c.projection.Selects := by
    rw [hmembers, List.forall_mem_map]
    intro c hc
    exact (hsel c hc).toDual
  obtain ⟨γ, hγ, hγformat, hγcoord⟩ := h.exists_selected Reading.exact (Arith.isExact_of_field K)
    hsel hy hysize hyformat
  obtain ⟨δ, hδ, -, hδcoord⟩ := h.toDual.exists_selected Reading.dual (Dual.isExact K) hsel' hz
    hzsize hzformat
  refine ⟨y, γ, z, δ, hy, hγ, hγformat, hδ, fun k l hl => ?_⟩
  obtain ⟨c, hc⟩ := h.exists_member hl
  have hc' : m.toDual.stack.members[k]? = some c.toDual := by
    rw [hmembers, List.getElem?_map, hc, Option.map_some]
  obtain ⟨hfst, hsnd⟩ := hyz k l hl
  -- which rows are kept is decided by the values
  have hkeeps : c.toDual.projection.keeps (z.get (offset m.stack.J.heights k + l)) =
      c.projection.keeps (y.coord Reading.exact m.stack.J.heights k l) := by
    rw [← hfst]
    exact c.projection.keeps_toDual _
  have hδkl := hδcoord k l c.toDual hc' hl
  change δ.coord Reading.dual m.stack.J.heights k l = if c.toDual.projection.keeps
    (z.get (offset m.stack.J.heights k + l)) then _ else _ at hδkl
  rw [hkeeps] at hδkl
  exact ⟨c, hc, hfst, hsnd, hγcoord k l c hc hl, hδkl⟩

/-- Where the regularization and its inverse cancel, selected impulses move against the motions. -/
theorem WellFormed.exists_moves (h : m.WellFormed ts) (hv : m.Fits v)
    (ht : t.size = m.velocityCount) (hsel : ∀ c ∈ m.stack.members, c.projection.Selects)
    (hR : ∀ k l, l < m.stack.J.heights.getD k 0 →
      m.stack.R.coord Reading.exact m.stack.J.heights k l *
        m.stack.Rinv.coord Reading.exact m.stack.J.heights k l = 1) :
    ∃ (γ : Vec K) (δ : Vec (Dual K)), m.valueAt v .impulses = .ok γ ∧ γ.format = m.format ∧
      m.toDual.valueAt (Vec.dual v t) .impulses = .ok δ ∧ m.Moves ts t γ δ := by
  obtain ⟨y, γ, z, δ, -, hγ, hγformat, hδ, hrows⟩ := h.exists_selected_dual hv ht hsel
  have hmoves : ∀ k l, l < m.stack.J.heights.getD k 0 →
      (δ.coord Reading.dual m.stack.J.heights k l).fst =
          γ.coord Reading.exact m.stack.J.heights k l ∧
        γ.coord Reading.exact m.stack.J.heights k l *
            m.stack.R.coord Reading.exact m.stack.J.heights k l *
              (δ.coord Reading.dual m.stack.J.heights k l).snd =
          -(γ.coord Reading.exact m.stack.J.heights k l * m.motion ts t k l) := by
    intro k l hl
    obtain ⟨c, -, hfst, hsnd, hγkl, hδkl⟩ := hrows k l hl
    exact kept_moves (hR k l hl) hfst hsnd hγkl hδkl
  exact ⟨γ, δ, hγ, hγformat, hδ, fun k l hl => (hmoves k l hl).1, fun k l hl => (hmoves k l hl).2⟩

/-! ## The cost along a direction

The momentum term has one derivative by the formula for a square and another one by the gradient.
They differ by half the skewness of the dynamics, which is why it appears in the main statement. -/

/-- The part of `tᵀ·A·(v - v*)` that a symmetric `A` does not have: `tᵀ·(A - Aᵀ)·(v - v*)`. -/
def skewness (m : Model K) (v t : Vec K) : K :=
  ∑ k ∈ Finset.range m.sizes.length, ∑ i ∈ Finset.range (m.sizes.getD k 0),
    ∑ j ∈ Finset.range (m.sizes.getD k 0), t.coord Reading.exact m.sizes k i *
      (entryOf m.dynamics k i j - entryOf m.dynamics k j i) *
        (v.coord Reading.exact m.sizes k j - m.vStar.coord Reading.exact m.sizes k j)

/-- The derivative of `½dᵀ·A·d` in a direction `t`. -/
theorem derivative_of_square (n : Nat) (A : Nat → Nat → K) (d t : Nat → K) :
    1 / 2 * ∑ i ∈ Finset.range n, (d i * ∑ j ∈ Finset.range n, A i j * t j +
        t i * ∑ j ∈ Finset.range n, A i j * d j) =
      (∑ i ∈ Finset.range n, t i * ∑ j ∈ Finset.range n, A i j * d j) -
        1 / 2 * ∑ i ∈ Finset.range n, ∑ j ∈ Finset.range n, t i * (A i j - A j i) * d j := by
  -- the three sums, written as sums over pairs
  have hswap : ∑ i ∈ Finset.range n, d i * ∑ j ∈ Finset.range n, A i j * t j =
      ∑ i ∈ Finset.range n, ∑ j ∈ Finset.range n, t i * A j i * d j := by
    simp only [Finset.mul_sum]
    rw [Finset.sum_comm]
    exact Finset.sum_congr rfl fun j _ => Finset.sum_congr rfl fun i _ => by ring
  have hkeep : ∑ i ∈ Finset.range n, t i * ∑ j ∈ Finset.range n, A i j * d j =
      ∑ i ∈ Finset.range n, ∑ j ∈ Finset.range n, t i * A i j * d j := by
    simp only [Finset.mul_sum]
    exact Finset.sum_congr rfl fun i _ => Finset.sum_congr rfl fun j _ => by ring
  have hskew : ∑ i ∈ Finset.range n, ∑ j ∈ Finset.range n, t i * (A i j - A j i) * d j =
      (∑ i ∈ Finset.range n, ∑ j ∈ Finset.range n, t i * A i j * d j) -
        ∑ i ∈ Finset.range n, ∑ j ∈ Finset.range n, t i * A j i * d j := by
    simp only [← Finset.sum_sub_distrib]
    exact Finset.sum_congr rfl fun i _ => Finset.sum_congr rfl fun j _ => by ring
  rw [Finset.sum_add_distrib, hswap, hkeep, hskew]
  ring

/-- Half of what varies. -/
theorem snd_half_mul (a : DualNumber K) : (Reading.dual Arith.half * a).snd = 1 / 2 * a.snd := by
  have hfst : (Reading.dual (Arith.half : Dual K)).fst = 1 / 2 := Arith.half_exact
  have hsnd : (Reading.dual (Arith.half : Dual K)).snd = 0 := Dual.tangent_half
  rw [DualNumber.snd_mul, hfst, hsnd, zero_mul, add_zero]

/-- The momentum term moves by the gain of momentum, up to half the skewness. -/
theorem tangent_momentum (m : Model K) (ht : t.size = v.size) :
    (Reading.dual Arith.half * ∑ k ∈ Finset.range m.toDual.sizes.length,
      ∑ i ∈ Finset.range (m.toDual.sizes.getD k 0),
        ((Vec.dual v t).coord Reading.dual m.toDual.sizes k i -
          m.toDual.vStar.coord Reading.dual m.toDual.sizes k i) *
          ∑ j ∈ Finset.range (m.toDual.sizes.getD k 0),
            Reading.dual (entryOf m.toDual.dynamics k i j) *
              ((Vec.dual v t).coord Reading.dual m.toDual.sizes k j -
                m.toDual.vStar.coord Reading.dual m.toDual.sizes k j)).snd =
      (∑ k ∈ Finset.range m.sizes.length, ∑ i ∈ Finset.range (m.sizes.getD k 0),
        t.coord Reading.exact m.sizes k i * ∑ j ∈ Finset.range (m.sizes.getD k 0),
          entryOf m.dynamics k i j *
            (v.coord Reading.exact m.sizes k j - m.vStar.coord Reading.exact m.sizes k j)) -
        1 / 2 * m.skewness v t := by
  have hvStar : m.toDual.vStar = m.vStar.map Dual.const := rfl
  have hdynamics : m.toDual.dynamics = m.dynamics.map (Mat.map Dual.const) := rfl
  have hentry : ∀ k i j, Reading.dual (Dual.const (entryOf m.dynamics k i j)) =
      TrivSqZeroExt.inl (entryOf m.dynamics k i j) := fun k i j => rfl
  rw [sizes_toDual, hvStar, hdynamics, snd_half_mul, skewness, Finset.mul_sum,
    ← Finset.sum_sub_distrib, TrivSqZeroExt.snd_sum, Finset.mul_sum]
  apply Finset.sum_congr rfl
  intro k _
  -- clique by clique this is the derivative of a square
  rw [← derivative_of_square, TrivSqZeroExt.snd_sum]
  refine congrArg _ (Finset.sum_congr rfl fun i _ => ?_)
  rw [DualNumber.snd_mul, TrivSqZeroExt.fst_sum, TrivSqZeroExt.snd_sum]
  simp only [TrivSqZeroExt.fst_sub, TrivSqZeroExt.snd_sub, DualNumber.snd_mul,
    TrivSqZeroExt.fst_mul, entryOf_map_const, hentry, TrivSqZeroExt.fst_inl,
    TrivSqZeroExt.snd_inl, Vec.fst_coord_dual ht, Vec.snd_coord_dual ht, Vec.fst_coord_const,
    Vec.snd_coord_const, sub_zero, zero_mul, add_zero]

/-- The regularizer term moves against the motions of the constraints, weighted by the impulses. -/
theorem tangent_regularizer {δ : Vec (Dual K)} (hmoves : m.Moves ts t γ δ) :
    (Reading.dual Arith.half * ∑ k ∈ Finset.range m.stack.J.heights.length,
      ∑ l ∈ Finset.range (m.stack.J.heights.getD k 0),
        δ.coord Reading.dual m.stack.J.heights k l *
          (m.stack.R.map Dual.const).coord Reading.dual m.stack.J.heights k l *
            δ.coord Reading.dual m.stack.J.heights k l).snd =
      -∑ k ∈ Finset.range m.stack.J.heights.length,
        ∑ l ∈ Finset.range (m.stack.J.heights.getD k 0),
          γ.coord Reading.exact m.stack.J.heights k l * m.motion ts t k l := by
  rw [snd_half_mul, TrivSqZeroExt.snd_sum, Finset.mul_sum, ← Finset.sum_neg_distrib]
  apply Finset.sum_congr rfl
  intro k _
  rw [TrivSqZeroExt.snd_sum, Finset.mul_sum, ← Finset.sum_neg_distrib]
  apply Finset.sum_congr rfl
  intro l hl
  have hl := Finset.mem_range.mp hl
  rw [DualNumber.snd_mul, DualNumber.snd_mul, TrivSqZeroExt.fst_mul, hmoves.value k l hl,
    Vec.fst_coord_const, Vec.snd_coord_const, mul_zero, zero_add, ← hmoves.tangent k l hl]
  ring

/-- The gradient in direction `t`: the gain of momentum against `t`, less the motions of the
constraints, weighted by the impulses. -/
theorem WellFormed.dot_gradient (h : m.WellFormed ts) (hv : m.Fits v)
    (ht : t.size = m.velocityCount) (hγ : m.valueAt v .impulses = .ok γ)
    (hformat : γ.format = m.format) {g : Vec K} (hg : m.valueAt v .costGradient = .ok g) :
    (g.dot t).value =
      (∑ k ∈ Finset.range m.sizes.length, ∑ i ∈ Finset.range (m.sizes.getD k 0),
        t.coord Reading.exact m.sizes k i * ∑ j ∈ Finset.range (m.sizes.getD k 0),
          entryOf m.dynamics k i j *
            (v.coord Reading.exact m.sizes k j - m.vStar.coord Reading.exact m.sizes k j)) -
        ∑ k ∈ Finset.range m.stack.J.heights.length,
          ∑ l ∈ Finset.range (m.stack.J.heights.getD k 0),
            γ.coord Reading.exact m.stack.J.heights k l * m.motion ts t k l := by
  obtain ⟨hgsize, hgcoord⟩ := h.coord_gradient Reading.exact hv hγ hg
  have hne := ne_boolean_of_floating h.floating
  -- the motions are `J·t`, and against `γ` they are `Jᵀ·γ` against `t`
  let direction : Vec K := ⟨m.format, t.entries⟩
  obtain ⟨Jt, hJt, -⟩ := BlockGrid.multiply_of_fits (x := direction) h.lists
    (by rw [h.widths]; exact ht) hne h.block_format
  obtain ⟨Jγ, hJγ, -⟩ := BlockGrid.transposeMultiply_of_fits h.lists (h.size_impulses hv hγ)
    (by rw [hformat]; exact hne) (by rw [hformat]; exact h.block_format)
  obtain ⟨-, hJtcoord⟩ := BlockGrid.coord_multiply Reading.exact h.lists hJt
  obtain ⟨-, hJγcoord⟩ := BlockGrid.coord_transposeMultiply Reading.exact h.lists hJγ
  have hadjoint := BlockGrid.sum_multiply_eq Reading.exact h.lists hJt hJγ
  rw [h.widths] at hadjoint hJtcoord hJγcoord
  have hmotion : ∑ k ∈ Finset.range m.stack.J.heights.length,
      ∑ l ∈ Finset.range (m.stack.J.heights.getD k 0),
        γ.coord Reading.exact m.stack.J.heights k l * m.motion ts t k l =
      ∑ k ∈ Finset.range m.sizes.length, ∑ i ∈ Finset.range (m.sizes.getD k 0),
        t.coord Reading.exact m.sizes k i * Jγ.coord Reading.exact m.sizes k i := by
    refine Eq.trans ?_ hadjoint
    refine Finset.sum_congr rfl fun k _ => Finset.sum_congr rfl fun l hl => ?_
    rw [hJtcoord k l (Finset.mem_range.mp hl)]
    rfl
  have hgsum : g.size = total m.sizes := hgsize
  have hdot := Vec.map_dot_blocks Reading.exact hgsum ht
  rw [Reading.exact_apply] at hdot
  rw [hdot, hmotion, ← Finset.sum_sub_distrib]
  apply Finset.sum_congr rfl
  intro k _
  rw [← Finset.sum_sub_distrib]
  apply Finset.sum_congr rfl
  intro i hi
  have hi := Finset.mem_range.mp hi
  rw [hgcoord k i hi, hJγcoord k i hi]
  simp only [Reading.exact_apply]
  ring

/-- **Derivative.** The cost moves by the gradient, up to half the skewness. -/
theorem WellFormed.exists_tangent (h : m.WellFormed ts) (hv : m.Fits v)
    (ht : t.size = m.velocityCount) (hsel : ∀ c ∈ m.stack.members, c.projection.Selects)
    (hR : ∀ k l, l < m.stack.J.heights.getD k 0 →
      m.stack.R.coord Reading.exact m.stack.J.heights k l *
        m.stack.Rinv.coord Reading.exact m.stack.J.heights k l = 1) :
    ∃ (g : Vec K) (x : Scalar (Dual K)), m.valueAt v .costGradient = .ok g ∧
      m.toDual.valueAt (Vec.dual v t) .cost = .ok x ∧
      x.value.tangent = (g.dot t).value - 1 / 2 * m.skewness v t := by
  obtain ⟨γ, δ, hγ, hγformat, hδ, hmoves⟩ := h.exists_moves hv ht hsel hR
  obtain ⟨g, hg⟩ := h.exists_gradient hv hγ hγformat
  obtain ⟨x, hx, hvalue⟩ := h.toDual.exists_cost Reading.dual (hv.dual t) hδ
  have htangent : x.value.tangent = (Reading.dual x.value).snd := rfl
  refine ⟨g, x, hg, hx, ?_⟩
  rw [htangent, hvalue, TrivSqZeroExt.snd_add, tangent_momentum m (ht.trans hv.size.symm),
    h.dot_gradient hv ht hγ hγformat hg]
  have hregularizer := tangent_regularizer hmoves
  refine (congrArg _ hregularizer).trans ?_
  ring

/-- Symmetric dynamics have no skewness. -/
theorem skewness_eq_zero (hA : ∀ A ∈ m.dynamics, ∀ i j, A.get i j = A.get j i) (v t : Vec K) :
    m.skewness v t = 0 := by
  have hentry : ∀ k i j, entryOf m.dynamics k i j = entryOf m.dynamics k j i := by
    intro k i j
    rw [entryOf, entryOf]
    cases hk : m.dynamics[k]? with
    | none => rfl
    | some A => exact hA A (List.mem_of_getElem? hk) i j
  apply Finset.sum_eq_zero
  intro k _
  refine Finset.sum_eq_zero fun i _ => Finset.sum_eq_zero fun j _ => ?_
  rw [hentry k i j, sub_self, mul_zero, zero_mul]

/-! ## Models of problems -/

/-- **The gradient is the derivative of the cost.** Let a model be built from a problem all of whose
constraints keep each component of their unprojected impulses or drop it. At velocities `v`, from
any state, the gradient has a value; at `v + ε·t`, from any state on dual numbers, the cost has one,
and its tangent is the gradient in direction `t`, less half of `tᵀ·(A - Aᵀ)·(v - v*)`. Where the
dynamics matrices are symmetric, it is the gradient in direction `t`.

Dual numbers carry fractions, which the factored dynamics matrices hold. Where there are no
constraints nothing is factored, so it is assumed. -/
theorem tangent_cost_eq {p : ContactProblem K} (hp : p.Constructed) (hm : build? p = .ok m)
    (hf : p.constraints = [] → p.format.isFloating = true)
    (hsel : ∀ c ∈ p.constraints, c.projection.Selects) (hv : m.Fits v) (ht : m.Fits t)
    {s : ModelState K (Quantity.Value K)} (hs : s.size = m.velocityCount)
    {σ : ModelState (Dual K) (Quantity.Value (Dual K))} (hσ : σ.size = m.velocityCount) :
    ∃ (g : Vec K) (d : Tensor (Dual K)) (x : Scalar (Dual K)),
      m.evalAt s .costGradient (.tensor v.toTensor) = .ok g ∧
      Tensor.dual v.toTensor t.toTensor = .ok d ∧
      m.toDual.evalAt σ .cost (.tensor d) = .ok x ∧
      x.value.tangent = (g.dot t).value - 1 / 2 * m.skewness v t ∧
      ((∀ A ∈ m.dynamics, ∀ i j, A.get i j = A.get j i) →
        x.value.tangent = (g.dot t).value) := by
  obtain ⟨Ls, h⟩ := exists_steps hm
  have hwf := hp.wellFormed
  have hf := h.floating hwf hf
  have hmodel := Steps.wellFormed hwf hf h
  have hmembers : ∀ c ∈ m.stack.members, c.projection.Selects := by
    obtain ⟨laws, hparts⟩ := h.exists_parts
    intro c hc
    rw [hparts.members] at hc
    obtain ⟨k, hk, rfl⟩ := List.getElem_of_mem hc
    rw [List.getElem_zipWith]
    exact hsel _ ((pick_perm h.order_perm).mem_iff.mp (List.getElem_mem _))
  obtain ⟨g, x, hg, hx, htangent⟩ := hmodel.exists_tangent hv ht.size hmembers
    fun k l hl => h.R_mul_Rinv hwf hf hl
  have hvf : v.format.isFloating = true := by rw [hv.format]; exact hmodel.floating
  have hσ' : σ.size = m.toDual.velocityCount := by rw [velocityCount_toDual]; exact hσ
  refine ⟨g, _, x, ?_, Tensor.dual_toTensor hvf (ht.format.trans hv.format.symm)
    (ht.size.trans hv.size.symm), ?_, htangent, ?_⟩
  · rw [evalAt_eq hs hv.size follows_costGradient, hg]
  · rw [evalAt_eq hσ' (hv.dual t).size follows_cost, hx]
  · intro hA
    rw [htangent, skewness_eq_zero hA, mul_zero, sub_zero]

/-- Velocities of the small model, and a direction. -/
def sampleMotion : Vec ℚ × Vec ℚ := (⟨.double, [1, -2, 3]⟩, ⟨.double, [0, 1, 4]⟩)

/-- The small model, along one direction. -/
theorem tangent_cost_eq_sample :
    ∃ p m, ContactProblem.sample? = .ok p ∧ build? p = .ok m ∧
      ∃ (g : Vec ℚ) (d : Tensor (Dual ℚ)) (x : Scalar (Dual ℚ)),
        m.evalAt m.makeState .costGradient (.tensor sampleMotion.1.toTensor) = .ok g ∧
        Tensor.dual sampleMotion.1.toTensor sampleMotion.2.toTensor = .ok d ∧
        m.toDual.evalAt m.toDual.makeState .cost (.tensor d) = .ok x ∧
        x.value.tangent = (g.dot sampleMotion.2).value -
          1 / 2 * m.skewness sampleMotion.1 sampleMotion.2 := by
  obtain ⟨p, hp, h⟩ := Outcome.exists_of_check (x := ContactProblem.sample?)
    (P := fun p => p.format == .double && p.constraints.all (fun c => c.projection.Selects) &&
      (build? p).toOption.any fun m => m.velocityCount == 3 && m.format == .double)
    (by decide +kernel)
  simp only [Bool.and_eq_true, beq_iff_eq, List.all_eq_true, decide_eq_true_eq] at h
  obtain ⟨⟨hformat, hsel⟩, h⟩ := h
  obtain ⟨m, hm, h⟩ := Outcome.exists_of_check h
  simp only [Bool.and_eq_true, beq_iff_eq] at h
  obtain ⟨hcount, hmformat⟩ := h
  have hv : m.Fits sampleMotion.1 := ⟨hcount.symm, hmformat.symm⟩
  have ht : m.Fits sampleMotion.2 := ⟨hcount.symm, hmformat.symm⟩
  have hσ : m.toDual.makeState.size = m.velocityCount :=
    congrArg Int.ofNat (velocityCount_toDual m)
  obtain ⟨g, d, x, hg, hd, hx, htangent, -⟩ := tangent_cost_eq
    (ContactProblem.constructed_sample hp) hm (fun _ => by rw [hformat]; rfl) hsel hv ht
    (s := m.makeState) rfl hσ
  exact ⟨p, m, hp, hm, g, d, x, hg, hd, hx, htangent⟩

end Model

end ConvexContact
