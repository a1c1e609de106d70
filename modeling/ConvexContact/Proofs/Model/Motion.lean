import ConvexContact.Proofs.Model.Duals

/-!
# Motions of constraints

When the velocities of a model move in a direction `t`, the velocities of its constraints move by
`J·t` (`Model.motion`), and the unprojected impulses against that, scaled by `R⁻¹`. This is where
every derivative of the model starts: nothing before the projections is more than affine in the
velocities, so one sum over the blocks of a row says all.
-/

namespace ConvexContact.Model

variable {K : Type} [ExactField K] {m : Model K} {ts : List (PlacedBlock K)} {v t : Vec K}

/-- The velocities of the constraints when the velocities move in direction `t`. -/
def motion (m : Model K) (ts : List (PlacedBlock K)) (t : Vec K) (k l : Nat) : K :=
  ((ts.filter fun b => b.row = k).map (PlacedBlock.forward Reading.exact m.sizes t l)).sum

/-- The unprojected impulses move against the motion of their constraint, scaled by `R⁻¹`. -/
theorem WellFormed.exists_unprojected_dual (h : m.WellFormed ts) (hv : m.Fits v)
    (ht : t.size = m.velocityCount) :
    ∃ (y : Vec K) (z : Vec (Dual K)), m.valueAt v .unprojectedImpulses = .ok y ∧
      m.toDual.valueAt (Vec.dual v t) .unprojectedImpulses = .ok z ∧
      (y.size = total m.stack.J.heights ∧ y.format = m.format) ∧
      (z.size = total m.stack.J.heights ∧ z.format = m.format) ∧
      ∀ k l, l < m.stack.J.heights.getD k 0 →
        (z.coord Reading.dual m.stack.J.heights k l).fst =
          y.coord Reading.exact m.stack.J.heights k l ∧
        (z.coord Reading.dual m.stack.J.heights k l).snd =
          -m.stack.Rinv.coord Reading.exact m.stack.J.heights k l * m.motion ts t k l := by
  obtain ⟨y, hy, hysize, hyformat, hycoord⟩ := h.exists_unprojectedImpulses Reading.exact hv
  obtain ⟨z, hz, hzsize, hzformat, hzcoord⟩ :=
    h.toDual.exists_unprojectedImpulses Reading.dual (hv.dual t)
  have hvt : t.size = v.size := ht.trans hv.size.symm
  refine ⟨y, z, hy, hz, ⟨hysize, hyformat⟩, ⟨hzsize, hzformat⟩, fun k l hl => ?_⟩
  -- the formula of the model on dual numbers, with the parts that do not vary written as constants
  have hz := hzcoord k l hl
  rw [sizes_toDual, List.filter_map, List.map_map] at hz
  change z.coord Reading.dual m.stack.J.heights k l =
    -(m.stack.Rinv.map Dual.const).coord Reading.dual m.stack.J.heights k l *
      (((ts.filter fun b => b.row = k).map fun b =>
        b.toDual.forward Reading.dual m.sizes (Vec.dual v t) l).sum -
          (m.stack.vHat.map Dual.const).coord Reading.dual m.stack.J.heights k l) at hz
  rw [hz, hycoord k l hl]
  -- of a product of dual numbers the value is the product of the values
  constructor
  · rw [TrivSqZeroExt.fst_mul, TrivSqZeroExt.fst_neg, TrivSqZeroExt.fst_sub, fst_sum_map,
      Vec.fst_coord_const, Vec.fst_coord_const]
    simp only [PlacedBlock.fst_forward hvt]
  -- and the tangent is the one of the velocities, since nothing else varies
  · rw [DualNumber.snd_mul, TrivSqZeroExt.snd_neg, TrivSqZeroExt.snd_sub, snd_sum_map,
      Vec.snd_coord_const, Vec.snd_coord_const, TrivSqZeroExt.fst_neg, Vec.fst_coord_const]
    simp only [PlacedBlock.snd_forward hvt, neg_zero, zero_mul, add_zero, sub_zero]
    rfl

/-- The product of the Jacobian with a direction has the motions as its coordinates. -/
theorem WellFormed.exists_motion (h : m.WellFormed ts) (ht : m.Fits t) :
    ∃ Jt, m.stack.J.multiply t = .ok Jt ∧ Jt.size = total m.stack.J.heights ∧
      Jt.format = m.format ∧ ∀ k l, l < m.stack.J.heights.getD k 0 →
        Jt.coord Reading.exact m.stack.J.heights k l = m.motion ts t k l := by
  obtain ⟨Jt, hJt, hformat⟩ := BlockGrid.multiply_of_fits h.lists
    (by rw [h.widths]; exact ht.size)
    (by rw [ht.format]; exact ne_boolean_of_floating h.floating)
    (by rw [ht.format]; exact h.block_format)
  obtain ⟨hsize, hcoord⟩ := BlockGrid.coord_multiply Reading.exact h.lists hJt
  rw [h.widths] at hcoord
  exact ⟨Jt, hJt, hsize, hformat.trans ht.format, hcoord⟩

end ConvexContact.Model
