import ConvexContact.Proofs.Constraint.Differentiation
import ConvexContact.Proofs.Evaluation.Hessian
import ConvexContact.Proofs.Model.Assembly
import ConvexContact.Proofs.Model.Blocks

/-!
# The Hessian as derivative of the gradient

Where the Jacobian of every projection is its derivative, the impulses at `v + ε·t` have the
derivative `-G·(J·t)`, constraint by constraint, with the blocks `G = dP/dy·R⁻¹` of the Hessian at
`v`. So the gradient `A·(v - v*) - Jᵀ·γ` has the derivative `A·t + Jᵀ·(G·(J·t))`, the product of the
Hessian with `t` that never forms the matrix.

The scaling by `R⁻¹` goes to the columns of `dP/dy`, since `y` moves by `-R⁻¹·J·t` and `dP/dy` is
applied to that. Nothing needs to be symmetric.

Proof shape: `MovesBy` says what one member does, at plain numbers and at dual ones at once, and
`exists_movesBy` proves it from the derivative of the projection. `exists_tangent_impulses` joins
the members, `exists_tangent_gradient` takes the sums of the gradient apart into what does not vary
and what does.
-/

namespace ConvexContact

namespace Model

variable {K : Type} [ExactField K] {m : Model K} {ts : List (PlacedBlock K)} {v t : Vec K}

/-- What a member of the stack makes of unprojected impulses: impulses `γ` and a block `G` at `y`,
and at `z` impulses `δ` whose derivative is `-G` times the motion of the constraint. -/
structure MovesBy (m : Model K) (ts : List (PlacedBlock K)) (t : Vec K) (y : Vec K)
    (z : Vec (Dual K)) (k : Nat) (c : StackedConstraint K) (γ : Vec K) (G : Mat K)
    (δ : Vec (Dual K)) : Prop where
  joint : m.stack.AnswersJointly y k c γ G
  varying : m.toDual.stack.Answers z k c.toDual δ
  format_block : G.format = m.format
  format_varying : δ.format = m.format
  derivative : ∀ l, l < c.equations →
    (δ.get l).tangent = -∑ j ∈ Finset.range c.equations, G.get l j * m.motion ts t k j

/-- A member whose projection has a derivative moves by its block. -/
theorem WellFormed.exists_movesBy (h : m.WellFormed ts) {y : Vec K} {z : Vec (Dual K)}
    (hy : y.size = total m.stack.J.heights ∧ y.format = m.format)
    (hz : z.size = total m.stack.J.heights ∧ z.format = m.format)
    (hyz : ∀ k l, l < m.stack.J.heights.getD k 0 →
      (z.coord Reading.dual m.stack.J.heights k l).fst =
          y.coord Reading.exact m.stack.J.heights k l ∧
        (z.coord Reading.dual m.stack.J.heights k l).snd =
          -m.stack.Rinv.coord Reading.exact m.stack.J.heights k l * m.motion ts t k l)
    {k : Nat} {c : StackedConstraint K} (hc : m.stack.members[k]? = some c)
    (hder : c.projection.HasDerivative c.equations) :
    ∃ γ G δ, m.MovesBy ts t y z k c γ G δ := by
  have hheight := h.getD_heights hc
  have hblock : ∀ {L : Type} (x : Vec L), x.size = total m.stack.J.heights →
      (x.block m.stack.J.heights k).size = c.equations := by
    intro L x hx
    rw [Vec.size_block hx, hheight]
  -- what varies under the projection is the part of the unprojected impulses that is the member's
  have hvaries : Projection.Varies c.equations (y.block m.stack.J.heights k)
      (m.stack.R.block m.stack.J.heights k) (z.block m.stack.J.heights k) := {
    floating := by
      rw [Vec.format_block, hy.2]
      exact h.floating
    size := hblock y hy.1
    size_R := hblock _ h.R_size
    format_R := h.R_format.trans hy.2.symm
    size_varying := hblock z hz.1
    format_varying := hz.2.trans hy.2.symm
    value := fun l hl => by
      have hl : l < m.stack.J.heights.getD k 0 := by rw [hheight]; exact hl
      rw [Vec.get_block hl, Vec.get_block hl]
      exact (hyz k l hl).1 }
  obtain ⟨γ, D, δ, hD⟩ := hder.differentiates hvaries
  refine ⟨γ, D.scaleColumns (m.stack.Rinv.block m.stack.J.heights k), δ, ?_, ?_, ?_, ?_, ?_⟩
  -- the joint answer, whose block is the Jacobian with its columns scaled
  · exact ⟨hD.size, D, hD.joint, ⟨hD.rows, hD.cols⟩, rfl⟩
  -- on dual numbers the regularization does not vary, and no Jacobian is asked for
  · refine ⟨hD.size_varying, none, ?_⟩
    have hR : m.toDual.stack.R.block m.toDual.stack.J.heights k =
        (m.stack.R.block m.stack.J.heights k).map Dual.const := Vec.block_map _ _ _ _
    rw [hR]
    exact hD.varying
  -- the formats of block and impulses are that of the model
  · change D.format.join m.stack.Rinv.format = m.format
    rw [hD.format_jacobian, Vec.format_block, hy.2, h.Rinv_format, Format.join_self]
  · rw [hD.format_varying, Vec.format_block, hy.2]
  -- the chain rule on row `l`: the factor `R⁻¹` moves from the tangents into the columns
  · intro l hl
    rw [hD.derivative l hl, ← Finset.sum_neg_distrib]
    apply Finset.sum_congr rfl
    intro j hj
    have hj := Finset.mem_range.mp hj
    have hj' : j < m.stack.J.heights.getD k 0 := by rw [hheight]; exact hj
    have hscaled : (D.scaleColumns (m.stack.Rinv.block m.stack.J.heights k)).get l j =
        D.get l j * m.stack.Rinv.coord Reading.exact m.stack.J.heights k j := by
      rw [Mat.scaleColumns, Mat.get_ofFn _ _ (by rw [hD.rows]; exact hl)
        (by rw [hD.cols]; exact hj), Vec.get_block hj']
      rfl
    have htangent : ((z.block m.stack.J.heights k).get j).tangent =
        -m.stack.Rinv.coord Reading.exact m.stack.J.heights k j * m.motion ts t k j := by
      rw [Vec.get_block hj']
      exact (hyz k j hj').2
    rw [hscaled, htangent]
    ring

/-- **Impulses along a direction.** They move against what the blocks put up against the motions of
the constraints. -/
theorem WellFormed.exists_tangent_impulses (h : m.WellFormed ts) (hv : m.Fits v)
    (ht : t.size = m.velocityCount)
    (hder : ∀ c ∈ m.stack.members, c.projection.HasDerivative c.equations) :
    ∃ (G : List (Mat K)) (δ : Vec (Dual K)), m.valueAt v .constraintsHessian = .ok G ∧
      m.FitsBlocks G ∧ m.toDual.valueAt (Vec.dual v t) .impulses = .ok δ ∧
      (δ.size = total m.stack.J.heights ∧ δ.format = m.format) ∧
      ∀ k l, l < m.stack.J.heights.getD k 0 →
        (δ.coord Reading.dual m.stack.J.heights k l).snd = -m.resistance ts G t k l := by
  obtain ⟨y, z, hy, hz, hyfits, hzfits, hyz⟩ := h.exists_unprojected_dual hv ht
  -- answers exist for each member, so they are taken for all members at once
  have hmoves : ∀ ci ∈ m.stack.members.zipIdx, ∃ answer : Vec K × Mat K × Vec (Dual K),
      m.MovesBy ts t y z ci.2 ci.1 answer.1 answer.2.1 answer.2.2 := by
    rintro ⟨c, k⟩ hck
    have hc := List.mem_zipIdx_iff_getElem?.mp hck
    obtain ⟨γ, G, δ, hmoves⟩ :=
      h.exists_movesBy hyfits hzfits hyz hc (hder c (List.mem_of_getElem? hc))
    exact ⟨(γ, G, δ), hmoves⟩
  obtain ⟨answers, hanswers⟩ := exists_forall₂ hmoves
  -- the answers with blocks of the stack, and the answers of the stack on dual numbers
  have hpairs : List.Forall₂
      (fun ci (pair : Vec K × Mat K) => m.stack.AnswersJointly y ci.2 ci.1 pair.1 pair.2)
      m.stack.members.zipIdx (answers.map fun a => (a.1, a.2.1)) := by
    rw [List.forall₂_map_right_iff]
    exact hanswers.imp fun ci a ha => ha.joint
  have hvarying : List.Forall₂ (fun ci δ => m.toDual.stack.Answers z ci.2 ci.1 δ)
      m.toDual.stack.members.zipIdx (answers.map (·.2.2)) := by
    change List.Forall₂ _ (m.stack.members.map StackedConstraint.toDual).zipIdx _
    rw [List.zipIdx_map, List.forall₂_map_left_iff, List.forall₂_map_right_iff]
    exact hanswers.imp fun ci a ha => ha.varying
  have hformat : ∀ a ∈ answers, a.2.1.format = m.format ∧ a.2.2.format = m.format := by
    intro a ha
    obtain ⟨ci, -, hci⟩ := exists_of_forall₂ hanswers.flip ha
    exact ⟨hci.format_block, hci.format_varying⟩
  have hsizes : (answers.map (·.2.2)).map Vec.size = m.stack.J.heights := by
    rw [Stack.map_size_of_answers hvarying]
    exact h.toDual.heights.symm
  refine ⟨(answers.map fun a => (a.1, a.2.1)).map (·.2), Vec.concat z.format (answers.map (·.2.2)),
    ?_, h.fits_of_answersJointly hpairs ?_, ?_, ⟨?_, ?_⟩, ?_⟩
  · rw [valueAt_constraintsHessian, hy, Outcome.bind_of_ok _ rfl, Outcome.bind_of_ok _
      ((Stack.projectWithHessian_eq_ok hyfits.1).mpr ⟨_, hpairs, rfl⟩)]
  · intro pair hpair
    obtain ⟨a, ha, rfl⟩ := List.mem_map.mp hpair
    exact (hformat a ha).1
  · rw [valueAt_impulses, hz, Outcome.bind_of_ok _ rfl, Stack.project_eq_ok hzfits.1]
    exact ⟨_, hvarying, rfl⟩
  · rw [Vec.size_concat, hsizes]
  · rw [hzfits.2]
    apply Vec.format_concat
    intro δ hδ
    obtain ⟨a, ha, rfl⟩ := List.mem_map.mp hδ
    exact (hformat a ha).2
  · intro k l hl
    obtain ⟨c, hc⟩ := h.exists_member hl
    have hheight := h.getD_heights hc
    obtain ⟨a, hka, hmoves⟩ := getElem?_of_forall₂ hanswers (getElem?_zipIdx_of_eq hc)
    have hδk : (answers.map (·.2.2))[k]? = some a.2.2 := by rw [List.getElem?_map, hka]; rfl
    have hcoord := Vec.coord_concat Reading.dual (f := z.format) hδk (l := l)
      (by rw [hmoves.varying.1]; exact hheight ▸ hl)
    rw [hsizes] at hcoord
    -- the blocks of the Hessian, entry by entry
    have hentry : ∀ j, entryOf ((answers.map fun a => (a.1, a.2.1)).map (·.2)) k l j =
        a.2.1.get l j := by
      intro j
      rw [entryOf, List.map_map, List.getElem?_map, hka]
      rfl
    rw [hcoord, resistance]
    simp only [hentry]
    rw [hheight]
    exact hmoves.derivative l (by rw [← hheight]; exact hl)

/-- **The gradient along a direction.** It moves by the product of the Hessian with the direction.
-/
theorem WellFormed.exists_tangent_gradient (h : m.WellFormed ts) (hv : m.Fits v) (ht : m.Fits t)
    {G : List (Mat K)} (hG : m.FitsBlocks G) {δ : Vec (Dual K)}
    (hδ : m.toDual.valueAt (Vec.dual v t) .impulses = .ok δ)
    (hδformat : δ.format = m.format) (hmoves : ∀ k l, l < m.stack.J.heights.getD k 0 →
      (δ.coord Reading.dual m.stack.J.heights k l).snd = -m.resistance ts G t k l) :
    ∃ (g : Vec (Dual K)) (x : Vec K), m.toDual.valueAt (Vec.dual v t) .costGradient = .ok g ∧
      m.multiplyHessianOf G t = .ok x ∧ g.parts.2 = x := by
  obtain ⟨x, hx, hxsize, hxformat, hxcoord⟩ := h.exists_product hG ht
  obtain ⟨g, hg, hgformat⟩ := h.toDual.exists_gradient_format (hv.dual t) hδ hδformat
  obtain ⟨hgsize, hgcoord⟩ := h.toDual.coord_gradient Reading.dual (hv.dual t) hδ hg
  rw [velocityCount_toDual] at hgsize
  rw [sizes_toDual] at hgcoord
  have hvt : t.size = v.size := ht.size.trans hv.size.symm
  have hsize : g.parts.2.size = m.velocityCount := (Vec.size_map _ _).trans hgsize
  refine ⟨g, x, hg, hx, Vec.ext_get ?_ (hsize.trans hxsize.symm) fun i hi => ?_⟩
  · exact hgformat.trans hxformat.symm
  · rw [hsize] at hi
    obtain ⟨k, j, hj, rfl⟩ := exists_offset_add hi
    have hvalue := congrArg TrivSqZeroExt.snd (hgcoord k j hj)
    have hxkj := hxcoord k j hj
    rw [List.filter_map, List.map_map] at hvalue
    rw [Vec.parts, Vec.get_map _ (by rw [hgsize]; exact hi)]
    refine hvalue.trans (Eq.trans ?_ hxkj.symm)
    rw [TrivSqZeroExt.snd_sub, TrivSqZeroExt.snd_sum, snd_sum_map, sub_eq_add_neg]
    have hvStar : m.toDual.vStar = m.vStar.map Dual.const := rfl
    have hdynamics : m.toDual.dynamics = m.dynamics.map (Mat.map Dual.const) := rfl
    have hentry : ∀ i, Reading.dual (Dual.const (entryOf m.dynamics k j i)) =
        TrivSqZeroExt.inl (entryOf m.dynamics k j i) := fun i => rfl
    -- dynamics and free motion do not vary, so only the velocities leave a tangent
    have hmomentum : ∀ i, (Reading.dual (entryOf m.toDual.dynamics k j i) *
        ((Vec.dual v t).coord Reading.dual m.sizes k i -
          m.toDual.vStar.coord Reading.dual m.sizes k i)).snd =
        entryOf m.dynamics k j i * t.coord Reading.exact m.sizes k i := by
      intro i
      rw [hdynamics, entryOf_map_const, hentry, hvStar, DualNumber.snd_mul, TrivSqZeroExt.snd_sub,
        TrivSqZeroExt.fst_inl, TrivSqZeroExt.snd_inl, Vec.snd_coord_dual hvt, Vec.snd_coord_const,
        sub_zero, zero_mul, add_zero]
    -- the blocks of the Jacobian do not vary either, so the tangents of the impulses remain
    have hback : ∀ u ∈ ts.filter fun u => u.col = k,
        -(u.toDual.backward Reading.dual m.stack.J.heights δ j).snd =
          ∑ l ∈ Finset.range u.block.rows, u.block.get l j * m.resistance ts G t u.row l := by
      intro u hu
      have hu := (List.mem_filter.mp hu).1
      rw [PlacedBlock.snd_backward, ← Finset.sum_neg_distrib]
      apply Finset.sum_congr rfl
      intro l hl
      have hl : l < m.stack.J.heights.getD u.row 0 := by
        rw [← h.lists.height u hu]
        exact Finset.mem_range.mp hl
      rw [hmoves u.row l hl, mul_neg, neg_neg]
    rw [Finset.sum_congr rfl fun i _ => hmomentum i, List.sum_neg, List.map_map]
    exact congrArg _ (congrArg List.sum (List.map_congr_left hback))

/-! ## Models of problems -/

/-- The tangents of a vector of dual numbers have the derivatives as their coordinates. -/
theorem coord_tangents {δ : Vec (Dual K)} {sizes : List Nat} {k l : Nat}
    (hδ : δ.size = total sizes) (hl : l < sizes.getD k 0) :
    δ.parts.2.coord Reading.exact sizes k l = (δ.coord Reading.dual sizes k l).snd := by
  rw [Vec.coord, Vec.parts, Vec.get_map _ (by rw [hδ]; exact offset_add_lt hl)]
  rfl

/-- Where the constraints put something up, block by block. -/
theorem FitsBlocks.block_eq_neg_mulVec {G : List (Mat K)} (hG : m.FitsBlocks G) {u x : Vec K}
    (hu : u.size = total m.stack.J.heights ∧ u.format = m.format)
    (hx : x.size = total m.stack.J.heights)
    (hxcoord : ∀ k l, l < m.stack.J.heights.getD k 0 →
      x.coord Reading.exact m.stack.J.heights k l = m.motion ts t k l)
    (hucoord : ∀ k l, l < m.stack.J.heights.getD k 0 →
      u.coord Reading.exact m.stack.J.heights k l = -m.resistance ts G t k l)
    {i : Nat} {B : Mat K} (hB : G[i]? = some B) :
    u.block m.stack.J.heights i = (B.mulVec (x.block m.stack.J.heights i)).neg := by
  have hmem := List.mem_of_getElem? hB
  obtain ⟨hrows, hcols⟩ := hG.size hB
  have hblock : (u.block m.stack.J.heights i).size = m.stack.J.heights.getD i 0 :=
    Vec.size_block hu.1 i
  refine Vec.ext_get ?_ ?_ fun l hl => ?_
  · exact hu.2.trans (hG.format B hmem).symm
  · rw [hblock, Vec.size_neg, Mat.size_mulVec, hrows]
  · rw [hblock] at hl
    have hneg := Vec.map_get_neg Reading.exact (v := B.mulVec (x.block m.stack.J.heights i)) l
    rw [Mat.map_get_mulVec Reading.exact (by rw [Vec.size_block hx, hcols]), hcols] at hneg
    refine ((Vec.map_get_block Reading.exact hl u).trans (hucoord i l hl)).trans
      (Eq.trans ?_ hneg.symm)
    rw [resistance]
    refine congrArg _ (Finset.sum_congr rfl fun j hj => ?_)
    have hj := Finset.mem_range.mp hj
    rw [entryOf, hB, Vec.map_get_block Reading.exact hj, hxcoord i j hj]
    rfl

/-- **The Hessian is the derivative of the gradient.** Let a model be built from a problem, each of
whose constraints projects by the positive part, the identity, zero, bounds, a square linear map or
the regularization, where springs project by the identity. At velocities `v`, from any state, the
blocks `G` of the Hessian have values, and so has the product of the Hessian with a direction `t`.
At `v + ε·t`, from any state on dual numbers, impulses and gradient have values. The derivative of
the impulses of the `i`-th constraint of the stack is `-Gᵢ·(J·t)ᵢ`, and the derivative of the
gradient is the product with `t`.

Dual numbers carry fractions, which the factored dynamics matrices hold. Where there are no
constraints nothing is factored, so it is assumed. -/
theorem tangent_gradient_eq {p : ContactProblem K} (hp : p.Constructed) (hm : build? p = .ok m)
    (hf : p.constraints = [] → p.format.isFloating = true)
    (hder : ∀ c ∈ p.constraints, c.projection.HasDerivative c.equations) (hv : m.Fits v)
    (ht : m.Fits t) {s : ModelState K (Quantity.Value K)} (hs : s.size = m.velocityCount)
    {σ : ModelState (Dual K) (Quantity.Value (Dual K))} (hσ : σ.size = m.velocityCount) :
    ∃ (d : Tensor (Dual K)) (G : List (Mat K)) (Jt x : Vec K) (δ g : Vec (Dual K)),
      Tensor.dual v.toTensor t.toTensor = .ok d ∧
      m.evalAt s .constraintsHessian (.tensor v.toTensor) = .ok G ∧
      G.length = p.constraints.length ∧
      m.stack.J.multiply t = .ok Jt ∧
      m.toDual.evalAt σ .impulses (.tensor d) = .ok δ ∧
      (∀ i Gi, G[i]? = some Gi → δ.parts.2.block m.stack.J.heights i =
        (Gi.mulVec (Jt.block m.stack.J.heights i)).neg) ∧
      m.toDual.evalAt σ .costGradient (.tensor d) = .ok g ∧
      m.productAt s (.tensor v.toTensor) (.tensor t.toTensor) = .ok x ∧
      g.parts.2 = x := by
  obtain ⟨Ls, h⟩ := exists_steps hm
  have hwf := hp.wellFormed
  have hf := h.floating hwf hf
  have hmodel := Steps.wellFormed hwf hf h
  obtain ⟨G, δ, hG, hfits, hδ, ⟨hδsize, hδformat⟩, hmoves⟩ :=
    hmodel.exists_tangent_impulses hv ht.size
      (h.forall_members (P := fun P n => P.HasDerivative n) hder)
  obtain ⟨Jt, hJt, hJtsize, -, hJtcoord⟩ := hmodel.exists_motion ht
  obtain ⟨g, x, hg, hx, hgx⟩ := hmodel.exists_tangent_gradient hv ht hfits hδ hδformat hmoves
  have hvf : v.format.isFloating = true := by rw [hv.format]; exact hmodel.floating
  have hσ' : σ.size = m.toDual.velocityCount := by rw [velocityCount_toDual]; exact hσ
  refine ⟨_, G, Jt, x, δ, g, Tensor.dual_toTensor hvf (ht.format.trans hv.format.symm)
    (ht.size.trans hv.size.symm), ?_, ?_, hJt, ?_, ?_, ?_, ?_, hgx⟩
  · rw [evalAt_constraintsHessian hs hv.size, hG]
  · rw [hfits.length, hmodel.heights, List.length_map, h.length_members]
  · rw [evalAt_eq hσ' (hv.dual t).size follows_impulses, hδ]
  · intro i Gi hGi
    refine hfits.block_eq_neg_mulVec ⟨(Vec.size_map _ _).trans hδsize, hδformat⟩ hJtsize hJtcoord
      (fun k l hl => ?_) hGi
    exact (coord_tangents hδsize hl).trans (hmoves k l hl)
  · rw [evalAt_eq hσ' (hv.dual t).size follows_costGradient, hg]
  · rw [productAt_eq hs hv.size, hG]
    exact hx

/-- Velocities of the mixed model, and a direction. -/
def mixedMotion : Vec ℚ × Vec ℚ := (⟨.double, [1, -2, 3, 0, 1]⟩, ⟨.double, [0, 1, 4, -1, 2]⟩)

/-- All named projections with a derivative in one problem, along one direction. -/
theorem tangent_gradient_eq_sample :
    ∃ p m, ContactProblem.mixedSample? = .ok p ∧ build? p = .ok m ∧
      ∃ (d : Tensor (Dual ℚ)) (G : List (Mat ℚ)) (Jt x : Vec ℚ) (δ g : Vec (Dual ℚ)),
        Tensor.dual mixedMotion.1.toTensor mixedMotion.2.toTensor = .ok d ∧
        m.evalAt m.makeState .constraintsHessian (.tensor mixedMotion.1.toTensor) = .ok G ∧
        G.length = p.constraints.length ∧
        m.stack.J.multiply mixedMotion.2 = .ok Jt ∧
        m.toDual.evalAt m.toDual.makeState .impulses (.tensor d) = .ok δ ∧
        (∀ i Gi, G[i]? = some Gi → δ.parts.2.block m.stack.J.heights i =
          (Gi.mulVec (Jt.block m.stack.J.heights i)).neg) ∧
        m.toDual.evalAt m.toDual.makeState .costGradient (.tensor d) = .ok g ∧
        m.productAt m.makeState (.tensor mixedMotion.1.toTensor)
          (.tensor mixedMotion.2.toTensor) = .ok x ∧
        g.parts.2 = x := by
  obtain ⟨p, hp, h⟩ := Outcome.exists_of_check (x := ContactProblem.mixedSample?)
    (P := fun p => p.format == .double &&
      p.constraints.all (fun c => c.projection.HasDerivative c.equations) &&
      (build? p).toOption.any fun m => m.velocityCount == 5 && m.format == .double)
    (by decide +kernel)
  simp only [Bool.and_eq_true, beq_iff_eq, List.all_eq_true, decide_eq_true_eq] at h
  obtain ⟨⟨hformat, hder⟩, h⟩ := h
  obtain ⟨m, hm, h⟩ := Outcome.exists_of_check h
  simp only [Bool.and_eq_true, beq_iff_eq] at h
  obtain ⟨hcount, hmformat⟩ := h
  have hv : m.Fits mixedMotion.1 := ⟨hcount.symm, hmformat.symm⟩
  have ht : m.Fits mixedMotion.2 := ⟨hcount.symm, hmformat.symm⟩
  have hσ : m.toDual.makeState.size = m.velocityCount :=
    congrArg Int.ofNat (velocityCount_toDual m)
  exact ⟨p, m, hp, hm, tangent_gradient_eq (ContactProblem.constructed_mixedSample hp) hm
    (fun _ => by rw [hformat]; rfl) hder hv ht rfl hσ⟩

end Model

end ConvexContact
