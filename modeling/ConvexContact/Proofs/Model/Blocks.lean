import ConvexContact.Proofs.Index.Pick
import ConvexContact.Proofs.Model.Motion

/-!
# Blocks of the Hessian

The Hessian approximation `A + Jᵀ·G·J` has a block `G = dP/dy·R⁻¹` for each constraint. The members
of a stack answer with their blocks along with their impulses (`Stack.AnswersJointly`), so blocks
that were answered have the sizes of the members.

With blocks that fit a model, the product that never forms the matrix has the coordinates of `A·w +
Jᵀ·(G·(J·w))`.

Proof shape: the product is a chain `w ↦ J·w ↦ G·(J·w) ↦ Jᵀ·(G·(J·w))` beside `w ↦ A·w`. Each link
has a lemma which says that it succeeds on operands that fit, and with what coordinates:
`exists_motion`, `exists_multiplyMembers`, `exists_takeBack` and `exists_momentum`. What the chain
needs of the blocks is `Model.FitsBlocks`, and blocks that were answered have it
(`WellFormed.fits_of_blocks`).
-/

namespace ConvexContact

/-! ## Answers with blocks -/

section Answers

variable {K : Type} [Arith K]

/-- What a member of a stack makes of its part of unprojected impulses when its block is wanted. -/
def Stack.AnswersJointly (s : Stack K) (y : Vec K) (k : Nat) (c : StackedConstraint K) (γ : Vec K)
    (G : Mat K) : Prop :=
  γ.size = c.equations ∧ ∃ D, c.projection.run (y.block s.J.heights k)
      (s.R.block s.J.heights k) true = .ok (γ, some D) ∧
    (D.rows = c.equations ∧ D.cols = c.equations) ∧
      G = D.scaleColumns (s.Rinv.block s.J.heights k)

/-- The impulses and blocks of a stack are the answers of its members, joined and listed. -/
theorem Stack.projectWithHessian_eq_ok {s : Stack K} {y : Vec K}
    {answer : Vec K × List (Mat K)} (hy : y.size = total s.J.heights) :
    s.projectWithHessian y = .ok answer ↔ ∃ parts : List (Vec K × Mat K),
      List.Forall₂ (fun ci part => s.AnswersJointly y ci.2 ci.1 part.1 part.2)
        s.members.zipIdx parts ∧
      answer = (Vec.concat y.format (parts.map (·.1)), parts.map (·.2)) := by
  have hmember : ∀ (ci : StackedConstraint K × Nat) (part : Vec K × Option (Mat K)),
      s.projectMember y true ci.2 ci.1 = .ok part ↔ ∃ pair : Vec K × Mat K,
        s.AnswersJointly y ci.2 ci.1 pair.1 pair.2 ∧ part = (pair.1, some pair.2) := by
    rintro ⟨c, i⟩ part
    simp only [projectMember, AnswersJointly]
    rw [Outcome.bind_eq_ok]
    constructor
    -- of the answers of a projection only those of the right sizes are let through
    · rintro ⟨⟨γi, D⟩, hrun, hpart⟩
      by_cases hsize : γi.size = c.equations
      · simp only [hsize, ne_eq, not_true_eq_false, if_false, Bool.not_true,
          Bool.false_eq_true] at hpart
        cases D with
        | none => cases hpart
        | some D =>
          by_cases hsquare : D.rows = c.equations ∧ D.cols = c.equations
          · simp only [hsquare, and_self, if_true] at hpart
            exact ⟨(γi, _), ⟨hsize, D, hrun, hsquare, rfl⟩, (Except.ok.inj hpart).symm⟩
          · simp only [hsquare, if_false] at hpart
            cases hpart
      -- impulses of another size are an error
      · simp only [hsize, ne_eq, not_false_eq_true, if_true] at hpart
        cases hpart
    · rintro ⟨⟨γi, _⟩, ⟨hsize, D, hrun, hsquare, rfl⟩, rfl⟩
      refine ⟨(γi, some D), hrun, ?_⟩
      simp only [hsize, ne_eq, not_true_eq_false, if_false, Bool.not_true, Bool.false_eq_true,
        hsquare, and_self, if_true]
      rfl
  rw [projectWithHessian, projectAll, if_neg (not_not.mpr (show y.size = s.equations from hy)),
    Outcome.bind_eq_ok]
  constructor
  · rintro ⟨parts, hparts, hanswer⟩
    obtain rfl := Outcome.pure_eq_ok.mp hanswer
    -- every member has a block, so none is lost where the blocks are listed
    obtain ⟨pairs, hpairs, rfl⟩ := (Outcome.mapM_eq_ok_map hmember).mp hparts
    refine ⟨pairs, hpairs, ?_⟩
    simp [List.filterMap_map, Function.comp_def]
  · rintro ⟨pairs, hpairs, rfl⟩
    refine ⟨_, (Outcome.mapM_eq_ok_map hmember).mpr ⟨pairs, hpairs, rfl⟩, ?_⟩
    simp [List.filterMap_map, Function.comp_def]

/-- A block has the size of its member. -/
theorem Stack.square_of_answersJointly {s : Stack K} {y γ : Vec K} {k : Nat}
    {c : StackedConstraint K} {G : Mat K} (h : s.AnswersJointly y k c γ G) :
    G.rows = c.equations ∧ G.cols = c.equations := by
  obtain ⟨-, D, -, hsquare, rfl⟩ := h
  exact hsquare

/-- A projection whose Jacobian is in no wider a format than the impulses. -/
def Projection.KeepsFormat (P : Projection K) : Prop :=
  ∀ y R γ D, R.format = y.format → P.run y R true = .ok (γ, some D) →
    D.format.join y.format = y.format

/-- Named projections answer in the format of the impulses. -/
theorem Projection.keepsFormat_of_named {P : Projection K} (h : P.isRule = false) :
    P.KeepsFormat := by
  intro y R γ D hR hrun
  rw [run_of_named h] at hrun
  obtain ⟨γ', -, heq⟩ := Outcome.map_eq_ok.mp hrun
  have hD : P.jacobian y R = some D := (Prod.mk.inj heq).2
  suffices hformat : D.format = y.format by rw [hformat, Format.join_self]
  cases P with
  | rule f => cases h
  | withoutJacobian | unspecified => cases hD
  -- this one answers with the regularization, which has the format of the stack
  | timesR => rw [← Option.some.inj hD]; exact hR
  | nonneg | identity | identityOn _ | zero | box _ _ | linear _ | dropLast | wideJacobian =>
    rw [← Option.some.inj hD]
    rfl

end Answers

/-! ## Products

The links of the chain in the order of the product. Each says that it succeeds and hands the sizes
and formats on to the next one. -/

namespace Model

variable {K : Type} [ExactField K] {m : Model K} {ts : List (PlacedBlock K)} {G : List (Mat K)}
  {y w : Vec K}

/-- Blocks of the Hessian that fit a model: a square one for each constraint. -/
structure FitsBlocks (m : Model K) (G : List (Mat K)) : Prop where
  rows : G.map (·.rows) = m.stack.J.heights
  square : ∀ B ∈ G, B.cols = B.rows
  format : ∀ B ∈ G, B.format = m.format

omit [ExactField K] in
/-- There is a block for each row of the Jacobian, -/
theorem FitsBlocks.length (hG : m.FitsBlocks G) : G.length = m.stack.J.heights.length := by
  rw [← hG.rows, List.length_map]

omit [ExactField K] in
/-- and it has the height of the row on either side. -/
theorem FitsBlocks.size (hG : m.FitsBlocks G) {k : Nat} {B : Mat K} (hB : G[k]? = some B) :
    B.rows = m.stack.J.heights.getD k 0 ∧ B.cols = m.stack.J.heights.getD k 0 := by
  have hrows : B.rows = m.stack.J.heights.getD k 0 := by
    rw [← hG.rows, List.getD_eq_getElem?_getD, List.getElem?_map, hB]
    rfl
  exact ⟨hrows, (hG.square B (List.mem_of_getElem? hB)).trans hrows⟩

/-- Blocks that members have answered fit the model. -/
theorem WellFormed.fits_of_answersJointly (h : m.WellFormed ts) {pairs : List (Vec K × Mat K)}
    (hpairs : List.Forall₂ (fun ci pair => m.stack.AnswersJointly y ci.2 ci.1 pair.1 pair.2)
      m.stack.members.zipIdx pairs) (hformat : ∀ pair ∈ pairs, pair.2.format = m.format) :
    m.FitsBlocks (pairs.map (·.2)) where
  rows := by
    have hrows : (pairs.map (·.2)).map (·.rows) =
        m.stack.members.zipIdx.map fun ci => ci.1.equations := by
      rw [List.map_map, ← List.forall₂_eq_eq_eq, List.forall₂_map_left_iff,
        List.forall₂_map_right_iff]
      exact hpairs.flip.imp fun pair ci hi => (Stack.square_of_answersJointly hi).1
    have hfst : (fun ci : StackedConstraint K × Nat => ci.1.equations) =
        (fun c : StackedConstraint K => c.equations) ∘ Prod.fst := rfl
    rw [hrows, hfst, ← List.map_map, List.zipIdx_map_fst, h.heights]
  square B hB := by
    obtain ⟨pair, hpair, rfl⟩ := List.mem_map.mp hB
    obtain ⟨ci, -, hci⟩ := exists_of_forall₂ hpairs.flip hpair
    obtain ⟨hrows, hcols⟩ := Stack.square_of_answersJointly hci
    rw [hrows, hcols]
  format B hB := by
    obtain ⟨pair, hpair, rfl⟩ := List.mem_map.mp hB
    exact hformat pair hpair

/-- The blocks of the Hessian fit the model wherever they have a value. -/
theorem WellFormed.fits_of_blocks (h : m.WellFormed ts) {v : Vec K} (hv : m.Fits v)
    (hkeep : ∀ c ∈ m.stack.members, c.projection.KeepsFormat)
    (hG : m.valueAt v .constraintsHessian = .ok G) : m.FitsBlocks G := by
  obtain ⟨y, hy, hysize, hyformat, -⟩ := h.exists_unprojectedImpulses Reading.exact hv
  rw [valueAt_constraintsHessian, hy, Outcome.bind_of_ok _ rfl] at hG
  obtain ⟨answer, hanswer, hG⟩ := Outcome.bind_eq_ok.mp hG
  obtain ⟨pairs, hpairs, rfl⟩ := (Stack.projectWithHessian_eq_ok hysize).mp hanswer
  obtain rfl := Except.ok.inj hG
  refine h.fits_of_answersJointly hpairs fun pair hpair => ?_
  obtain ⟨ci, hci, -, D, hD, -, hblock⟩ := exists_of_forall₂ hpairs.flip hpair
  have hmem : ci.1 ∈ m.stack.members := List.fst_mem_of_mem_zipIdx hci
  -- the block is joined of the Jacobian of the projection and `R⁻¹`
  have hjoin := hkeep ci.1 hmem (y.block m.stack.J.heights ci.2)
    (m.stack.R.block m.stack.J.heights ci.2) _ _ (h.R_format.trans hyformat.symm) hD
  change D.format.join y.format = y.format at hjoin
  rw [hblock]
  change D.format.join m.stack.Rinv.format = m.format
  rw [h.Rinv_format, ← hyformat, hjoin]

/-- What the constraints put up against velocities that move in direction `w`: the coordinates of
`G·(J·w)`. -/
def resistance (m : Model K) (ts : List (PlacedBlock K)) (G : List (Mat K)) (w : Vec K)
    (k l : Nat) : K :=
  ∑ j ∈ Finset.range (m.stack.J.heights.getD k 0), entryOf G k l j * m.motion ts w k j

/-- Blocks times constraint velocities, one constraint after the other. -/
theorem FitsBlocks.exists_multiplyMembers (hG : m.FitsBlocks G) {x : Vec K}
    (hfloating : m.format.isFloating = true) (hx : x.size = total m.stack.J.heights)
    (hformat : x.format = m.format) :
    ∃ u, m.multiplyMembers G x = .ok u ∧ u.size = total m.stack.J.heights ∧
      u.format = m.format ∧ ∀ k l, l < m.stack.J.heights.getD k 0 →
        u.coord Reading.exact m.stack.J.heights k l =
          ∑ j ∈ Finset.range (m.stack.J.heights.getD k 0),
            entryOf G k l j * x.coord Reading.exact m.stack.J.heights k j := by
  obtain ⟨u, hu, hsize, huformat, hcoord⟩ := multiplyBlocks_of_fits Reading.exact (v := x)
    hG.square (fun B hB => (hG.format B hB).trans hformat.symm)
    (by rw [hformat]; exact ne_boolean_of_floating hfloating) (by rw [hG.rows]; exact hx)
  have hsame : multiplyBlocks G x = m.multiplyMembers G x := by
    rw [multiplyBlocks, hG.rows, multiplyMembers]
    exact if_neg (not_not.mpr hx)
  rw [hG.rows] at hcoord
  exact ⟨u, hsame.symm.trans hu, hsize.trans hx, huformat.trans hformat, hcoord⟩

/-- What a product takes back from constraint velocities `x` to the velocities of the model. -/
def takeBack (m : Model K) (G : List (Mat K)) (w x : Vec K) : Except (Error K) (Vec K) :=
  if G.isEmpty then .ok (Vec.zeros w.format w.size)
  else m.multiplyMembers G x >>= m.stack.J.transposeMultiply

/-- The product is the momentum of the direction and what is taken back from the constraints. -/
theorem multiplyHessianOf_eq (m : Model K) (G : List (Mat K)) (w : Vec K) :
    m.multiplyHessianOf G w = m.stack.J.multiply w >>= fun x =>
      m.takeBack G w x >>= fun back => m.multiplyDynamics w >>= fun p => .ok (p.add back) := by
  unfold multiplyHessianOf takeBack
  refine congrArg _ (funext fun x => ?_)
  split
  · rfl
  · exact (bind_assoc _ _ _).symm

/-- What is taken back has the coordinates of `Jᵀ·(G·x)`. -/
theorem WellFormed.exists_takeBack (h : m.WellFormed ts) (hG : m.FitsBlocks G) (hw : m.Fits w)
    {x : Vec K} (hx : x.size = total m.stack.J.heights) (hformat : x.format = m.format)
    (hcoord : ∀ k l, l < m.stack.J.heights.getD k 0 →
      x.coord Reading.exact m.stack.J.heights k l = m.motion ts w k l) :
    ∃ back, m.takeBack G w x = .ok back ∧ back.size = m.velocityCount ∧
      back.format = m.format ∧ ∀ k i, i < m.sizes.getD k 0 →
        back.coord Reading.exact m.sizes k i = ((ts.filter fun t => t.col = k).map fun t =>
          ∑ l ∈ Finset.range t.block.rows, t.block.get l i * m.resistance ts G w t.row l).sum := by
  cases G with
  -- without constraints there are no blocks, and the sum is empty
  | nil =>
    have hts : ts = [] := by
      rw [List.eq_nil_iff_forall_not_mem]
      intro t ht
      have hlt := h.lists.row_lt t ht
      rw [← hG.rows] at hlt
      exact absurd hlt (Nat.not_lt_zero _)
    refine ⟨_, rfl, (Vec.size_zeros _ _).trans hw.size, hw.format, fun k i _ => ?_⟩
    rw [Vec.coord, Vec.get_zeros, hts]
    rfl
  | cons B Bs =>
    -- otherwise the blocks are applied first, and the transposed Jacobian to what they answer
    obtain ⟨u, hu, husize, huformat, hucoord⟩ := hG.exists_multiplyMembers h.floating hx hformat
    obtain ⟨back, hback, hbformat⟩ := BlockGrid.transposeMultiply_of_fits h.lists husize
      (by rw [huformat]; exact ne_boolean_of_floating h.floating)
      (by rw [huformat]; exact h.block_format)
    obtain ⟨hbsize, hbcoord⟩ := BlockGrid.coord_transposeMultiply Reading.exact h.lists hback
    rw [h.widths] at hbsize hbcoord
    refine ⟨back, ?_, hbsize, hbformat.trans huformat, fun k i hi => ?_⟩
    · rw [takeBack, if_neg (by simp), hu]
      exact hback
    · rw [hbcoord k i hi]
      refine congrArg List.sum (List.map_congr_left fun t ht => ?_)
      have ht := (List.mem_filter.mp ht).1
      apply Finset.sum_congr rfl
      intro l hl
      have hl' : l < m.stack.J.heights.getD t.row 0 := by
        rw [← h.lists.height t ht]
        exact Finset.mem_range.mp hl
      rw [hucoord t.row l hl', resistance]
      refine congrArg _ (Finset.sum_congr rfl fun j hj => ?_)
      rw [hcoord t.row j (Finset.mem_range.mp hj)]

/-- **Matrix-free product.** The product of the Hessian with a vector has the coordinates of
`A·w + Jᵀ·(G·(J·w))`. -/
theorem WellFormed.exists_product (h : m.WellFormed ts) (hG : m.FitsBlocks G) (hw : m.Fits w) :
    ∃ x, m.multiplyHessianOf G w = .ok x ∧ x.size = m.velocityCount ∧ x.format = m.format ∧
      ∀ k i, i < m.sizes.getD k 0 → x.coord Reading.exact m.sizes k i =
        (∑ j ∈ Finset.range (m.sizes.getD k 0),
          entryOf m.dynamics k i j * w.coord Reading.exact m.sizes k j) +
        ((ts.filter fun t => t.col = k).map fun t =>
          ∑ l ∈ Finset.range t.block.rows, t.block.get l i * m.resistance ts G w t.row l).sum := by
  obtain ⟨p, hp, hpsize, hpformat, hpcoord⟩ := h.exists_momentum Reading.exact hw
  obtain ⟨Jw, hJw, hJwsize, hJwformat, hJwcoord⟩ := h.exists_motion hw
  obtain ⟨back, hback, hbsize, hbformat, hbcoord⟩ :=
    h.exists_takeBack hG hw hJwsize hJwformat hJwcoord
  have hmatch : p.size = back.size := hpsize.trans hbsize.symm
  refine ⟨p.add back, ?_, ?_, ?_, fun k i hi => ?_⟩
  · rw [multiplyHessianOf_eq, hJw, Outcome.bind_of_ok _ rfl, hback, Outcome.bind_of_ok _ rfl, hp]
    rfl
  · rw [Vec.size_add, ← hmatch, Nat.min_self, hpsize]
  · rw [Vec.format_add, hpformat, hbformat, Format.join_self]
  · rw [Vec.coord, Vec.map_get_add Reading.exact hmatch]
    change p.coord Reading.exact m.sizes k i + back.coord Reading.exact m.sizes k i = _
    rw [hpcoord k i hi, hbcoord k i hi]
    rfl

end Model

end ConvexContact
