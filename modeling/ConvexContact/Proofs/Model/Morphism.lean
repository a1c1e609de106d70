import ConvexContact.Proofs.Index.Pick
import ConvexContact.Proofs.Linear.Morphism
import ConvexContact.Model.Summary
import ConvexContact.Model.Dual

/-!
# Models under a morphism

A model is **carried** to another by a morphism of arithmetic when its numbers are sent to those of
the other and its projections answer alike (`Projection.Carries`, `Stack.Carries`, `Model.Carries`).
Then every formula of the one is carried to the same formula of the other.

A model on dual numbers is carried to the model it was made from by taking values
(`Model.carries_toDual`). The branches of projections are where this could fail: on which side of a
bound an impulse lies is decided by its value alone.

Proof shape: one lemma for each definition of the model, in the order in which the definitions use
each other, each of them stated with `Outcome.carry`, so that failures are carried along with
answers. A new quantity of the model needs one more lemma of this kind and no change to the others.
-/

namespace ConvexContact

variable {L K : Type}

/-! ## Projections -/

namespace Arith.Hom

variable [Arith L] [Arith K] {φ : L → K} (h : Hom φ)
include h

/-- The branches of a positive part are chosen by comparisons, which `φ` respects. -/
theorem positivePart (y : L) : φ (Projection.positivePart y) = Projection.positivePart (φ y) := by
  simp only [Projection.positivePart, apply_ite φ, h.alongside, h.undefined, ← h.zero, h.le, h.lt,
    h.mayBeLess]

/-- So are those of the nearest bound, crossing bounds included, -/
theorem nearestBound (lo hi y : L) :
    φ (Projection.nearestBound lo hi y) = Projection.nearestBound (φ lo) (φ hi) (φ y) := by
  simp only [Projection.nearestBound, apply_ite φ, h.undefined, h.le, h.lt, h.eq]

/-- and those of a number between bounds. -/
theorem clamp (lo hi y : L) :
    φ (Projection.clamp lo hi y) = Projection.clamp (φ lo) (φ hi) (φ y) := by
  simp only [Projection.clamp, apply_ite φ, h.alongside, h.nearestBound, h.le, h.mayBeLess]

/-- Entries that tell what moves are zero and one, which `φ` keeps. -/
theorem indicator (b : Bool) : φ (Projection.indicator b) = Projection.indicator b := by
  simp only [Projection.indicator, apply_ite φ, h.one, h.zero]

end Arith.Hom

/-! ## Data that does not vary -/

/-- Constants have themselves as values. -/
theorem Mat.map_primal_const (A : Mat K) : (A.map Dual.const).map Dual.primal = A := by
  refine Mat.ext_entries rfl rfl rfl ?_
  simp [Mat.map, Function.comp_def]

/-- A vector that does not vary has itself as its values. -/
theorem Vec.map_primal_const (v : Vec K) : (v.map Dual.const).map Dual.primal = v := by
  simp [Vec.map, Function.comp_def]

/-- The values of a vector that varies are where it varies from. -/
theorem Vec.map_primal_dual [Arith K] (v t : Vec K) : (Vec.dual v t).map Dual.primal = v := by
  simp [Vec.dual, Vec.map, Function.comp_def]

/-- The Jacobian does not vary, whether it is read by rows or by columns. -/
theorem BlockGrid.map_primal_const (J : BlockGrid K) :
    (J.map Dual.const).map Dual.primal = J := by
  have hblocks : ∀ blocks : List (List (Nat × Mat K)),
      (blocks.map (List.map fun b => (b.1, Mat.map Dual.const b.2))).map
        (List.map fun b => (b.1, Mat.map Dual.primal b.2)) = blocks := by
    intro blocks
    simp [Function.comp_def, Mat.map_primal_const]
  rcases J with ⟨format, heights, widths, byRow, byCol, count⟩
  simp only [BlockGrid.map, hblocks]

namespace Projection

variable [Arith K]

/-- What a projection answers is carried to what the other one answers. -/
def Carries [Arith L] (φ : L → K) (P : Projection L) (Q : Projection K) : Prop :=
  ∀ y R wanted, Outcome.carry φ (Prod.map (Vec.map φ) (Option.map (Mat.map φ)))
    (P.run y R wanted) = Q.run (y.map φ) (R.map φ) wanted

/-- Making a projection differentiable does not change its kind, -/
theorem isRule_toDual (P : Projection K) : P.toDual.isRule = P.isRule := by
  cases P <;> rfl

/-- nor the format it answers in. -/
theorem formatOf_toDual (P : Projection K) (f : Format) : P.toDual.formatOf f = P.formatOf f := by
  cases P <;> rfl

/-- The same components move, as that depends on values alone. -/
theorem moves_toDual (P : Projection K) (f : Format) (y : Dual K) :
    P.toDual.moves f y = P.moves f y.primal := by
  cases P <;> rfl

section Plain

variable (hplain : ∀ a b : K, Arith.alongside a b = b)
include hplain

/-- The value of a component is the component of the value. -/
theorem primal_component_toDual (P : Projection K) (f : Format) (y : Dual K) :
    (P.toDual.component f y).primal = P.component f y.primal := by
  have hom := Dual.hom_primal hplain
  cases P with
  | nonneg => exact hom.positivePart (Arith.cast f y)
  | box lo hi => exact hom.clamp _ _ _
  | _ => rfl

/-- The values of the impulses under a projection that goes component by component. -/
theorem map_primal_componentwise (P : Projection K) (y : Vec (Dual K)) :
    (P.toDual.componentwise y).map Dual.primal = P.componentwise (y.map Dual.primal) := by
  simp [componentwise, Vec.map, Function.comp_def, formatOf_toDual,
    primal_component_toDual hplain]

/-- The diagonal that tells which components move. -/
theorem map_primal_indicators (P : Projection K) (f : Format) (y : Vec (Dual K)) :
    (Mat.diag (y.map fun x => indicator (P.toDual.moves f x))).map Dual.primal =
      Mat.diag ((y.map Dual.primal).map fun x => (indicator (P.moves f x) : K)) := by
  have hom := Dual.hom_primal hplain
  simp [hom.mat_diag, Vec.map, Function.comp_def, moves_toDual, hom.indicator]

/-- The values of the impulses under a projection with a name. -/
theorem carry_value_toDual (P : Projection K) (y R : Vec (Dual K)) :
    Outcome.carry Dual.primal (Vec.map Dual.primal) (P.toDual.value y R) =
      P.value (y.map Dual.primal) (R.map Dual.primal) := by
  have hom := Dual.hom_primal hplain
  cases P with
  | nonneg => exact congrArg Except.ok (map_primal_componentwise hplain .nonneg y)
  | zero => exact congrArg Except.ok (map_primal_componentwise hplain .zero y)
  | box lo hi => exact congrArg Except.ok (map_primal_componentwise hplain (.box lo hi) y)
  -- the map of a linear projection does not vary, so it is constant on dual numbers
  | linear M =>
    have hM : ((M.map Dual.const).cast y.format).map Dual.primal = M.cast y.format := by
      rw [hom.mat_cast, Mat.map_primal_const]
    exact (hom.mat_mulVec? _ y).trans (by rw [hM]; rfl)
  -- the sizes may differ, and then both sides fail
  | timesR =>
    simp only [toDual, value, hom.vec_mul?]
    cases y.mul? R <;> rfl
  | dropLast => exact congrArg (fun xs => Except.ok (Vec.mk y.format xs)) List.map_dropLast
  | identity | identityOn _ | withoutJacobian | wideJacobian | unspecified | rule _ => rfl

/-- The values of the Jacobian of a projection with a name. -/
theorem map_jacobian_toDual (P : Projection K) (y R : Vec (Dual K)) :
    (P.toDual.jacobian y R).map (Mat.map Dual.primal) =
      P.jacobian (y.map Dual.primal) (R.map Dual.primal) := by
  have hom := Dual.hom_primal hplain
  cases P with
  | nonneg => exact congrArg some (map_primal_indicators hplain .nonneg _ y)
  | box lo hi => exact congrArg some (map_primal_indicators hplain (.box lo hi) _ y)
  | zero =>
    simp only [toDual, jacobian, Option.map_some, hom.mat_zeros, Vec.size_map, Vec.format_map]
  | identity =>
    simp only [toDual, jacobian, Option.map_some, hom.mat_identity, Vec.size_map, Vec.format_map]
  | dropLast =>
    simp only [toDual, jacobian, Option.map_some, hom.mat_identity, Vec.size_map, Vec.format_map]
  | identityOn n =>
    simp only [toDual, jacobian, Option.map_some, hom.mat_identity, Vec.format_map]
  | linear M =>
    simp only [toDual, jacobian, Option.map_some, hom.mat_cast, Mat.map_primal_const,
      Vec.format_map]
  | timesR => simp only [toDual, jacobian, Option.map_some, hom.mat_diag]
  | wideJacobian =>
    simp only [toDual, jacobian, Option.map_some, hom.mat_zeros, Vec.size_map, Vec.format_map]
  | withoutJacobian | unspecified | rule _ => rfl

omit hplain in
/-- A rule is asked at the values. -/
theorem carry_run_rule_toDual (f : Vec K → Vec K → Bool → Option (Vec K × Option (Mat K))) :
    (rule f).toDual.Carries Dual.primal (rule f) := by
  intro y R wanted
  simp only [toDual, run, ruleToDual, Vec.parts]
  cases f (y.map Dual.primal) (R.map Dual.primal) wanted with
  | none => rfl
  | some answer =>
    obtain ⟨γ, D⟩ := answer
    have hD : (D.map (Mat.map Dual.const)).map (Mat.map Dual.primal) = D := by
      cases D with
      | none => rfl
      | some D => exact congrArg some (Mat.map_primal_const D)
    exact congrArg Except.ok (Prod.ext (Vec.map_primal_dual γ _) hD)

/-- **Projections.** A projection on dual numbers answers, in its values, what the projection
answers that it was made from. -/
theorem carries_toDual (P : Projection K) : P.toDual.Carries Dual.primal P := by
  -- a rule is opaque and asked at the values; a projection with a name is followed step by step
  cases hrule : P.isRule with
  | true =>
    cases P with
    | rule f => exact carry_run_rule_toDual f
    | _ => cases hrule
  | false =>
    intro y R wanted
    rw [run_of_named ((isRule_toDual P).trans hrule), run_of_named hrule,
      ← carry_value_toDual hplain]
    refine Outcome.carry_map fun γ => ?_
    cases wanted with
    | true => exact congrArg (Prod.mk _) (map_jacobian_toDual hplain P y R)
    | false => rfl

end Plain

end Projection

/-! ## Stacks -/

/-- What a stack keeps of a constraint is carried to what the other one keeps. -/
structure StackedConstraint.Carries [Arith L] [Arith K] (φ : L → K) (c : StackedConstraint L)
    (c' : StackedConstraint K) : Prop where
  equations : c.equations = c'.equations
  projection : c.projection.Carries φ c'.projection

/-- A stack whose numbers are sent to those of the other one, with projections that answer alike. -/
structure Stack.Carries [Arith L] [Arith K] (φ : L → K) (s : Stack L) (s' : Stack K) : Prop where
  members : List.Forall₂ (StackedConstraint.Carries φ) s.members s'.members
  J : s.J.map φ = s'.J
  R : s.R.map φ = s'.R
  vHat : s.vHat.map φ = s'.vHat
  Rinv : s.Rinv.map φ = s'.Rinv

namespace Stack.Carries

variable [Arith L] [Arith K] {φ : L → K} {s : Stack L} {s' : Stack K}

/-- The rows are cut alike, -/
theorem heights (hs : s.Carries φ s') : s'.J.heights = s.J.heights :=
  (congrArg BlockGrid.heights hs.J).symm

/-- so there are as many equations -/
theorem equations (hs : s.Carries φ s') : s'.equations = s.equations :=
  congrArg total hs.heights

/-- and as many members. -/
theorem size (hs : s.Carries φ s') : s'.size = s.size := hs.members.length_eq.symm

variable (h : Arith.Hom φ)
include h

/-- The unprojected impulses are carried along. -/
theorem unproject (hs : s.Carries φ s') (vc : Vec L) :
    Outcome.carry φ (Vec.map φ) (s.unproject vc) = s'.unproject (vc.map φ) := by
  rw [Stack.unproject, Stack.unproject, Vec.size_map, hs.equations]
  split_ifs
  · rw [Vec.shape_map]
    rfl
  · rw [← hs.Rinv, ← hs.vHat, ← h.vec_opposite, ← h.vec_difference]
    exact Outcome.carry_bind fun r => Outcome.carry_bind fun d => congrArg Except.ok (h.vec_mul r d)

/-- The impulses of one constraint and its block of the Hessian are carried along. -/
theorem projectMember (hs : s.Carries φ s') {c : StackedConstraint L} {c' : StackedConstraint K}
    (hc : c.Carries φ c') (y : Vec L) (wanted : Bool) (i : Nat) :
    Outcome.carry φ (Prod.map (Vec.map φ) (Option.map (Mat.map φ)))
        (s.projectMember y wanted i c) =
      s'.projectMember (y.map φ) wanted i c' := by
  rw [Stack.projectMember, Stack.projectMember, hs.heights, ← hs.R, Vec.block_map, Vec.block_map,
    ← hc.projection, ← hc.equations, ← hs.Rinv, Vec.block_map]
  refine Outcome.carry_bind ?_
  -- the checks of the answer look at sizes alone, which are carried along
  rintro ⟨γ, D⟩
  simp only [Prod.map, Vec.size_map]
  split_ifs
  · rw [Vec.shape_map]
    rfl
  · rfl
  · cases D with
    | none => rfl
    | some D =>
      change Outcome.carry φ _ (if D.rows = c.equations ∧ D.cols = c.equations then _ else _) =
        if D.rows = c.equations ∧ D.cols = c.equations then _ else _
      split_ifs
      · exact congrArg (fun G => Except.ok (γ.map φ, some G)) (h.mat_scaleColumns D _)
      · rfl

/-- Member by member, with its place in the stack. -/
theorem projectMembers (hs : s.Carries φ s') (y : Vec L) (wanted : Bool) :
    Outcome.carry φ (List.map (Prod.map (Vec.map φ) (Option.map (Mat.map φ))))
        (s.members.zipIdx.mapM fun (c, i) => s.projectMember y wanted i c) =
      s'.members.zipIdx.mapM fun (c, i) => s'.projectMember (y.map φ) wanted i c := by
  refine Outcome.carry_mapM ((forall₂_zipIdx_zipIdx hs.members 0).imp ?_)
  rintro ⟨c, i⟩ ⟨c', i'⟩ ⟨hc, rfl⟩
  exact hs.projectMember h hc y wanted i

/-- The impulses of all constraints and their blocks of the Hessian are carried along. -/
theorem projectAll (hs : s.Carries φ s') (y : Vec L) (wanted : Bool) :
    Outcome.carry φ (Prod.map (Vec.map φ) (List.map (Mat.map φ))) (s.projectAll y wanted) =
      s'.projectAll (y.map φ) wanted := by
  rw [Stack.projectAll, Stack.projectAll, Vec.size_map, hs.equations]
  split_ifs
  · rw [Vec.shape_map]
    rfl
  · rw [← hs.projectMembers h]
    refine Outcome.carry_bind fun parts => congrArg Except.ok (Prod.ext ?_ ?_)
    · simp [h.vec_concat, Function.comp_def]
    · simp [List.filterMap_map, List.map_filterMap]

end Stack.Carries

/-- Of a stack only the projections can tell that the numbers vary. -/
theorem Stack.carries_toDual [Arith K] (hplain : ∀ a b : K, Arith.alongside a b = b) (s : Stack K) :
    s.toDual.Carries Dual.primal s where
  members := by
    refine List.forall₂_map_left_iff.mpr (List.forall₂_same.mpr fun c _ => ?_)
    exact ⟨rfl, Projection.carries_toDual hplain c.projection⟩
  J := BlockGrid.map_primal_const s.J
  R := Vec.map_primal_const s.R
  vHat := Vec.map_primal_const s.vHat
  Rinv := Vec.map_primal_const s.Rinv

/-! ## Models -/

/-- A model whose numbers are sent to those of the other one, with projections that answer alike.
What no evaluation reads is left out. -/
structure Model.Carries [Arith L] [Arith K] (φ : L → K) (m : Model L) (m' : Model K) : Prop where
  format : m.format = m'.format
  fullCliqueCount : m.fullCliqueCount = m'.fullCliqueCount
  fullVelocityCount : m.fullVelocityCount = m'.fullVelocityCount
  graph : m.graph = m'.graph
  dynamics : m.dynamics.map (Mat.map φ) = m'.dynamics
  vStar : m.vStar.map φ = m'.vStar
  pStar : m.pStar.map φ = m'.pStar
  delassus : m.delassus.map φ = m'.delassus
  stack : m.stack.Carries φ m'.stack

namespace Model

/-- Cliques are of the same sizes, -/
@[simp] theorem sizes_toDual [Arith K] (m : Model K) : m.toDual.sizes = m.sizes := by
  rw [sizes, toDual, List.map_map]
  rfl

/-- so there are as many velocities. -/
@[simp] theorem velocityCount_toDual [Arith K] (m : Model K) :
    m.toDual.velocityCount = m.velocityCount := by
  rw [velocityCount, sizes_toDual, velocityCount]

/-- **Values.** A model on dual numbers is carried to the model it was made from. -/
theorem carries_toDual [Arith K] (hplain : ∀ a b : K, Arith.alongside a b = b) (m : Model K) :
    m.toDual.Carries Dual.primal m where
  format := rfl
  fullCliqueCount := rfl
  fullVelocityCount := rfl
  graph := rfl
  dynamics := by simp [toDual, Function.comp_def, Mat.map_primal_const]
  vStar := Vec.map_primal_const m.vStar
  pStar := Vec.map_primal_const m.pStar
  delassus := Vec.map_primal_const m.delassus
  stack := m.stack.carries_toDual hplain

section Cells

variable [Arith K]

/-- What is added to a cell of the Hessian. -/
def addTerm (sum : Option (Mat K)) (term : Mat K) : Option (Mat K) :=
  some (match sum with | none => term | some s => s.add term)

/-- The terms of a cell are added one after the other to what it starts with. -/
theorem hessianBlock_eq (m : Model K) (G : List (Mat K)) (b a : Nat) :
    m.hessianBlock G b a = (G.zipIdx.mapM fun Bk => m.hessianTerm b a Bk.2 Bk.1) >>= fun terms =>
      .ok ((terms.filterMap id).foldl addTerm (if b = a then m.dynamics[b]? else none)) := by
  have hstart : ∀ start : Option (Mat K), start.toList.foldl addTerm none = start := by
    intro start
    cases start <;> rfl
  unfold hessianBlock
  refine congrArg _ (funext fun terms => ?_)
  have hsplit : ∀ start : Option (Mat K), (start.toList ++ terms.filterMap id).foldl addTerm none =
      (terms.filterMap id).foldl addTerm start := by
    intro start
    rw [List.foldl_append, hstart]
  exact congrArg Except.ok (hsplit _)

end Cells

namespace Carries

variable [Arith L] [Arith K] {φ : L → K} {m : Model L} {m' : Model K}

/-- Sizes are read off matrices, not off numbers. -/
theorem sizes (hm : m.Carries φ m') : m'.sizes = m.sizes := by
  rw [Model.sizes, ← hm.dynamics, List.map_map]
  rfl

/-- There are as many velocities. -/
theorem velocityCount (hm : m.Carries φ m') : m'.velocityCount = m.velocityCount :=
  congrArg total hm.sizes

/-- What a summary says of the sizes is the same. -/
theorem modelSizes (hm : m.Carries φ m') : m'.modelSizes = m.modelSizes := by
  have hcount : m'.cliqueCount = m.cliqueCount := by
    rw [cliqueCount, ← hm.dynamics, List.length_map, cliqueCount]
  simp only [Model.modelSizes, hcount, hm.velocityCount, hm.stack.size, hm.stack.equations,
    hm.fullCliqueCount, hm.fullVelocityCount, hm.graph]

variable (h : Arith.Hom φ)
include h

/-- Products with the dynamics are carried along. -/
theorem multiplyDynamics (hm : m.Carries φ m') (v : Vec L) :
    Outcome.carry φ (Vec.map φ) (m.multiplyDynamics v) = m'.multiplyDynamics (v.map φ) := by
  have hsizes : m'.dynamics.map (·.rows) = m.dynamics.map (·.rows) := hm.sizes
  have hpieces := h.mapM_mulVec? (m.dynamics.map (·.rows)) v m.dynamics
  rw [hm.dynamics] at hpieces
  rw [Model.multiplyDynamics, Model.multiplyDynamics, multiplyBlocks, multiplyBlocks, hsizes,
    Vec.size_map]
  split_ifs
  · rw [Vec.shape_map]
    rfl
  · rw [← hpieces]
    exact Outcome.carry_bind fun pieces => congrArg Except.ok (h.vec_concat v.format pieces)

omit m m' in
/-- The cost of the momentum is half an inner product, -/
theorem momentumCostOf (d gain : Vec L) :
    (Model.momentumCostOf d gain).map φ = Model.momentumCostOf (d.map φ) (gain.map φ) := by
  rw [Model.momentumCostOf, h.scalar_half, h.vec_dot]
  rfl

/-- and so is that of the regularizer. -/
theorem regularizerCostOf (hm : m.Carries φ m') (γ : Vec L) :
    (m.regularizerCostOf γ).map φ = m'.regularizerCostOf (γ.map φ) := by
  rw [Model.regularizerCostOf, h.scalar_half, h.vec_dot, h.vec_mul, hm.stack.R]
  rfl

/-- The gradient takes the impulses back through the Jacobian. -/
theorem gradientOf (hm : m.Carries φ m') (gain γ : Vec L) :
    Outcome.carry φ (Vec.map φ) (m.gradientOf gain γ) =
      m'.gradientOf (gain.map φ) (γ.map φ) := by
  rw [Model.gradientOf, Model.gradientOf, ← hm.stack.J, ← h.grid_transposeMultiply]
  exact Outcome.carry_bind fun back => h.vec_difference gain back

/-! ### The dense Hessian -/

/-- A block that is missing is missing in both Jacobians. -/
theorem hessianTerm (hm : m.Carries φ m') (b a i : Nat) (G : Mat L) :
    Outcome.carry φ (Option.map (Mat.map φ)) (m.hessianTerm b a i G) =
      m'.hessianTerm b a i (G.map φ) := by
  rw [Model.hessianTerm, Model.hessianTerm, ← hm.stack.J, BlockGrid.block?_map,
    BlockGrid.block?_map]
  cases m.stack.J.block? i b with
  | none => rfl
  | some Jb =>
    cases m.stack.J.block? i a with
    | none => rfl
    | some Ja =>
      dsimp only [Option.map_some]
      rw [← h.mat_product?]
      refine Outcome.carry_bind fun GJ => ?_
      rw [← h.mat_transpose, ← h.mat_product?]
      exact Outcome.carry_map fun _ => rfl

/-- The first term of a sum is the sum. -/
theorem addTerm (sum : Option (Mat L)) (term : Mat L) :
    (Model.addTerm sum term).map (Mat.map φ) =
      Model.addTerm (sum.map (Mat.map φ)) (term.map φ) := by
  cases sum with
  | none => rfl
  | some s => exact congrArg some (h.mat_add s term)

/-- Terms are collected and added one by one, so they are carried one by one. -/
theorem hessianBlock (hm : m.Carries φ m') (G : List (Mat L)) (b a : Nat) :
    Outcome.carry φ (Option.map (Mat.map φ)) (m.hessianBlock G b a) =
      m'.hessianBlock (G.map (Mat.map φ)) b a := by
  -- terms, start and sum are carried apart from each other
  have hterms := Outcome.carry_mapM_zipIdx (f := Mat.map φ)
    (F := fun Gi => m.hessianTerm b a Gi.2 Gi.1) (G := fun Gi => m'.hessianTerm b a Gi.2 Gi.1)
    (fun Gi i => hm.hessianTerm h b a i Gi) G
  have hstart : (if b = a then m'.dynamics[b]? else none) =
      (if b = a then m.dynamics[b]? else none).map (Mat.map φ) := by
    rw [← hm.dynamics, List.getElem?_map, apply_ite (Option.map (Mat.map φ))]
    rfl
  have hsum : ∀ (terms : List (Mat L)) (sum : Option (Mat L)),
      (terms.foldl Model.addTerm sum).map (Mat.map φ) =
        (terms.map (Mat.map φ)).foldl Model.addTerm (sum.map (Mat.map φ)) := by
    intro terms sum
    rw [List.foldl_map]
    exact (List.foldl_hom (Option.map (Mat.map φ)) fun sum term => (addTerm h sum term).symm).symm
  rw [hessianBlock_eq, hessianBlock_eq, ← hterms]
  refine Outcome.carry_bind fun terms => congrArg Except.ok ?_
  rw [hsum, hstart, List.filterMap_map, List.map_filterMap]
  rfl

/-- The blocks of the Hessian are carried along, all blocks that are missing as zeros. -/
theorem hessianCells (hm : m.Carries φ m') (G : List (Mat L)) (f : Format) (sizes : List Nat) :
    Outcome.carry φ (List.map (List.map (Mat.map φ)))
        (sizes.zipIdx.mapM fun (height, b) => sizes.zipIdx.mapM fun (width, a) => do
          return (← m.hessianBlock G b a).getD (Mat.zeros f height width)) =
      sizes.zipIdx.mapM fun (height, b) => sizes.zipIdx.mapM fun (width, a) => do
        return (← m'.hessianBlock (G.map (Mat.map φ)) b a).getD (Mat.zeros f height width) := by
  refine Outcome.carry_mapM (List.forall₂_same.mpr fun row _ => ?_)
  refine Outcome.carry_mapM (List.forall₂_same.mpr fun column _ => ?_)
  dsimp only
  rw [← hm.hessianBlock h]
  refine Outcome.carry_bind fun B => congrArg Except.ok ?_
  cases B with
  | none => exact h.mat_zeros _ _ _
  | some B => rfl

/-- **Hessian.** The dense matrix of the one is carried to that of the other. -/
theorem hessianOf (hm : m.Carries φ m') (G : List (Mat L)) :
    Outcome.carry φ (Mat.map φ) (m.hessianOf G) = m'.hessianOf (G.map (Mat.map φ)) := by
  have hformat : m'.hessianFormat (G.map (Mat.map φ)) = m.hessianFormat G := by
    cases G with
    | nil => exact hm.format.symm
    | cons Gi G => rfl
  rw [Model.hessianOf, Model.hessianOf, hformat, hm.sizes, ← hm.hessianCells h]
  refine Outcome.carry_bind fun cells => congrArg Except.ok ?_
  rw [h.mat_ofBlocks, ← List.map_flatten, Arith.Hom.mat_joinFormats]

/-! ### Products with the Hessian -/

/-- The blocks of the Hessian are applied to the parts of a vector, -/
theorem multiplyMembers (hm : m.Carries φ m') (G : List (Mat L)) (vc : Vec L) :
    Outcome.carry φ (Vec.map φ) (m.multiplyMembers G vc) =
      m'.multiplyMembers (G.map (Mat.map φ)) (vc.map φ) := by
  rw [Model.multiplyMembers, Model.multiplyMembers, hm.stack.heights, ← h.mapM_mulVec?]
  exact Outcome.carry_bind fun pieces => congrArg Except.ok (h.vec_concat vc.format pieces)

/-- and what they give is taken back through the Jacobian. -/
theorem multiplyHessianOf (hm : m.Carries φ m') (G : List (Mat L)) (w : Vec L) :
    Outcome.carry φ (Vec.map φ) (m.multiplyHessianOf G w) =
      m'.multiplyHessianOf (G.map (Mat.map φ)) (w.map φ) := by
  have hempty : (G.map (Mat.map φ)).isEmpty = G.isEmpty := List.isEmpty_map
  rw [Model.multiplyHessianOf, Model.multiplyHessianOf, ← hm.stack.J, ← h.grid_multiply,
    ← hm.multiplyDynamics h, hempty]
  refine Outcome.carry_bind fun Jw => ?_
  rw [← hm.multiplyMembers h]
  have hsum : ∀ back : Vec L, Outcome.carry φ (Vec.map φ)
      (m.multiplyDynamics w >>= fun p => .ok (p.add back)) =
        Outcome.carry φ (Vec.map φ) (m.multiplyDynamics w) >>= fun p =>
          .ok (p.add (back.map φ)) :=
    fun back => Outcome.carry_bind fun p => congrArg Except.ok (h.vec_add p back)
  -- without blocks nothing is taken back, and zeros are added
  split_ifs
  · have hzeros : Vec.zeros (w.map φ).format (w.map φ).size =
        (Vec.zeros w.format w.size).map φ := by
      rw [h.vec_zeros, Vec.size_map]
      rfl
    rw [hzeros]
    exact hsum _
  · refine Outcome.carry_bind fun pieces => ?_
    rw [← h.grid_transposeMultiply]
    exact Outcome.carry_bind hsum

/-- What is no vector is refused in the same words. -/
theorem multiplyHessianTensor (hm : m.Carries φ m') (G : List (Mat L)) (w : Tensor L) :
    Outcome.carry φ (Vec.map φ) (m.multiplyHessianTensor G w) =
      m'.multiplyHessianTensor (G.map (Mat.map φ)) (w.map φ) := by
  rw [Model.multiplyHessianTensor, Model.multiplyHessianTensor, Vec.ofTensor?_map]
  cases Vec.ofTensor? w with
  | none =>
    rw [← hm.stack.J]
    rfl
  | some w => exact hm.multiplyHessianOf h G w

end Carries

end Model

end ConvexContact
