import ConvexContact.Proofs.Evaluation.Memory
import ConvexContact.Proofs.Outcome

/-!
# Every quantity follows its trace

The eleven quantities of a model, one after the other in the order of their dependencies: at a
coherent state each of them answers with its value at the velocities and memorizes what its trace
completes (`Model.follows_eval`). Nine of them need no assumption. The blocks of the Hessian, and
with them the dense Hessian, need projections to be consistent (`Model.Consistent`), since the
impulses that they memorize come from a projection that was asked for its Jacobian too.

Proof shape: `Model.Follows.memoized` asks of each computation that it does not complete the
quantity itself. That is a fact about the order of dependencies, so the quantities are numbered
(`Quantity.rank`) and a trace is shown to complete lower ranks only (`Model.below_trace`). The
blocks of the Hessian are the one step that is not a plain composition: their side effect on the
impulses has its own lemmas, `Model.runAt_jointly` and `Model.sound_jointly`.
-/

namespace ConvexContact

variable {K : Type} [Arith K]

/-! ## Consistent projections

A rule given by the caller may answer differently when it is also asked for its Jacobian. Then the
impulses that the blocks of the Hessian leave behind are not those of the impulses themselves. -/

/-- The impulses made together with a Jacobian are those made without. -/
def Projection.Consistent (P : Projection K) : Prop :=
  ∀ y R γ D, P.run y R true = .ok (γ, D) → ∃ D', P.run y R false = .ok (γ, D')

/-- A projection with a name is consistent. -/
theorem Projection.consistent_of_named {P : Projection K} (h : P.isRule = false) :
    P.Consistent := by
  intro y R γ D hrun
  rw [run_of_named h] at hrun ⊢
  rcases hvalue : P.value y R with e | γ'
  · rw [hvalue] at hrun
    cases hrun
  · rw [hvalue] at hrun
    obtain ⟨rfl, -⟩ := Prod.mk.inj (Except.ok.inj hrun)
    exact ⟨none, rfl⟩

/-- All projections of the model are consistent. -/
def Model.Consistent (m : Model K) : Prop := ∀ c ∈ m.stack.members, c.projection.Consistent

theorem Model.consistent_of_named {m : Model K}
    (h : (m.stack.members.all fun c => !c.projection.isRule) = true) : m.Consistent := by
  intro c hc
  exact Projection.consistent_of_named (by simpa using List.all_eq_true.mp h c hc)

namespace Stack

variable {s : Stack K}

/-- One member of the stack: the number of its impulses is checked with and without the Jacobian,
and a missing Jacobian is an error only where one is wanted. -/
theorem projectMember_of_joint {c : StackedConstraint K} (hc : c.projection.Consistent) {y : Vec K}
    {i : Nat} {γ : Vec K} {G : Option (Mat K)}
    (h : s.projectMember y true i c = .ok (γ, G)) :
    s.projectMember y false i c = .ok (γ, none) := by
  simp only [projectMember] at h ⊢
  obtain ⟨⟨γ', D⟩, hrun, h⟩ := Outcome.bind_eq_ok.mp h
  obtain ⟨D', hrun'⟩ := hc _ _ _ _ hrun
  rw [Outcome.bind_of_ok _ hrun']
  simp only at h ⊢
  by_cases hsize : γ'.size ≠ c.equations
  · rw [if_pos hsize] at h
    cases h
  · rw [if_neg hsize] at h ⊢
    -- with the right number of impulses, whichever Jacobian there is, the impulses are `γ'`
    have hγ : γ' = γ := by
      rcases D with - | D
      -- a Jacobian was wanted here, so without one there would have been no answer
      · simp at h
      · simp only [Bool.not_true, Bool.false_eq_true, if_false] at h
        split at h
        · exact congrArg Prod.fst (Except.ok.inj h)
        · cases h
    rw [hγ]
    rfl

/-- The impulses that come with the blocks of the Hessian are those that are computed alone. -/
theorem project_of_joint (hs : ∀ c ∈ s.members, c.projection.Consistent) {y γ : Vec K}
    {G : List (Mat K)} (h : s.projectWithHessian y = .ok (γ, G)) : s.project y = .ok γ := by
  simp only [projectWithHessian, project, projectAll] at h ⊢
  by_cases hsize : y.size ≠ s.equations
  · rw [if_pos hsize] at h
    cases h
  · rw [if_neg hsize] at h ⊢
    obtain ⟨parts, hparts, h⟩ := Outcome.bind_eq_ok.mp h
    obtain ⟨hγ, -⟩ := Prod.mk.inj (Except.ok.inj h)
    have halone : s.members.zipIdx.mapM (fun ci => s.projectMember y false ci.2 ci.1) =
        .ok (parts.map fun part => (part.1, none)) := by
      apply Outcome.mapM_transfer hparts
      intro ci hci part hpart
      exact projectMember_of_joint (hs ci.1 (List.fst_mem_of_mem_zipIdx hci)) hpart
    rw [Outcome.bind_of_ok _ halone, ← hγ]
    simp [Functor.map, Except.map, pure, Except.pure, Function.comp_def]

end Stack

/-! ## The order of the quantities

A miss stores the value of its own quantity last, which is harmless if the computation has not
completed it already. It has not, since completions are of lower rank. -/

/-- The place of a quantity in the order of dependencies. -/
def Quantity.rank : Quantity → Nat
  | constraintVelocities => 0
  | momentum => 1
  | momentumGain => 2
  | momentumCost => 3
  | unprojectedImpulses => 4
  | impulses => 5
  | constraintsHessian => 6
  | regularizerCost => 7
  | cost => 8
  | costGradient => 9
  | hessian => 10

namespace Traced

variable {α β : Type} {n : Nat}

/-- Only quantities of lower rank are completed. -/
def Below (n : Nat) (t : Traced K α) : Prop := ∀ q ∈ t.completed, q.rank < n

omit [Arith K] in
/-- Completing low ranks only is weaker for a higher bound. -/
theorem Below.mono {k : Nat} {t : Traced K α} (h : t.Below n) (hk : n ≤ k) : t.Below k :=
  fun q hq => Nat.lt_of_lt_of_le (h q hq) hk

omit [Arith K] in
/-- A step that only reports an outcome completes nothing. -/
theorem below_ofOutcome (x : Except (Error K) α) : (ofOutcome x).Below n :=
  fun _ hq => absurd hq (by simp)

omit [Arith K] in
/-- Two steps complete what the first one does and, if it has a value, what the second one does. -/
theorem Below.andThen {t : Traced K α} {f : α → Traced K β} (ht : t.Below n)
    (hf : ∀ a, (f a).Below n) : (t.andThen f).Below n := by
  cases h : t.outcome with
  | error e => simpa only [Below, andThen_of_error f h] using ht
  | ok a =>
    rw [andThen_of_ok f h]
    intro q hq
    rcases List.mem_append.mp hq with hq | hq
    · exact ht q hq
    · exact hf a q hq

omit [Arith K] in
/-- Completing a quantity raises the bound to just above its rank. -/
theorem Below.completing {t : Traced K α} {q : Quantity} (ht : t.Below q.rank) :
    (t.completing q).Below (q.rank + 1) := by
  cases h : t.outcome with
  | error e =>
    rw [completing_of_error q h]
    exact ht.mono (by omega)
  | ok a =>
    intro r hr
    rw [completed_completing_of_ok q h] at hr
    rcases List.mem_append.mp hr with hr | hr
    · exact Nat.lt_succ_of_lt (ht r hr)
    · obtain rfl : r = q := by simpa using hr
      exact Nat.lt_succ_self _

omit [Arith K] in
/-- What completes lower ranks only has not completed the quantity itself. -/
theorem Below.notMem {t : Traced K α} {q : Quantity} (ht : t.Below q.rank) : q ∉ t.completed :=
  fun hq => Nat.lt_irrefl _ (ht q hq)

end Traced

namespace Model

open Traced

variable {m : Model K} {v : Vec K}

/-- A quantity completes nothing of higher rank than its own. -/
theorem below_trace (m : Model K) (v : Vec K) (q : Quantity) :
    (m.trace v q).Below (q.rank + 1) := by
  -- one bound for each quantity, in the order of the dependencies
  have hvc : (m.traceConstraintVelocities v).Below 1 :=
    (below_ofOutcome _).completing (q := .constraintVelocities)
  have hmomentum : (m.traceMomentum v).Below 2 := (below_ofOutcome _).completing (q := .momentum)
  have hgain : (m.traceMomentumGain v).Below 3 :=
    (hmomentum.andThen fun _ => below_ofOutcome _).completing (q := .momentumGain)
  have hmomentumCost : (m.traceMomentumCost v).Below 4 := by
    refine Below.completing (q := .momentumCost) ((below_ofOutcome _).andThen fun d => ?_)
    exact hgain.andThen fun _ => below_ofOutcome _
  have hunprojected : (m.traceUnprojectedImpulses v).Below 5 := by
    refine Below.completing (q := .unprojectedImpulses) ?_
    exact (hvc.mono (by decide)).andThen fun _ => below_ofOutcome _
  have himpulses : (m.traceImpulses v).Below 6 :=
    (hunprojected.andThen fun _ => below_ofOutcome _).completing (q := .impulses)
  have hjoint : ∀ y, (m.traceJointly y).Below 6 := fun y =>
    ((below_ofOutcome _).completing (q := .impulses)).andThen fun _ => below_ofOutcome _
  have hblocks : (m.traceConstraintsHessian v).Below 7 := by
    refine Below.completing (q := .constraintsHessian) ?_
    exact (hunprojected.mono (by decide)).andThen hjoint
  have hregularizer : (m.traceRegularizerCost v).Below 8 := by
    refine Below.completing (q := .regularizerCost) ?_
    exact (himpulses.mono (by decide)).andThen fun _ => below_ofOutcome _
  have hcost : (m.traceCost v).Below 9 := by
    refine Below.completing (q := .cost) ((hmomentumCost.mono (by decide)).andThen fun _ => ?_)
    exact hregularizer.andThen fun _ => below_ofOutcome _
  have hgradient : (m.traceCostGradient v).Below 10 := by
    refine Below.completing (q := .costGradient) ((hgain.mono (by decide)).andThen fun _ => ?_)
    exact (himpulses.mono (by decide)).andThen fun _ => below_ofOutcome _
  have hhessian : (m.traceHessian v).Below 11 := by
    refine Below.completing (q := .hessian) ?_
    exact (hblocks.mono (by decide)).andThen fun _ => below_ofOutcome _
  cases q with
  | constraintVelocities => exact hvc
  | momentum => exact hmomentum
  | momentumGain => exact hgain
  | momentumCost => exact hmomentumCost
  | unprojectedImpulses => exact hunprojected
  | impulses => exact himpulses
  | constraintsHessian => exact hblocks
  | regularizerCost => exact hregularizer
  | cost => exact hcost
  | costGradient => exact hgradient
  | hessian => exact hhessian

/-- A quantity of lower rank completes nothing of a given rank. -/
theorem below_of_lt {q : Quantity} {n : Nat} (h : q.rank < n) : (m.trace v q).Below n :=
  (below_trace m v q).mono h

/-- A quantity that has a value completes itself. -/
theorem mem_completedAt_self {q : Quantity} {x : Quantity.Value K q} (h : m.valueAt v q = .ok x) :
    q ∈ m.completedAt v q := by
  have hlast : ∀ {t : Traced K (Quantity.Value K q)}, m.trace v q = t.completing q →
      q ∈ m.completedAt v q := by
    intro t ht
    rw [valueAt, ht, outcome_completing] at h
    rw [completedAt, ht, completed_completing_of_ok q h]
    simp
  cases q <;> exact hlast rfl

/-! ## The quantities -/

/-- The constraint velocities are one product, with nothing memorized on the way. -/
theorem follows_constraintVelocities :
    m.Follows v m.evalConstraintVelocities (m.trace v .constraintVelocities) :=
  (follows_lift (m.stack.J.multiply v)).memoized rfl (by simp)

theorem follows_momentum : m.Follows v m.evalMomentum (m.trace v .momentum) :=
  (follows_lift (m.multiplyDynamics v)).memoized rfl (by simp)

/-- The gain goes on from the momentum, which it completes first. -/
theorem follows_momentumGain : m.Follows v m.evalMomentumGain (m.trace v .momentumGain) := by
  refine Follows.memoized (follows_momentum.bind fun p _ => follows_lift _) rfl ?_
  exact ((below_of_lt (by decide)).andThen fun _ => below_ofOutcome _).notMem

/-- The difference of the velocities comes before the gain, so a length that does not fit is
reported before anything is memorized. -/
theorem follows_momentumCost : m.Follows v m.evalMomentumCost (m.trace v .momentumCost) := by
  refine Follows.memoized (t := (ofOutcome (v.difference m.vStar)).andThen fun d =>
    (m.traceMomentumGain v).andThen fun gain => ofOutcome (.ok (momentumCostOf d gain))) ?_ rfl ?_
  · apply (follows_lift _).bind
    intro d _
    exact follows_momentumGain.bind fun gain _ => follows_pure _
  · refine Below.notMem ((below_ofOutcome _).andThen fun d => ?_)
    exact (below_of_lt (q := .momentumGain) (by decide)).andThen fun _ => below_ofOutcome _

theorem follows_unprojectedImpulses :
    m.Follows v m.evalUnprojectedImpulses (m.trace v .unprojectedImpulses) := by
  refine Follows.memoized (follows_constraintVelocities.bind fun vc _ => follows_lift _) rfl ?_
  exact ((below_of_lt (by decide)).andThen fun _ => below_ofOutcome _).notMem

theorem follows_impulses : m.Follows v m.evalImpulses (m.trace v .impulses) := by
  refine Follows.memoized (follows_unprojectedImpulses.bind fun y _ => follows_lift _) rfl ?_
  exact ((below_of_lt (by decide)).andThen fun _ => below_ofOutcome _).notMem

theorem follows_regularizerCost :
    m.Follows v m.evalRegularizerCost (m.trace v .regularizerCost) := by
  refine Follows.memoized (follows_impulses.bind fun γ _ => follows_pure _) rfl ?_
  exact ((below_of_lt (by decide)).andThen fun _ => below_ofOutcome _).notMem

/-- The cost asks for its two terms in turn, and the second one may fail when the first one is
stored. -/
theorem follows_cost : m.Follows v m.evalCost (m.trace v .cost) := by
  refine Follows.memoized (t := (m.traceMomentumCost v).andThen fun momentum =>
    (m.traceRegularizerCost v).andThen fun regularizer =>
      ofOutcome (.ok (momentum.add regularizer))) ?_ rfl ?_
  · apply follows_momentumCost.bind
    intro momentum _
    exact follows_regularizerCost.bind fun regularizer _ => follows_pure _
  · refine Below.notMem ((below_of_lt (q := .momentumCost) (by decide)).andThen fun _ => ?_)
    exact (below_of_lt (q := .regularizerCost) (by decide)).andThen fun _ => below_ofOutcome _

theorem follows_costGradient : m.Follows v m.evalCostGradient (m.trace v .costGradient) := by
  refine Follows.memoized (t := (m.traceMomentumGain v).andThen fun gain =>
    (m.traceImpulses v).andThen fun γ => ofOutcome (m.gradientOf gain γ)) ?_ rfl ?_
  · apply follows_momentumGain.bind
    intro gain _
    exact follows_impulses.bind fun γ _ => follows_lift _
  · refine Below.notMem ((below_of_lt (q := .momentumGain) (by decide)).andThen fun _ => ?_)
    exact (below_of_lt (q := .impulses) (by decide)).andThen fun _ => below_ofOutcome _

theorem traceJointly_of_error {y : Vec K} {e : Error K}
    (h : m.stack.projectWithHessian y = .error e) : m.traceJointly y = ⟨.error e, []⟩ := by
  rw [traceJointly, h]
  rfl

/-- With an answer the impulses are completed, before anything is said of the blocks. -/
theorem traceJointly_of_ok {y γ : Vec K} {G : List (Mat K)}
    (h : m.stack.projectWithHessian y = .ok (γ, G)) : m.traceJointly y = ⟨.ok G, [.impulses]⟩ := by
  rw [traceJointly, h]
  rfl

/-- The side effect of the blocks of the Hessian: impulses that are out of date are stored, and
since projections are consistent that is learning them. -/
theorem runAt_jointly (hm : m.Consistent) {y : Vec K}
    (hy : m.valueAt v .unprojectedImpulses = .ok y) (s : ModelState K (Quantity.Value K)) :
    (do
      let (γ, G) ← Evaluation.lift (m.stack.projectWithHessian y)
      modify fun s => if (s.memo.get .impulses).valid then s else s.store .impulses γ
      return G : Evaluation K (List (Mat K))).runAt s =
      ((m.traceJointly y).outcome, m.learn v (m.traceJointly y).completed s) := by
  cases hjoint : m.stack.projectWithHessian y with
  | error e =>
    rw [traceJointly_of_error hjoint, learn_nil]
    rfl
  | ok answer =>
    obtain ⟨γ, G⟩ := answer
    -- the impulses stored on the side are the value of the impulses, by consistency
    have hγ : m.valueAt v .impulses = .ok γ := by
      rw [valueAt_impulses, hy]
      exact Stack.project_of_joint hm hjoint
    have hstore : (if (s.memo.get .impulses).valid then s else s.store .impulses γ) =
        m.learn v [.impulses] s := by
      cases hvalid : (s.memo.get .impulses).valid with
      | true =>
        rw [if_pos rfl, learn_of_valid]
        intro q hq
        obtain rfl : q = .impulses := by simpa using hq
        exact hvalid
      | false =>
        rw [if_neg (by simp), learn_singleton hγ hvalid]
    rw [traceJointly_of_ok hjoint, ← hstore]
    rfl

/-- What the blocks of the Hessian complete before themselves is what the impulses complete, up to
the point where the two part. -/
theorem sound_jointly (hm : m.Consistent) :
    m.Sound v ((m.traceUnprojectedImpulses v).andThen m.traceJointly).completed := by
  have hunprojected : m.Sound v (m.traceUnprojectedImpulses v).completed :=
    follows_unprojectedImpulses.sound
  cases hy : (m.traceUnprojectedImpulses v).outcome with
  | error e =>
    rw [andThen_of_error _ hy]
    exact hunprojected
  | ok y =>
    rw [andThen_of_ok _ hy]
    cases hjoint : m.stack.projectWithHessian y with
    | error e =>
      rw [traceJointly_of_error hjoint]
      exact hunprojected.append Sound.nil
    | ok answer =>
      obtain ⟨γ, G⟩ := answer
      have himpulses : m.Sound v (m.traceImpulses v).completed := follows_impulses.sound
      rw [traceImpulses, andThen_of_ok _ hy, Stack.project_of_joint hm hjoint] at himpulses
      rw [traceJointly_of_ok hjoint]
      simpa [completing, ofOutcome] using himpulses

/-- The blocks and the impulses they bring. What both complete is sound together only, as the
impulses depend on what the first step completes. -/
theorem follows_constraintsHessian (hm : m.Consistent) :
    m.Follows v m.evalConstraintsHessian (m.trace v .constraintsHessian) := by
  refine Follows.memoized (t := (m.traceUnprojectedImpulses v).andThen m.traceJointly) ?_ rfl ?_
  · apply follows_unprojectedImpulses.bind_of_sound (sound_jointly hm)
    intro y hy s _
    exact runAt_jointly hm hy s
  · refine Below.notMem ((below_of_lt (q := .unprojectedImpulses) (by decide)).andThen fun y => ?_)
    refine Below.andThen ?_ fun _ => below_ofOutcome _
    exact Below.completing (q := .impulses) (below_ofOutcome _)

theorem follows_hessian (hm : m.Consistent) : m.Follows v m.evalHessian (m.trace v .hessian) := by
  refine Follows.memoized ((follows_constraintsHessian hm).bind fun G _ => follows_lift _) rfl ?_
  exact ((below_of_lt (by decide)).andThen fun _ => below_ofOutcome _).notMem

/-- **Every quantity follows its trace.** At a state that is coherent with `v`, a quantity answers
with its value at `v`, and memorizes what is completed when it is computed from `v` alone. -/
theorem follows_eval (hm : m.Consistent) (q : Quantity) : m.Follows v (m.eval q) (m.trace v q) := by
  cases q with
  | constraintVelocities => exact follows_constraintVelocities
  | momentum => exact follows_momentum
  | momentumGain => exact follows_momentumGain
  | momentumCost => exact follows_momentumCost
  | unprojectedImpulses => exact follows_unprojectedImpulses
  | impulses => exact follows_impulses
  | constraintsHessian => exact follows_constraintsHessian hm
  | regularizerCost => exact follows_regularizerCost
  | cost => exact follows_cost
  | costGradient => exact follows_costGradient
  | hessian => exact follows_hessian hm

end Model

end ConvexContact
