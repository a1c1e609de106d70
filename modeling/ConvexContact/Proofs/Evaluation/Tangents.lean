import ConvexContact.Proofs.Evaluation.Transcript
import ConvexContact.Proofs.Model.Morphism

/-!
# Tangents do not change values

A model evaluated on dual numbers goes through the same motions as the plain model on the values: it
reads and fills the same cells, takes the same branches, fails at the same place for the same
reason, and every number it computes has the value that the plain model computes. This is a
simulation between two machines. A state on dual numbers is related to its image under a morphism
(`ModelState.map`), and an evaluation is carried to another when it answers with the image at the
image, and leaves the image (`Evaluation.Carries`). `Carries` is proved once for each way to build
an evaluation, then for every quantity, for every command, and for runs of commands.

Proof shape: the relation is a function from states to states, so the simulation is an equation and
composes by rewriting (`Evaluation.Carries.bind`). A memorized cell is the one place where states
are looked at (`Model.Carries.memoized`): the image of a valid cell is valid, so both sides hit or
both miss. What is special about dual numbers enters at the end only, with `Dual.hom_primal`.

Main statement: `Model.tangents_change_no_values`.
-/

namespace ConvexContact

variable {L K α β γ δ : Type}

/-! ## Images

The image of everything that an evaluation reads or answers, and one equation for each operation on
states. A state keeps its valid flags and its counters under the morphism, and only its numbers are
replaced. -/

/-- The image of a quantity, entry by entry. -/
def Quantity.mapValue (φ : L → K) : (q : Quantity) → Value L q → Value K q
  | .constraintVelocities, v | .momentum, v | .momentumGain, v => Vec.map φ v
  | .unprojectedImpulses, v | .impulses, v | .costGradient, v => Vec.map φ v
  | .momentumCost, x | .regularizerCost, x | .cost, x => Scalar.map φ x
  | .constraintsHessian, G => G.map (Mat.map φ)
  | .hessian, A => A.map φ

/-- The cell with the image of its value. -/
def MemoCell.map (f : α → β) (cell : MemoCell α) : MemoCell β :=
  ⟨cell.value.map f, cell.valid, cell.updates⟩

/-- The state with the images of its velocities and of what it has memorized. -/
def ModelState.map (φ : L → K) (s : ModelState L (Quantity.Value L)) :
    ModelState K (Quantity.Value K) :=
  ⟨s.size, s.velocities.map (Vec.map φ),
    MemoTable.ofFn fun q => (s.memo.get q).map (q.mapValue φ)⟩

/-- The image of what a caller hands over. -/
def Given.map (φ : L → K) : Given L → Given K
  | .tensor t => .tensor (t.map φ)
  | .nested t => .nested (t.map φ)

/-- The command about the images. -/
def Command.map (φ : L → K) : Command L → Command K
  | setVelocities g => setVelocities (g.map φ)
  | velocities => velocities
  | eval q => eval q
  | multiplyHessian w => multiplyHessian (w.map φ)
  | summarize => summarize

/-- The image of a summary. -/
def Summary.map (φ : L → K) (s : Summary L) : Summary K where
  sizes := s.sizes
  momentum := s.momentum.map φ
  regularizer := s.regularizer.map φ
  total := s.total.map φ
  gradientNorm := s.gradientNorm.map φ
  impulseNorm := s.impulseNorm.map φ
  impulseMax := s.impulseMax.map φ
  delassus := s.delassus.map φ

/-- The image of an answer. -/
def Command.mapAnswer (φ : L → K) : (c : Command L) → c.Answer → (c.map φ).Answer
  | setVelocities _, x => x
  | velocities, v => Vec.map φ v
  | eval q, x => q.mapValue φ x
  | multiplyHessian _, v => Vec.map φ v
  | summarize, x => Summary.map φ x

/-- The reply with the images of the command and of the answer. -/
def Reply.map (φ : L → K) (x : Reply L) : Reply K :=
  ⟨x.command.map φ, Outcome.carry φ (x.command.mapAnswer φ) x.answer⟩

namespace MemoCell

/-- Both cells are read, or neither is. -/
theorem current?_map (f : α → β) (cell : MemoCell α) :
    (cell.map f).current? = cell.current?.map f := by
  unfold current? map
  cases cell.valid <;> rfl

end MemoCell

namespace ModelState

variable (φ : L → K) (s : ModelState L (Quantity.Value L))

/-- The cells of the image are the images of the cells. -/
@[simp] theorem get_map (q : Quantity) :
    (s.map φ).memo.get q = (s.memo.get q).map (q.mapValue φ) :=
  MemoTable.get_ofFn _ q

/-- The image of a state after a value is stored has the image of the value stored. -/
theorem map_store (q : Quantity) (x : Quantity.Value L q) :
    (s.store q x).map φ = (s.map φ).store q (q.mapValue φ x) := by
  refine ext_get rfl rfl fun r => ?_
  by_cases hr : r = q
  · subst hr
    simp only [get_map, store, MemoTable.set, MemoTable.get_put_self]
    rfl
  · simp [store, MemoTable.set, MemoTable.get_put_of_ne, hr]

/-- Velocities are replaced alike, and everything goes out of date on both sides. -/
theorem map_replace (v : Vec L) : (s.replace v).map φ = (s.map φ).replace (v.map φ) := by
  refine ext_get rfl rfl fun r => ?_
  rw [get_map]
  simp only [replace, MemoTable.get_invalidate, get_map]
  rfl

/-- A state without values is its own image. -/
theorem map_empty (n : Int) :
    (empty n : ModelState L (Quantity.Value L)).map φ = empty n := by
  refine ext_get rfl rfl fun r => ?_
  rw [get_map]
  simp only [empty, MemoTable.empty, MemoTable.get_ofFn]
  rfl

/-- The image of a state has the same cells up to date. -/
theorem validFlags_map : (s.map φ).memo.validFlags = s.memo.validFlags := by
  simp [MemoTable.validFlags, MemoCell.map]

/-- The image of a state has been computed as often. -/
theorem updateCounts_map : (s.map φ).memo.updateCounts = s.memo.updateCounts := by
  simp [MemoTable.updateCounts, MemoCell.map]

/-- Velocities are set, or refused, alike. -/
theorem setVelocities_map (g : Given L) :
    (s.map φ).setVelocities (g.map φ) =
      Outcome.carry φ (ModelState.map φ) (s.setVelocities g) := by
  cases g with
  | nested t => rfl
  | tensor t =>
    simp only [setVelocities, Given.map, Vec.ofTensor?_map]
    cases Vec.ofTensor? t with
    | none => rfl
    | some v =>
      simp only [Option.map_some, Vec.size_map]
      change (if (v.size : Int) ≠ s.size then _ else _) = Outcome.carry φ _ (if _ then _ else _)
      split_ifs
      · rfl
      · exact congrArg Except.ok (map_replace φ s v).symm

end ModelState

/-! ## Evaluations

The image of a state is a state of the plain model, so the two runs are compared at one pair of
states. After a step they are at such a pair again. -/

namespace Evaluation

variable {φ : L → K} {f : α → β} {g : γ → δ}

/-- At the image of a state the second evaluation answers with the image, and leaves the image. -/
def Carries (φ : L → K) (f : α → β) (e : Evaluation L α) (e' : Evaluation K β) : Prop :=
  ∀ s, e'.runAt (s.map φ) = (Outcome.carry φ f (e.runAt s).1, (e.runAt s).2.map φ)

/-- An outcome is carried to its image. -/
theorem Carries.lift {x : Except (Error L) α} {x' : Except (Error K) β}
    (h : Outcome.carry φ f x = x') : Carries φ f (Evaluation.lift x) (Evaluation.lift x') :=
  fun s => congrArg (·, s.map φ) h.symm

theorem Carries.pure {a : α} {b : β} (h : f a = b) :
    Carries φ f (Pure.pure a : Evaluation L α) (Pure.pure b : Evaluation K β) :=
  fun s => congrArg (fun b => (Except.ok b, s.map φ)) h.symm

theorem Carries.get : Carries φ (ModelState.map φ) get get := fun _ => rfl

theorem Carries.set {s : ModelState L (Quantity.Value L)} :
    Carries φ id (MonadStateOf.set s : Evaluation L PUnit)
      (MonadStateOf.set (s.map φ) : Evaluation K PUnit) := fun _ => rfl

/-- States are changed alike when the change commutes with the image. -/
theorem Carries.modifyState {F : ModelState L (Quantity.Value L) → ModelState L (Quantity.Value L)}
    {G : ModelState K (Quantity.Value K) → ModelState K (Quantity.Value K)}
    (h : ∀ s, (F s).map φ = G (s.map φ)) :
    Carries φ id (modify F : Evaluation L PUnit) (modify G : Evaluation K PUnit) :=
  fun s => congrArg (Except.ok PUnit.unit, ·) (h s).symm

/-- Where the first step fails both runs stop with the image of the error; otherwise the second step
goes on from the image of the answer. -/
theorem Carries.bind {e : Evaluation L α} {e' : Evaluation K β} {k : α → Evaluation L γ}
    {k' : β → Evaluation K δ} (he : Carries φ f e e') (hk : ∀ a, Carries φ g (k a) (k' (f a))) :
    Carries φ g (e >>= k) (e' >>= k') := by
  intro s
  have hfirst := he s
  rcases hrun : e.runAt s with ⟨c | a, t⟩
  · rw [hrun] at hfirst
    rw [runAt_bind_of_error k hrun, runAt_bind_of_error k' hfirst]
    rfl
  · rw [hrun] at hfirst
    rw [runAt_bind_of_ok k hrun, runAt_bind_of_ok k' hfirst]
    exact hk a t

end Evaluation

/-! ## Quantities -/

namespace Model.Carries

variable [Arith L] [Arith K] {φ : L → K} {m : Model L} {m' : Model K}

/-- Sizes are whole numbers of the model, which the image leaves as they are. -/
theorem checkSize (hm : m.Carries φ m') (s : ModelState L (Quantity.Value L)) :
    Outcome.carry φ id (m.checkSize s) = m'.checkSize (s.map φ) := by
  rw [Model.checkSize, Model.checkSize, hm.velocityCount]
  change Outcome.carry φ id (if _ then _ else _) = if s.size ≠ m.velocityCount then _ else _
  split_ifs <;> rfl

/-- Velocities are found, or missing, on both sides. -/
theorem velocitiesHere (hm : m.Carries φ m') :
    Evaluation.Carries φ (Vec.map φ) m.velocitiesHere m'.velocitiesHere := by
  refine Evaluation.Carries.get.bind fun s => .lift ?_
  rw [velocitiesOf, velocitiesOf, ← hm.checkSize]
  refine Outcome.carry_bind fun _ => ?_
  obtain ⟨size, velocities, memo⟩ := s
  cases velocities with
  | none => rfl
  | some v => rfl

theorem setVelocities (hm : m.Carries φ m') (g : Given L) :
    Evaluation.Carries φ id (m.setVelocities g) (m'.setVelocities (g.map φ)) := by
  refine Evaluation.Carries.get.bind fun s => ?_
  refine (Evaluation.Carries.lift (hm.checkSize s)).bind fun _ => ?_
  exact (Evaluation.Carries.lift (ModelState.setVelocities_map φ s g).symm).bind fun t => .set

/-- A hit answers with the image of what the cell holds, a miss stores the image of what has been
computed. -/
theorem memoized (hm : m.Carries φ m') {q : Quantity}
    {compute : Vec L → Evaluation L (Quantity.Value L q)}
    {compute' : Vec K → Evaluation K (Quantity.Value K q)}
    (h : ∀ v, Evaluation.Carries φ (q.mapValue φ) (compute v) (compute' (v.map φ))) :
    Evaluation.Carries φ (q.mapValue φ) (m.memoized q compute) (m'.memoized q compute') := by
  refine hm.velocitiesHere.bind fun v => Evaluation.Carries.get.bind fun s => ?_
  rw [ModelState.get_map, MemoCell.current?_map]
  cases (s.memo.get q).current? with
  | some x => exact .pure rfl
  | none =>
    refine (h v).bind fun x => ?_
    exact (Evaluation.Carries.modifyState fun t => t.map_store φ q x).bind fun _ => .pure rfl

variable (h : Arith.Hom φ)
include h

theorem evalConstraintVelocities (hm : m.Carries φ m') : Evaluation.Carries φ (Vec.map φ)
    m.evalConstraintVelocities m'.evalConstraintVelocities := by
  refine hm.memoized fun v => .lift ?_
  rw [← hm.stack.J]
  exact h.grid_multiply m.stack.J v

theorem evalMomentum (hm : m.Carries φ m') :
    Evaluation.Carries φ (Vec.map φ) m.evalMomentum m'.evalMomentum :=
  hm.memoized fun v => .lift (hm.multiplyDynamics h v)

theorem evalMomentumGain (hm : m.Carries φ m') :
    Evaluation.Carries φ (Vec.map φ) m.evalMomentumGain m'.evalMomentumGain := by
  refine hm.memoized fun _ => (hm.evalMomentum h).bind fun p => .lift ?_
  rw [← hm.pStar]
  exact h.vec_difference p m.pStar

theorem evalMomentumCost (hm : m.Carries φ m') :
    Evaluation.Carries φ (Scalar.map φ) m.evalMomentumCost m'.evalMomentumCost := by
  refine hm.memoized fun v => ?_
  have hfirst : Evaluation.Carries φ (Vec.map φ) (Evaluation.lift (v.difference m.vStar))
      (Evaluation.lift ((v.map φ).difference m'.vStar)) := by
    rw [← hm.vStar]
    exact .lift (h.vec_difference v m.vStar)
  refine hfirst.bind fun d => (hm.evalMomentumGain h).bind fun gain => ?_
  exact .pure (momentumCostOf h d gain)

theorem evalUnprojectedImpulses (hm : m.Carries φ m') : Evaluation.Carries φ (Vec.map φ)
    m.evalUnprojectedImpulses m'.evalUnprojectedImpulses :=
  hm.memoized fun _ => (hm.evalConstraintVelocities h).bind fun vc =>
    .lift (hm.stack.unproject h vc)

theorem evalImpulses (hm : m.Carries φ m') :
    Evaluation.Carries φ (Vec.map φ) m.evalImpulses m'.evalImpulses := by
  refine hm.memoized fun _ => (hm.evalUnprojectedImpulses h).bind fun y => .lift ?_
  rw [Stack.project, Stack.project, ← hm.stack.projectAll h]
  exact Outcome.carry_map fun _ => rfl

/-- The impulses that come with the blocks of the Hessian are stored alike, too. -/
theorem evalConstraintsHessian (hm : m.Carries φ m') :
    Evaluation.Carries φ (List.map (Mat.map φ))
      m.evalConstraintsHessian m'.evalConstraintsHessian := by
  refine hm.memoized fun _ => (hm.evalUnprojectedImpulses h).bind fun y => ?_
  refine (Evaluation.Carries.lift (hm.stack.projectAll h y true)).bind fun answer => ?_
  refine (Evaluation.Carries.modifyState fun s => ?_).bind fun _ => .pure rfl
  rw [ModelState.get_map]
  change ModelState.map φ (if (s.memo.get .impulses).valid = true then _ else _) =
    if (s.memo.get .impulses).valid = true then _ else _
  split_ifs
  · rfl
  · exact s.map_store φ .impulses answer.1

theorem evalRegularizerCost (hm : m.Carries φ m') :
    Evaluation.Carries φ (Scalar.map φ) m.evalRegularizerCost m'.evalRegularizerCost :=
  hm.memoized fun _ => (hm.evalImpulses h).bind fun γ => .pure (hm.regularizerCostOf h γ)

theorem evalCost (hm : m.Carries φ m') :
    Evaluation.Carries φ (Scalar.map φ) m.evalCost m'.evalCost :=
  hm.memoized fun _ => (hm.evalMomentumCost h).bind fun momentum =>
    (hm.evalRegularizerCost h).bind fun regularizer => .pure (h.scalar_add momentum regularizer)

theorem evalCostGradient (hm : m.Carries φ m') :
    Evaluation.Carries φ (Vec.map φ) m.evalCostGradient m'.evalCostGradient :=
  hm.memoized fun _ => (hm.evalMomentumGain h).bind fun gain =>
    (hm.evalImpulses h).bind fun γ => .lift (hm.gradientOf h gain γ)

theorem evalHessian (hm : m.Carries φ m') :
    Evaluation.Carries φ (Mat.map φ) m.evalHessian m'.evalHessian :=
  hm.memoized fun _ => (hm.evalConstraintsHessian h).bind fun G => .lift (hm.hessianOf h G)

/-- **Quantities.** Every quantity is carried to the same quantity of the other model. -/
theorem eval (hm : m.Carries φ m') (q : Quantity) :
    Evaluation.Carries φ (q.mapValue φ) (m.eval q) (m'.eval q) := by
  cases q with
  | constraintVelocities => exact hm.evalConstraintVelocities h
  | momentum => exact hm.evalMomentum h
  | momentumGain => exact hm.evalMomentumGain h
  | momentumCost => exact hm.evalMomentumCost h
  | unprojectedImpulses => exact hm.evalUnprojectedImpulses h
  | impulses => exact hm.evalImpulses h
  | constraintsHessian => exact hm.evalConstraintsHessian h
  | regularizerCost => exact hm.evalRegularizerCost h
  | cost => exact hm.evalCost h
  | costGradient => exact hm.evalCostGradient h
  | hessian => exact hm.evalHessian h

/-! ## Commands -/

theorem multiplyHessian (hm : m.Carries φ m') (w : Given L) : Evaluation.Carries φ (Vec.map φ)
    (m.multiplyHessian w) (m'.multiplyHessian (w.map φ)) := by
  refine (hm.evalConstraintsHessian h).bind fun G => ?_
  have hw : Outcome.carry φ (Tensor.map φ) w.asTensor = (w.map φ).asTensor := by
    cases w <;> rfl
  exact (Evaluation.Carries.lift hw).bind fun w => .lift (hm.multiplyHessianTensor h G w)

/-- A summary asks for the same quantities in the same order; its norms are roots, which the
morphism carries along. -/
theorem summarize (hm : m.Carries φ m') :
    Evaluation.Carries φ (Summary.map φ) m.summarize m'.summarize := by
  refine (hm.evalImpulses h).bind fun γ => ?_
  refine (hm.evalCostGradient h).bind fun gradient => ?_
  refine (hm.evalMomentumCost h).bind fun momentum => ?_
  refine (hm.evalRegularizerCost h).bind fun regularizer => ?_
  refine (hm.evalCost h).bind fun total => .pure ?_
  have hzero : (⟨gradient.format, 0⟩ : Scalar L).map φ = ⟨gradient.format, 0⟩ :=
    congrArg (Scalar.mk gradient.format) h.zero
  simp only [Summary.map, hm.modelSizes, hm.delassus, h.vec_norm, h.vec_maxAbs,
    apply_ite (Scalar.map φ), hzero, Vec.size_map, Vec.format_map]

/-- **Commands.** Every command is carried to its image. -/
theorem perform (hm : m.Carries φ m') (c : Command L) :
    Evaluation.Carries φ (c.mapAnswer φ) (m.perform c) (m'.perform (c.map φ)) := by
  cases c with
  | setVelocities g => exact hm.setVelocities g
  | velocities => exact hm.velocitiesHere
  | eval q => exact hm.eval h q
  | multiplyHessian w => exact hm.multiplyHessian h w
  | summarize => exact hm.summarize h

/-- **Runs.** The replies to a run of commands, and the state it leaves, are carried along. -/
theorem performAll (hm : m.Carries φ m') (cs : List (Command L))
    (s : ModelState L (Quantity.Value L)) :
    m'.performAll (s.map φ) (cs.map (Command.map φ)) =
      ((m.performAll s cs).1.map (Reply.map φ), (m.performAll s cs).2.map φ) := by
  induction cs generalizing s with
  | nil => rfl
  | cons c cs ih =>
    have hrun := hm.perform h c s
    have hreply : m'.replyTo (s.map φ) (c.map φ) = (m.replyTo s c).map φ :=
      replyTo_of_runAt hrun
    have hafter : m'.after (s.map φ) (c.map φ) = (m.after s c).map φ := after_of_runAt hrun
    rw [List.map_cons, performAll_cons, performAll_cons, hreply, hafter, ih]
    rfl

end Model.Carries

/-! ## Dual numbers -/

/-- Giving a tensor tangents leaves its values as they are. -/
theorem Tensor.map_primal_of_dual [Arith K] {v t : Tensor K} {d : Tensor (Dual K)}
    (h : Tensor.dual v t = .ok d) : d.map Dual.primal = v := by
  unfold dual at h
  split_ifs at h with hfloating hshape hformat
  obtain rfl := Except.ok.inj h
  have hlength : v.data.length = t.data.length := by
    rw [v.length_data, t.length_data, hshape]
  rcases v with ⟨format, shape, data, hdata⟩
  -- the values of a list of pairs are its first components, as both lists are as long
  simp only [map, List.map_zipWith, Dual.primal_varying, mk.injEq, true_and]
  rw [← List.map_uncurry_zip_eq_zipWith]
  exact List.map_fst_zip (Nat.le_of_eq hlength)

/-- What a run on one kind of numbers leaves behind, and the same run on images of these numbers:
replies and memorized values are images, and successes, flags and counters are the same. -/
structure Shadows (φ : L → K) (x : List (Reply L) × ModelState L (Quantity.Value L))
    (y : List (Reply K) × ModelState K (Quantity.Value K)) : Prop where
  replies : y.1 = x.1.map (Reply.map φ)
  successes : y.1.map (·.answer.isOk) = x.1.map (·.answer.isOk)
  velocities : y.2.velocities = x.2.velocities.map (Vec.map φ)
  values : ∀ q, (y.2.memo.get q).value = (x.2.memo.get q).value.map (q.mapValue φ)
  validFlags : y.2.memo.validFlags = x.2.memo.validFlags
  updateCounts : y.2.memo.updateCounts = x.2.memo.updateCounts

namespace Model

/-- A run of commands on one model shadows the run on a model that is carried to it. -/
theorem Carries.shadows [Arith L] [Arith K] {φ : L → K} {m : Model L} {m' : Model K}
    (hm : m.Carries φ m') (h : Arith.Hom φ) (cs : List (Command L))
    (s : ModelState L (Quantity.Value L)) :
    Shadows φ (m.performAll s cs) (m'.performAll (s.map φ) (cs.map (Command.map φ))) := by
  rw [hm.performAll h]
  refine ⟨rfl, ?_, rfl, fun q => ?_, ModelState.validFlags_map φ _, ModelState.updateCounts_map φ _⟩
  · simp [Reply.map, Function.comp_def]
  · rw [ModelState.get_map]
    rfl

variable [Arith K]

/-- The two models start from states that are images of each other. -/
theorem makeState_toDual (m : Model K) : m.toDual.makeState.map Dual.primal = m.makeState := by
  rw [makeState, ModelState.map_empty, velocityCount_toDual, makeState]

/-- **Tangents do not change values.** Where plain numbers count nothing as varying, take a model
and the same model on dual numbers, at any state of the latter and the state of its values.

* The two start with the same states.
* Any run of commands on dual numbers, set velocities and evaluations alike, whether they succeed or
  not, is shadowed by the run on the values.
* In particular, a quantity at velocities `v + ε·t` has the value that it has at velocities `v`,
  entry by entry, or fails for the same reason. -/
theorem tangents_change_no_values (hplain : ∀ a b : K, Arith.alongside a b = b) (m : Model K)
    (s : ModelState (Dual K) (Quantity.Value (Dual K))) :
    m.toDual.makeState.map Dual.primal = m.makeState ∧
    (∀ cs, Shadows Dual.primal (m.toDual.performAll s cs)
      (m.performAll (s.map Dual.primal) (cs.map (Command.map Dual.primal)))) ∧
    ∀ v t d, Tensor.dual v t = .ok d → ∀ q,
      m.evalAt (s.map Dual.primal) q (.tensor v) =
        Outcome.carry Dual.primal (q.mapValue Dual.primal)
          (m.toDual.evalAt s q (.tensor d)) := by
  have hm := m.carries_toDual hplain
  have hom := Dual.hom_primal hplain
  refine ⟨m.makeState_toDual, fun cs => hm.shadows hom cs s, fun v t d hd q => ?_⟩
  -- setting velocities and then asking is one evaluation, which is carried as a whole
  have hset := hm.setVelocities (.tensor d)
  rw [Given.map, Tensor.map_primal_of_dual hd] at hset
  exact congrArg Prod.fst (hset.bind (fun _ => hm.eval hom q) s)

/-- A linear map, a box and a spring, with velocities that vary in one direction. -/
theorem tangents_change_no_values_sample :
    ∃ p m d, ContactProblem.mixedSample? = .ok p ∧ build? p = .ok m ∧
      Tensor.dual (Vec.mk .double [1, 0, 2, -1, 3]).toTensor
        (Vec.mk .double [0, 1, 1, 0, -1]).toTensor = .ok d ∧
      (m.toDual.evalAt m.toDual.makeState .hessian (.tensor d)).isOk = true ∧
      m.evalAt (m.toDual.makeState.map Dual.primal) .hessian
          (.tensor (Vec.mk .double [1, 0, 2, -1, 3]).toTensor) =
        Outcome.carry Dual.primal (Quantity.mapValue Dual.primal .hessian)
          (m.toDual.evalAt m.toDual.makeState .hessian (.tensor d)) := by
  obtain ⟨d, hd⟩ : ∃ d, Tensor.dual (Vec.mk .double [(1 : ℚ), 0, 2, -1, 3]).toTensor
      (Vec.mk .double [0, 1, 1, 0, -1]).toTensor = .ok d := ⟨_, rfl⟩
  obtain ⟨p, hp, h⟩ := Outcome.exists_of_check (x := ContactProblem.mixedSample?)
    (P := fun p => (build? p).toOption.any fun m =>
      (m.evalAt m.makeState .hessian (.tensor (Vec.mk .double [1, 0, 2, -1, 3]).toTensor)).isOk)
    (by decide +kernel)
  obtain ⟨m, hm, hok⟩ := Outcome.exists_of_check h
  have hvalues := (tangents_change_no_values (fun _ _ => rfl) m m.toDual.makeState).2.2 _ _ d hd
    .hessian
  refine ⟨p, m, d, hp, hm, hd, ?_, hvalues⟩
  rw [makeState_toDual] at hvalues
  rwa [← Outcome.isOk_carry, ← hvalues]

end Model

end ConvexContact
