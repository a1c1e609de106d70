import ConvexContact.Proofs.Evaluation.Bookkeeping

/-!
# What an evaluation reads and writes

A quantity with all that it needs is all that its evaluation looks at. At states that agree there it
answers alike, whatever the other cells hold (`Evaluation.Local.reads`); and whether it succeeds or
not, it does nothing but store values for some of these quantities, each of which was out of date
before (`Evaluation.Local.records`).

Nothing is assumed of the memory here, so this also holds where the values in the cells are not
those of the model that is asked.

Proof shape: `Evaluation.Local` is a frame rule in both directions, for reading and for writing. It
passes through `bind` (`Evaluation.Local.bind`) and through a memorized cell
(`Model.local_memoized`), where the computation may look at all that the quantity needs but not at
its own cell. The eleven quantities are then read off the way they are composed
(`Model.local_eval`), and the commands after them.
-/

namespace ConvexContact

variable {K α β : Type}

namespace ModelState

variable {F : Quantity → Type} {D E : Set Quantity} {s t u : ModelState K F}

/-! ## States that agree on some quantities -/

/-- States with the same velocities, and the same cells for a set of quantities. -/
structure Agree (D : Set Quantity) (s t : ModelState K F) : Prop where
  size : s.size = t.size
  velocities : s.velocities = t.velocities
  cells : ∀ q ∈ D, s.memo.get q = t.memo.get q

/-- Every state agrees with itself. -/
theorem Agree.refl (D : Set Quantity) (s : ModelState K F) : Agree D s s :=
  ⟨rfl, rfl, fun _ _ => rfl⟩

theorem Agree.symm (h : Agree D s t) : Agree D t s :=
  ⟨h.size.symm, h.velocities.symm, fun q hq => (h.cells q hq).symm⟩

theorem Agree.trans (h : Agree D s t) (h' : Agree D t u) : Agree D s u :=
  ⟨h.size.trans h'.size, h.velocities.trans h'.velocities,
    fun q hq => (h.cells q hq).trans (h'.cells q hq)⟩

/-- States agree on fewer quantities, too. -/
theorem Agree.mono (h : Agree E s t) (hDE : D ⊆ E) : Agree D s t :=
  ⟨h.size, h.velocities, fun q hq => h.cells q (hDE hq)⟩

/-- The same value is stored on both sides. -/
theorem Agree.store (h : Agree D s t) (q : Quantity) (x : F q) :
    Agree D (s.store q x) (t.store q x) := by
  refine ⟨h.size, h.velocities, fun r hr => ?_⟩
  by_cases hrq : r = q
  · subst hrq
    simp [ModelState.store, MemoTable.set, h.cells r hr]
  · simp [ModelState.store, MemoTable.set, MemoTable.get_put_of_ne, hrq, h.cells r hr]

/-- What is stored elsewhere makes no difference. -/
theorem agree_store {q : Quantity} (hq : q ∉ D) (s : ModelState K F) (x : F q) :
    Agree D (s.store q x) s := by
  refine ⟨rfl, rfl, fun r hr => ?_⟩
  have hrq : r ≠ q := fun h => hq (h ▸ hr)
  simp [ModelState.store, MemoTable.set, MemoTable.get_put_of_ne, hrq]

/-- States agree on what has not been recorded. -/
theorem Records.agree (h : Records E s t) (hD : ∀ q ∈ D, q ∉ E ∨ (s.memo.get q).valid = true) :
    Agree D t s :=
  ⟨h.size, h.velocities, fun q hq => h.kept q (hD q hq)⟩

/-! ## States whose cells hold values -/

/-- Whatever is up to date has a value. -/
def Filled (s : ModelState K F) : Prop :=
  ∀ q, (s.memo.get q).valid = true → ∃ x, (s.memo.get q).value = some x

/-- A cell that has been stored has a value. -/
theorem Filled.store (hs : Filled s) (q : Quantity) (x : F q) : Filled (s.store q x) := by
  intro r hr
  by_cases hrq : r = q
  · subst hrq
    exact ⟨x, by simp [ModelState.store, MemoTable.set, MemoCell.set]⟩
  · have hsame : (s.store q x).memo.get r = s.memo.get r := by
      simp [ModelState.store, MemoTable.set, MemoTable.get_put_of_ne, hrq]
    rw [hsame] at hr ⊢
    exact hs r hr

/-- What has been recorded has been stored, so it has a value. -/
theorem Filled.records (hs : Filled s) (h : Records D s t) : Filled t := by
  intro q hq
  by_cases hkept : q ∉ D ∨ (s.memo.get q).valid = true
  · rw [h.kept q hkept] at hq ⊢
    exact hs q hq
  · rw [not_or, not_not, Bool.not_eq_true] at hkept
    obtain ⟨x, hx⟩ := h.stored q hkept.1 hkept.2
    exact ⟨x, by rw [hx]; rfl⟩

end ModelState

namespace Evaluation

open Quantity ModelState

/-! ## Local evaluations

`reads` compares the runs at two states that agree, and `records` describes one run. The second step
of a bind needs both: it starts at states that agree because the first step has recorded the same on
either side. -/

/-- An evaluation that looks at a set of quantities only. -/
structure Local (D : Set Quantity) (e : Evaluation K α) : Prop where
  /-- whether it succeeds or not, it brings some of them up to date -/
  records : ∀ s, Filled s → ∃ E, E ⊆ D ∧ Records E s (e.runAt s).2
  /-- and what it answers, and what it leaves for them, depends on nothing else -/
  reads : ∀ s t, Filled s → Filled t → Agree D s t →
    (e.runAt s).1 = (e.runAt t).1 ∧ Agree D (e.runAt s).2 (e.runAt t).2

variable {D E : Set Quantity} {e : Evaluation K α}

/-- Evaluations store values, so valid cells keep having some. -/
theorem Local.filled (h : Local D e) {s : ModelState K (Quantity.Value K)} (hs : Filled s) :
    Filled (e.runAt s).2 := by
  obtain ⟨E, -, hrecords⟩ := h.records s hs
  exact hs.records hrecords

/-- An evaluation that leaves the state alone. -/
theorem Local.of_same (hstate : ∀ s, (e.runAt s).2 = s)
    (hanswer : ∀ s t, Agree D s t → (e.runAt s).1 = (e.runAt t).1) : Local D e := by
  refine ⟨fun s _ => ⟨∅, Set.empty_subset D, ?_⟩, fun s t _ _ h => ⟨hanswer s t h, ?_⟩⟩
  · rw [hstate]
    exact .refl s
  · rw [hstate, hstate]
    exact h

/-- A step that only reports an outcome reads and writes nothing. -/
theorem local_lift (x : Except (Error K) α) : Local D (Evaluation.lift x) :=
  .of_same (fun _ => rfl) fun _ _ _ => rfl

theorem local_pure (x : α) : Local D (pure x : Evaluation K α) := local_lift (.ok x)

/-- An evaluation leaves all else as it is. -/
theorem Local.agree_after (h : Local D e) {s : ModelState K (Quantity.Value K)} (hs : Filled s)
    {C : Set Quantity} (hC : ∀ q ∈ C, q ∉ D) : Agree C (e.runAt s).2 s := by
  obtain ⟨E, hE, hrecords⟩ := h.records s hs
  exact hrecords.agree fun q hq => Or.inl fun hqE => hC q hq (hE hqE)

/-- An evaluation may be said to look at more than it does. -/
theorem Local.mono (h : Local D e) (hDE : D ⊆ E) : Local E e := by
  refine ⟨fun s hs => ?_, fun s t hs ht hagree => ?_⟩
  · obtain ⟨E', hE', hrecords⟩ := h.records s hs
    exact ⟨E', hE'.trans hDE, hrecords⟩
  · obtain ⟨hanswer, hstates⟩ := h.reads s t hs ht (hagree.mono hDE)
    refine ⟨hanswer, hstates.size, hstates.velocities, fun q hq => ?_⟩
    by_cases hqD : q ∈ D
    · exact hstates.cells q hqD
    · -- what is not looked at is left as it is on both sides
      have hout : ∀ q' ∈ ({q} : Set Quantity), q' ∉ D := by rintro _ rfl; exact hqD
      have hsame : Agree {q} (e.runAt s).2 (e.runAt t).2 :=
        ((h.agree_after hs hout).trans (hagree.mono (Set.singleton_subset_iff.mpr hq))).trans
          (h.agree_after ht hout).symm
      exact hsame.cells q rfl

/-- The second step starts from states that agree, since the first one leaves such states; and it is
the same second step, since the first one answers alike. -/
theorem Local.bind {f : α → Evaluation K β} (he : Local D e) (hf : ∀ a, Local D (f a)) :
    Local D (e >>= f) := by
  refine ⟨fun s hs => ?_, fun s t hs ht hagree => ?_⟩
  · obtain ⟨E, hE, hrecords⟩ := he.records s hs
    rcases hrun : e.runAt s with ⟨c | a, u⟩
    · rw [hrun] at hrecords
      rw [runAt_bind_of_error f hrun]
      exact ⟨E, hE, hrecords⟩
    · rw [hrun] at hrecords
      rw [runAt_bind_of_ok f hrun]
      obtain ⟨E', hE', hrecords'⟩ := (hf a).records u (hs.records hrecords)
      exact ⟨E ∪ E', Set.union_subset hE hE', hrecords.trans hrecords'⟩
  · obtain ⟨hanswer, hstates⟩ := he.reads s t hs ht hagree
    have hfilled := he.filled hs
    have hfilled' := he.filled ht
    rcases hrun : e.runAt s with ⟨x, u⟩
    rcases hrun' : e.runAt t with ⟨y, w⟩
    rw [hrun] at hanswer hstates hfilled
    rw [hrun'] at hanswer hstates hfilled'
    obtain rfl : x = y := hanswer
    cases x with
    | error c =>
      rw [runAt_bind_of_error f hrun, runAt_bind_of_error f hrun']
      exact ⟨rfl, hstates⟩
    | ok a =>
      rw [runAt_bind_of_ok f hrun, runAt_bind_of_ok f hrun']
      exact (hf a).reads u w hfilled hfilled' hstates

end Evaluation

/-- What is evaluated on behalf of a quantity that needs it. -/
theorem Evaluation.Local.needed {e : Evaluation K α} {q d : Quantity} (h : Local d.closure e)
    (hd : d ∈ q.needs) : Local (⋃ d ∈ q.needs, d.closure) e :=
  h.mono (Set.subset_biUnion_of_mem (u := Quantity.closure) hd)

namespace Model

open Quantity ModelState Evaluation

variable {D : Set Quantity} {m : Model K}

/-- A state has velocities for a model when it is of the right size and they have been set. -/
theorem velocitiesOf_eq_ok {s : ModelState K (Quantity.Value K)} {v : Vec K} :
    m.velocitiesOf s = .ok v ↔ s.size = m.velocityCount ∧ s.velocities = some v := by
  rw [velocitiesOf, checkSize]
  by_cases hsize : s.size = m.velocityCount
  · cases hv : s.velocities <;> simp [hsize, bind, Except.bind]
  · simp [hsize, bind, Except.bind]

/-- Whether there are velocities to evaluate at is the same at states that agree. -/
theorem velocitiesOf_congr (m : Model K) {s t : ModelState K (Quantity.Value K)}
    (h : Agree D s t) : m.velocitiesOf s = m.velocitiesOf t := by
  rw [velocitiesOf, velocitiesOf, checkSize, checkSize, h.size, h.velocities]

theorem local_velocitiesHere : Local D m.velocitiesHere :=
  .of_same (fun _ => rfl) fun _ _ h => m.velocitiesOf_congr h

/-! ## Memorized quantities

A miss fills the cell of the quantity, of which its computation must know nothing. That is where the
order of the needs comes in. -/

/-- The three ways in which a memorized quantity is evaluated: there are no velocities, or the cell
has a value, or the value is computed. -/
theorem runAt_memoized (m : Model K) (q : Quantity)
    (compute : Vec K → Evaluation K (Quantity.Value K q)) (s : ModelState K (Quantity.Value K)) :
    (m.memoized q compute).runAt s =
      match m.velocitiesOf s, (s.memo.get q).current? with
      | .error c, _ => (.error c, s)
      | .ok _, some x => (.ok x, s)
      | .ok v, none => (compute v >>= fun x => modify (·.store q x) >>= fun _ => pure x :
          Evaluation K (Quantity.Value K q)).runAt s := by
  cases hv : m.velocitiesOf s with
  | error c => exact memoized_of_error hv q compute
  | ok v =>
    have hhere : m.velocitiesHere.runAt s = (.ok v, s) := congrArg (·, s) hv
    rw [memoized, runAt_bind_of_ok _ hhere, runAt_bind_of_ok _ (runAt_get s)]
    cases (s.memo.get q).current? <;> rfl

/-- Where valid cells have values, a cell without one to read is out of date. -/
theorem invalid_of_current?_eq_none {s : ModelState K (Quantity.Value K)} (hs : Filled s)
    {q : Quantity} (h : (s.memo.get q).current? = none) : (s.memo.get q).valid = false := by
  by_contra hvalid
  obtain ⟨x, hx⟩ := hs q (by simpa using hvalid)
  simp [MemoCell.current?, hvalid, hx] at h

/-- What a quantity needs is part of its closure. -/
theorem needed_subset_closure (q : Quantity) : (⋃ d ∈ q.needs, d.closure) ⊆ q.closure := by
  rw [closure_eq q]
  exact Set.subset_insert _ _

section Memoized

variable {q : Quantity} {compute : Vec K → Evaluation K (Quantity.Value K q)}
  (h : ∀ v, Local (⋃ d ∈ q.needs, d.closure) (compute v))
include h

/-- Besides what its computation brings up to date, a quantity is brought up to date itself. -/
theorem records_memoized {s : ModelState K (Quantity.Value K)} (hs : Filled s) :
    ∃ E, E ⊆ q.closure ∧ Records E s ((m.memoized q compute).runAt s).2 := by
  rw [runAt_memoized]
  cases m.velocitiesOf s with
  | error c => exact ⟨∅, Set.empty_subset _, .refl s⟩
  | ok v =>
    cases hcell : (s.memo.get q).current? with
    | some x => exact ⟨∅, Set.empty_subset _, .refl s⟩
    | none =>
      obtain ⟨E, hE, hrecords⟩ := (h v).records s hs
      have hclosure : E ⊆ q.closure := hE.trans (needed_subset_closure q)
      rcases hrun : (compute v).runAt s with ⟨c | x, t⟩
      · rw [hrun] at hrecords
        dsimp only
        rw [runAt_bind_of_error _ hrun]
        exact ⟨E, hclosure, hrecords⟩
      · rw [hrun] at hrecords
        dsimp only
        rw [runAt_bind_of_ok _ hrun]
        -- no quantity needs itself, so its computation has not touched its own cell
        have hsame : t.memo.get q = s.memo.get q :=
          hrecords.kept q (Or.inl fun hq => notMem_needed q (hE hq))
        have hinvalid : (t.memo.get q).valid = false := by
          rw [hsame, invalid_of_current?_eq_none hs hcell]
        refine ⟨E ∪ {q}, Set.union_subset hclosure ?_, hrecords.trans (.store hinvalid x)⟩
        exact Set.singleton_subset_iff.mpr Relation.ReflTransGen.refl

/-- A memorized quantity is local when its computation is, which does not look at the cell of the
quantity itself. -/
theorem local_memoized : Local q.closure (m.memoized q compute) := by
  refine ⟨fun s hs => records_memoized h hs, fun s t hs ht hagree => ?_⟩
  rw [runAt_memoized, runAt_memoized, m.velocitiesOf_congr hagree,
    hagree.cells q Relation.ReflTransGen.refl]
  cases m.velocitiesOf t with
  | error c => exact ⟨rfl, hagree⟩
  | ok v =>
    cases (t.memo.get q).current? with
    | some x => exact ⟨rfl, hagree⟩
    | none =>
      obtain ⟨hanswer, hstates⟩ := ((h v).mono (needed_subset_closure q)).reads s t hs ht hagree
      dsimp only
      rcases hrun : (compute v).runAt s with ⟨x, u⟩
      rcases hrun' : (compute v).runAt t with ⟨y, w⟩
      rw [hrun, hrun'] at hanswer hstates
      obtain rfl : x = y := hanswer
      cases x with
      | error c =>
        rw [runAt_bind_of_error _ hrun, runAt_bind_of_error _ hrun']
        exact ⟨rfl, hstates⟩
      | ok x =>
        rw [runAt_bind_of_ok _ hrun, runAt_bind_of_ok _ hrun']
        exact ⟨rfl, hstates.store q x⟩

end Memoized

/-! ## The quantities -/

variable [Arith K]

theorem local_constraintVelocities :
    Local constraintVelocities.closure m.evalConstraintVelocities :=
  local_memoized fun _ => local_lift _

theorem local_momentum : Local momentum.closure m.evalMomentum :=
  local_memoized fun _ => local_lift _

theorem local_momentumGain : Local momentumGain.closure m.evalMomentumGain :=
  local_memoized fun _ => (local_momentum.needed (by decide)).bind fun p => local_lift _

theorem local_momentumCost : Local momentumCost.closure m.evalMomentumCost := by
  apply local_memoized
  intro v
  apply (local_lift _).bind
  exact fun d => (local_momentumGain.needed (by decide)).bind fun gain => local_pure _

theorem local_unprojectedImpulses :
    Local unprojectedImpulses.closure m.evalUnprojectedImpulses :=
  local_memoized fun _ => (local_constraintVelocities.needed (by decide)).bind fun vc =>
    local_lift _

theorem local_impulses : Local Quantity.impulses.closure m.evalImpulses :=
  local_memoized fun _ => (local_unprojectedImpulses.needed (by decide)).bind fun y =>
    local_lift _

/-- The impulses and the blocks of the Hessian, projected together: impulses that are out of date
are stored. -/
def projectJointly (m : Model K) (y : Vec K) : Evaluation K (List (Mat K)) := do
  let (γ, G) ← Evaluation.lift (m.stack.projectWithHessian y)
  modify fun s => if (s.memo.get .impulses).valid then s else s.store .impulses γ
  return G

/-- The joint projection looks at one cell, that of the impulses, and may fill it. -/
theorem local_projectJointly (hD : Quantity.impulses ∈ D) (y : Vec K) :
    Local D (m.projectJointly y) := by
  apply (local_lift _).bind
  rintro ⟨γ, G⟩
  refine ⟨fun s _ => ?_, fun s t _ _ hagree => ?_⟩
  -- what is recorded: nothing, or the impulses
  · change ∃ E, E ⊆ D ∧ Records E s (if (s.memo.get .impulses).valid then s else
      s.store .impulses γ)
    cases hvalid : (s.memo.get .impulses).valid with
    | true => exact ⟨∅, Set.empty_subset D, .refl s⟩
    | false => exact ⟨{.impulses}, Set.singleton_subset_iff.mpr hD, .store hvalid γ⟩
  · refine ⟨rfl, ?_⟩
    change Agree D (if (s.memo.get .impulses).valid then s else s.store .impulses γ)
      (if (t.memo.get .impulses).valid then t else t.store .impulses γ)
    -- both states have the same cell for the impulses, so they take the same branch
    rw [hagree.cells _ hD]
    split_ifs
    · exact hagree
    · exact hagree.store .impulses γ

/-- The computation of the blocks of the Hessian. -/
theorem local_jointly :
    Local (⋃ d ∈ constraintsHessian.needs, d.closure)
      (m.evalUnprojectedImpulses >>= m.projectJointly) := by
  apply (local_unprojectedImpulses.needed (by decide)).bind
  refine local_projectJointly (Set.mem_iUnion₂.mpr ⟨.impulses, by decide, ?_⟩)
  exact Relation.ReflTransGen.refl

theorem local_constraintsHessian : Local constraintsHessian.closure m.evalConstraintsHessian :=
  local_memoized fun _ => local_jointly

theorem local_regularizerCost : Local regularizerCost.closure m.evalRegularizerCost :=
  local_memoized fun _ => (local_impulses.needed (by decide)).bind fun γ => local_pure _

theorem local_cost : Local cost.closure m.evalCost := by
  apply local_memoized
  intro v
  apply (local_momentumCost.needed (by decide)).bind
  exact fun momentum => (local_regularizerCost.needed (by decide)).bind fun _ => local_pure _

theorem local_costGradient : Local costGradient.closure m.evalCostGradient := by
  apply local_memoized
  intro v
  apply (local_momentumGain.needed (by decide)).bind
  exact fun gain => (local_impulses.needed (by decide)).bind fun γ => local_lift _

theorem local_hessian : Local hessian.closure m.evalHessian :=
  local_memoized fun _ => (local_constraintsHessian.needed (by decide)).bind fun G => local_lift _

/-- **Locality.** The evaluation of a quantity looks at what the quantity needs only. -/
theorem local_eval (m : Model K) (q : Quantity) : Local q.closure (m.eval q) := by
  cases q with
  | constraintVelocities => exact local_constraintVelocities
  | momentum => exact local_momentum
  | momentumGain => exact local_momentumGain
  | momentumCost => exact local_momentumCost
  | unprojectedImpulses => exact local_unprojectedImpulses
  | impulses => exact local_impulses
  | constraintsHessian => exact local_constraintsHessian
  | regularizerCost => exact local_regularizerCost
  | cost => exact local_cost
  | costGradient => exact local_costGradient
  | hessian => exact local_hessian

/-- A command that sets no velocities looks at what its requests need. -/
theorem local_perform {c : Command K} (hc : c.given? = none) :
    Local (⋃ q ∈ c.requested, q.closure) (m.perform c) := by
  have hreq : ∀ {α : Type} {e : Evaluation K α} {q : Quantity}, Local q.closure e →
      q ∈ c.requested → Local (⋃ q ∈ c.requested, q.closure) e :=
    fun h hq => h.mono (Set.subset_biUnion_of_mem (u := Quantity.closure) hq)
  cases c with
  | setVelocities g => cases hc
  | velocities => exact local_velocitiesHere
  | eval q => exact hreq (m.local_eval q) (List.mem_singleton.mpr rfl)
  | multiplyHessian w =>
    apply (hreq local_constraintsHessian (List.mem_singleton.mpr rfl)).bind
    exact fun G => (local_lift _).bind fun w => local_lift _
  | summarize =>
    apply (hreq local_impulses (by simp [Command.requested])).bind
    intro γ
    apply (hreq local_costGradient (by simp [Command.requested])).bind
    intro gradient
    apply (hreq local_momentumCost (by simp [Command.requested])).bind
    intro momentum
    apply (hreq local_regularizerCost (by simp [Command.requested])).bind
    intro regularizer
    exact (hreq local_cost (by simp [Command.requested])).bind fun total => local_pure _

end Model

end ConvexContact
