import ConvexContact.Proofs.Evaluation.Recording

/-!
# Exact bookkeeping

Which quantities are up to date, and how often each has been computed, follows from the requests
since the velocities were replaced last.

* An evaluation that succeeds brings up to date what the requested quantities need, and nothing else
  (`Model.records_after`).
* Of a command that is no failing evaluation, one of two things can be said: it replaces the
  velocities, or it records what its requests need (`Model.step_cases`). What a run keeps is derived
  from these two.

Proof shape: `Model.brings_eval` says of each quantity what it brings, along the way it is computed.
Above it only `Model.step_cases` is used, once for the order of the states (`Model.orderly_after`),
once for what is recorded between two replacements (`Model.records_performAll`), and once for the
counters (`Model.Counted.after`). The counters need an invariant of their own: a quantity that is
out of date still has its computation to come, so its counter is one below the bound.

Main statement: `Model.bookkeeping_exact`.
-/

namespace ConvexContact

variable {K : Type}

/-- The quantities that a command asks for. -/
def Command.requested : Command K → List Quantity
  | setVelocities _ | velocities => []
  | eval q => [q]
  | multiplyHessian _ => [.constraintsHessian]
  | summarize => [.impulses, .costGradient, .momentumCost, .regularizerCost, .cost]

namespace Model

open Quantity ModelState

variable [Arith K] {m : Model K} {s t : ModelState K (Quantity.Value K)} {c : Command K}

/-! ## The quantities -/

theorem brings_constraintVelocities :
    Brings m.evalConstraintVelocities constraintVelocities.closure :=
  .memoized (fun _ => brings_lift _) (by simp [needs])

theorem brings_momentum : Brings m.evalMomentum momentum.closure :=
  .memoized (fun _ => brings_lift _) (by simp [needs])

theorem brings_momentumGain : Brings m.evalMomentumGain momentumGain.closure := by
  apply Brings.memoized (D := momentum.closure ∪ ∅)
  · exact fun v => brings_momentum.bind (closed_closure _) fun p => brings_lift _
  · simp [needs]

/-- The difference of the velocities comes first and records nothing. -/
theorem brings_momentumCost : Brings m.evalMomentumCost momentumCost.closure := by
  apply Brings.memoized (D := ∅ ∪ (momentumGain.closure ∪ ∅))
  · intro v
    apply (brings_lift _).bind closed_empty
    exact fun d => brings_momentumGain.bind (closed_closure _) fun gain => brings_pure _
  · simp [needs]

theorem brings_unprojectedImpulses :
    Brings m.evalUnprojectedImpulses unprojectedImpulses.closure := by
  apply Brings.memoized (D := constraintVelocities.closure ∪ ∅)
  · exact fun v => brings_constraintVelocities.bind (closed_closure _) fun vc => brings_lift _
  · simp [needs]

theorem brings_impulses : Brings m.evalImpulses Quantity.impulses.closure := by
  apply Brings.memoized (D := unprojectedImpulses.closure ∪ ∅)
  · exact fun v => brings_unprojectedImpulses.bind (closed_closure _) fun y => brings_lift _
  · simp [needs]

/-- The side effect of the blocks of the Hessian: impulses that are out of date are stored. -/
theorem brings_jointly (y : Vec K) :
    Brings (do
      let (γ, G) ← Evaluation.lift (m.stack.projectWithHessian y)
      modify fun s => if (s.memo.get .impulses).valid then s else s.store .impulses γ
      return G : Evaluation K (List (Mat K))) {.impulses} := by
  intro s t G _ hrun
  -- the projection leaves the state alone, and the impulses are stored unless they are up to date
  cases hjoint : m.stack.projectWithHessian y with
  | error e =>
    rw [hjoint] at hrun
    cases (Prod.mk.inj hrun).1
  | ok answer =>
    rw [hjoint] at hrun
    obtain ⟨-, rfl⟩ := Prod.mk.inj hrun
    cases hvalid : (s.memo.get .impulses).valid with
    | true =>
      simp only [hvalid, if_true]
      refine .of_valid fun q hq => ?_
      rw [Set.mem_singleton_iff.mp hq, hvalid]
    | false =>
      simp only [hvalid, Bool.false_eq_true, if_false]
      exact .store hvalid answer.1

theorem brings_constraintsHessian :
    Brings m.evalConstraintsHessian constraintsHessian.closure := by
  apply Brings.memoized (D := unprojectedImpulses.closure ∪ {.impulses})
  · exact fun v => brings_unprojectedImpulses.bind (closed_closure _) brings_jointly
  · simp [needs, closure_eq .impulses, Set.union_insert]

theorem brings_regularizerCost : Brings m.evalRegularizerCost regularizerCost.closure := by
  apply Brings.memoized (D := Quantity.impulses.closure ∪ ∅)
  · exact fun v => brings_impulses.bind (closed_closure _) fun γ => brings_pure _
  · simp [needs]

theorem brings_cost : Brings m.evalCost cost.closure := by
  apply Brings.memoized (D := momentumCost.closure ∪ (regularizerCost.closure ∪ ∅))
  · intro v
    apply brings_momentumCost.bind (closed_closure _)
    exact fun momentum => brings_regularizerCost.bind (closed_closure _) fun _ => brings_pure _
  · simp [needs]

theorem brings_costGradient : Brings m.evalCostGradient costGradient.closure := by
  apply Brings.memoized (D := momentumGain.closure ∪ (Quantity.impulses.closure ∪ ∅))
  · intro v
    apply brings_momentumGain.bind (closed_closure _)
    exact fun gain => brings_impulses.bind (closed_closure _) fun γ => brings_lift _
  · simp [needs]

theorem brings_hessian : Brings m.evalHessian hessian.closure := by
  apply Brings.memoized (D := constraintsHessian.closure ∪ ∅)
  · exact fun v => brings_constraintsHessian.bind (closed_closure _) fun G => brings_lift _
  · simp [needs]

/-- A quantity brings all that it needs. -/
theorem brings_eval (q : Quantity) : Brings (m.eval q) q.closure := by
  cases q with
  | constraintVelocities => exact brings_constraintVelocities
  | momentum => exact brings_momentum
  | momentumGain => exact brings_momentumGain
  | momentumCost => exact brings_momentumCost
  | unprojectedImpulses => exact brings_unprojectedImpulses
  | impulses => exact brings_impulses
  | constraintsHessian => exact brings_constraintsHessian
  | regularizerCost => exact brings_regularizerCost
  | cost => exact brings_cost
  | costGradient => exact brings_costGradient
  | hessian => exact brings_hessian

/-! ## Commands

The only place where commands are told apart. A product with the Hessian counts as answered when its
blocks are, even if the factor is refused afterwards. -/

/-- Whether the quantities that a command asks for are answered. For a product with the Hessian
these are the blocks, whether the factor fits them or not. -/
def answers (m : Model K) (s : ModelState K (Quantity.Value K)) (c : Command K) : Bool :=
  match c with
  | .setVelocities _ | .velocities => true
  | .eval q => (m.replyTo s (.eval q)).answer.isOk
  | .multiplyHessian _ => (m.replyTo s (.eval .constraintsHessian)).answer.isOk
  | .summarize => (m.replyTo s .summarize).answer.isOk

omit [Arith K] in
/-- An evaluation that is answered leaves a state where all is recorded. -/
theorem Brings.records_of_isOk {α : Type} {e : Evaluation K α} {D : Set Quantity} (h : Brings e D)
    (hs : Orderly s) (hok : (e.runAt s).1.isOk = true) : Records D s (e.runAt s).2 := by
  rcases hrun : e.runAt s with ⟨a | x, t⟩
  · rw [hrun] at hok
    cases hok
  · exact h s t x hs hrun

/-- A product with the Hessian leaves the state that its blocks leave. -/
theorem after_multiplyHessian (w : Given K) :
    m.after s (.multiplyHessian w) = m.after s (.eval .constraintsHessian) := by
  change ((m.evalConstraintsHessian >>= _).runAt s).2 = (m.evalConstraintsHessian.runAt s).2
  rcases hblocks : m.evalConstraintsHessian.runAt s with ⟨e | G, t⟩
  · rw [Evaluation.runAt_bind_of_error _ hblocks]
  · rw [Evaluation.runAt_bind_of_ok _ hblocks, Evaluation.runAt_bind, Evaluation.runAt_lift]
    cases w.asTensor <;> rfl

/-- A summary asks for five quantities one after the other. The cost alone needs three of the
others, so most of them are answered from the memory. -/
theorem brings_summarize : Brings m.summarize (Quantity.impulses.closure ∪ (costGradient.closure ∪
    (momentumCost.closure ∪ (regularizerCost.closure ∪ (cost.closure ∪ ∅))))) := by
  apply brings_impulses.bind (closed_closure _)
  intro γ
  apply brings_costGradient.bind (closed_closure _)
  intro gradient
  apply brings_momentumCost.bind (closed_closure _)
  intro momentum
  apply brings_regularizerCost.bind (closed_closure _)
  intro regularizer
  exact brings_cost.bind (closed_closure _) fun total => brings_pure _

/-- A command that sets no velocities and is answered records what its requests need. -/
theorem records_after (hs : Orderly s) (hc : c.given? = none) (hok : m.answers s c = true) :
    Records (⋃ q ∈ c.requested, q.closure) s (m.after s c) := by
  cases c with
  | setVelocities g => cases hc
  | velocities =>
    have hD : (⋃ q ∈ (Command.velocities (K := K)).requested, q.closure) = ∅ := by
      simp [Command.requested]
    rw [hD]
    exact .refl s
  | eval q =>
    have hD : (⋃ r ∈ (Command.eval (K := K) q).requested, r.closure) = q.closure := by
      simp [Command.requested]
    rw [hD]
    exact (brings_eval q).records_of_isOk hs hok
  | multiplyHessian w =>
    have hD : (⋃ q ∈ (Command.multiplyHessian w).requested, q.closure) =
        constraintsHessian.closure := by
      simp [Command.requested]
    -- the product may still fail, but not before the blocks have been answered
    rw [hD, after_multiplyHessian]
    exact (brings_eval .constraintsHessian).records_of_isOk hs hok
  | summarize =>
    have hD : (⋃ q ∈ (Command.summarize (K := K)).requested, q.closure) =
        Quantity.impulses.closure ∪ (costGradient.closure ∪
          (momentumCost.closure ∪ (regularizerCost.closure ∪ (cost.closure ∪ ∅)))) := by
      simp [Command.requested]
    rw [hD]
    exact brings_summarize.records_of_isOk hs hok

/-- What a command does that is answered: it replaces the velocities, or records what it asks
for. -/
theorem step_cases (hs : Orderly s) (hok : m.answers s c = true) :
    ((m.replyTo s c).replaces = true ∧ ∃ v, m.after s c = s.replace v) ∨
      (m.replyTo s c).replaces = false ∧
        Records (⋃ q ∈ c.requested, q.closure) s (m.after s c) := by
  cases hc : c.given? with
  | none =>
    exact Or.inr ⟨Reply.replaces_of_given?_eq_none hc, records_after hs hc hok⟩
  | some g =>
    obtain rfl := Command.eq_setVelocities hc
    cases hreplaces : (m.replyTo s (.setVelocities g)).replaces with
    | true => exact Or.inl ⟨rfl, exists_after_eq_replace hreplaces⟩
    | false =>
      refine Or.inr ⟨rfl, ?_⟩
      rw [after_setVelocities hreplaces]
      simpa [Command.requested] using Records.refl s

/-! ## Runs -/

/-- Whether all quantities that a run asks for are answered. -/
def answersAll (m : Model K) (s : ModelState K (Quantity.Value K)) : List (Command K) → Bool
  | [] => true
  | c :: cs => m.answers s c && m.answersAll (m.after s c) cs

@[simp] theorem answersAll_cons (cs : List (Command K)) :
    m.answersAll s (c :: cs) = (m.answers s c && m.answersAll (m.after s c) cs) := rfl

/-- A run in two parts is answered when both are, the second one from where the first one ends. -/
theorem answersAll_append (cs cs' : List (Command K)) : m.answersAll s (cs ++ cs') =
    (m.answersAll s cs && m.answersAll (m.performAll s cs).2 cs') := by
  induction cs generalizing s with
  | nil => rfl
  | cons c cs ih => simp [ih, Bool.and_assoc]

/-- A command that is answered leaves a state in order. -/
theorem orderly_after (hs : Orderly s) (hok : m.answers s c = true) : Orderly (m.after s c) := by
  rcases step_cases hs hok with ⟨-, v, hv⟩ | ⟨-, hrecords⟩
  · rw [hv]
    exact .of_invalid (valid_replace s v)
  · exact hs.records hrecords (closed_biUnion _)

/-- A run that replaces no velocities records what its requests need. -/
theorem records_performAll (hs : Orderly s) {cs : List (Command K)}
    (hok : m.answersAll s cs = true) (hkeep : ∀ x ∈ (m.performAll s cs).1, x.replaces = false) :
    Records (⋃ q ∈ cs.flatMap Command.requested, q.closure) s (m.performAll s cs).2 := by
  induction cs generalizing s with
  | nil => simpa using Records.refl s
  | cons c cs ih =>
    obtain ⟨hc, hrest⟩ := Bool.and_eq_true_iff.mp hok
    obtain ⟨hkeepc, hkeeprest⟩ := List.forall_mem_cons.mp hkeep
    have hstep : Records (⋃ q ∈ c.requested, q.closure) s (m.after s c) := by
      rcases step_cases hs hc with ⟨hreplaces, -⟩ | ⟨-, hrecords⟩
      -- the command would have replaced the velocities, which none in this run does
      · exact absurd (hreplaces.symm.trans hkeepc) (by decide)
      · exact hrecords
    have hunion : (⋃ q ∈ (c :: cs).flatMap Command.requested, q.closure) =
        (⋃ q ∈ c.requested, q.closure) ∪ ⋃ q ∈ cs.flatMap Command.requested, q.closure := by
      ext r
      simp only [List.flatMap_cons, List.mem_append, Set.mem_iUnion, Set.mem_union, exists_prop,
        or_and_right, exists_or]
    rw [hunion]
    exact hstep.trans (ih (orderly_after hs hc) hrest hkeeprest)

/-! ## Where a run is cut

Everything is out of date where velocities are replaced. So a run is cut behind the last
replacement, and what is up to date at the end is what was recorded since. -/

/-- A run from a fresh state, cut where the velocities were replaced last. -/
structure Cut (m : Model K) (before segment : List (Command K)) : Prop where
  replaced : before = [] ∨ ∃ cs c, before = cs ++ [c] ∧
    (m.replyTo (m.performAll m.makeState cs).2 c).replaces = true
  kept : ∀ x ∈ (m.performAll (m.performAll m.makeState before).2 segment).1, x.replaces = false

/-- Every run is cut somewhere. -/
theorem exists_cut (cs : List (Command K)) :
    ∃ before segment, cs = before ++ segment ∧ m.Cut before segment := by
  induction cs using List.reverseRecOn with
  | nil => exact ⟨[], [], rfl, Or.inl rfl, by simp⟩
  | append_singleton cs c ih =>
    -- the last command is a new cut, or else belongs to the segment so far
    cases hc : (m.replyTo (m.performAll m.makeState cs).2 c).replaces with
    | true => exact ⟨cs ++ [c], [], by simp, Or.inr ⟨cs, c, rfl, hc⟩, by simp⟩
    | false =>
      obtain ⟨before, segment, rfl, hcut⟩ := ih
      refine ⟨before, segment ++ [c], by simp, hcut.replaced, ?_⟩
      rw [performAll_append] at hc ⊢
      simp only [performAll_cons, performAll_nil, List.forall_mem_append]
      exact ⟨hcut.kept, by simpa using hc⟩

/-- Where a run is cut, nothing is up to date. -/
theorem Cut.invalid {before segment : List (Command K)} (h : m.Cut before segment) (q : Quantity) :
    ((m.performAll m.makeState before).2.memo.get q).valid = false := by
  rcases h.replaced with rfl | ⟨cs, c, rfl, hreplaces⟩
  · exact valid_empty _ q
  · obtain ⟨v, hv⟩ := exists_after_eq_replace hreplaces
    rw [performAll_append]
    simp only [performAll_cons, performAll_nil, hv]
    exact valid_replace _ v q

/-! ## How often a quantity is computed

By induction on the run. The bound counts replacements, and it is strict for a quantity that is out
of date, since that one may still be computed under the present velocities. -/

/-- States where a quantity has been computed at most `n` times, and less than that if it is out of
date. Before the first velocities nothing has been computed at all. -/
inductive Counted (m : Model K) : Nat → ModelState K (Quantity.Value K) → Prop where
  | unset : Counted m 0 m.makeState
  | set {n : Nat} {s : ModelState K (Quantity.Value K)}
      (h : ∀ q, (s.memo.get q).updates + (if (s.memo.get q).valid then 0 else 1) ≤ n) :
      Counted m n s

omit [Arith K] in
/-- No quantity has been computed more often than that. -/
theorem Counted.updates_le {n : Nat} (h : m.Counted n s) (q : Quantity) :
    (s.memo.get q).updates ≤ n := by
  cases h with
  | unset => simp [makeState, ModelState.empty, MemoTable.empty, MemoCell.empty]
  | set h => exact (Nat.le_add_right _ _).trans (h q)

/-- Whenever the velocities are replaced, one more computation of each quantity may follow. -/
theorem Counted.after {n : Nat} (h : m.Counted n s) (hs : Orderly s) (hok : m.answers s c = true) :
    m.Counted (n + if (m.replyTo s c).replaces then 1 else 0) (m.after s c) := by
  rcases step_cases hs hok with ⟨hreplaces, v, hv⟩ | ⟨hkeeps, hrecords⟩
  · rw [hreplaces, hv]
    refine .set fun q => ?_
    have hle := h.updates_le q
    simpa [ModelState.replace, MemoCell.invalidate] using hle
  · rw [hkeeps]
    cases h with
    | unset =>
      -- without velocities nothing is computed, so the state is still the fresh one
      have hsame : m.after m.makeState c = m.makeState := by
        cases hc : c.given? with
        | none => exact after_of_runAt (perform_of_error velocitiesOf_makeState hc)
        | some g =>
          obtain rfl := Command.eq_setVelocities hc
          exact after_setVelocities hkeeps
      rw [hsame]
      exact .unset
    | set h =>
      refine .set fun q => ?_
      have hbefore := h q
      rw [hrecords.updates_eq q]
      cases hvalid : (s.memo.get q).valid with
      | true =>
        have hvalid' := (hrecords.valid_iff q).mpr (Or.inl hvalid)
        simpa [hvalid, hvalid'] using hbefore
      | false =>
        simp only [hvalid, Bool.false_eq_true, if_false] at hbefore
        cases (m.after s c).memo.get q |>.valid <;> simpa using hbefore

/-- **Run.** The bound grows by one with each replacement of the velocities. -/
theorem counted_performAll {n : Nat} (h : m.Counted n s) (hs : Orderly s) {cs : List (Command K)}
    (hok : m.answersAll s cs = true) :
    m.Counted (n + (m.performAll s cs).1.countP Reply.replaces) (m.performAll s cs).2 := by
  induction cs generalizing n s with
  | nil => exact h
  | cons c cs ih =>
    obtain ⟨hc, hrest⟩ := Bool.and_eq_true_iff.mp hok
    have hstep := ih (h.after hs hc) (orderly_after hs hc) hrest
    rw [performAll_cons, List.countP_cons, Nat.add_comm (List.countP _ _), ← Nat.add_assoc]
    exact hstep

/-! ## Main statement -/

/-- What a state holds after requests that began at another one: all that the requests need is up to
date, nothing else is, and each such quantity has been computed once. -/
structure Booked (s t : ModelState K (Quantity.Value K)) (requests : List Quantity) : Prop where
  invalid : ∀ q, (s.memo.get q).valid = false
  valid_iff : ∀ q, (t.memo.get q).valid = true ↔ ∃ r ∈ requests, q ∈ r.closure
  updates_eq : ∀ q, (t.memo.get q).updates =
    (s.memo.get q).updates + if (t.memo.get q).valid then 1 else 0

/-- What is recorded since a cut, where nothing is up to date, is all that is up to date. -/
theorem Cut.booked {before segment : List (Command K)} (h : m.Cut before segment)
    (hok : m.answersAll m.makeState (before ++ segment) = true) :
    Booked (m.performAll m.makeState before).2 (m.performAll m.makeState (before ++ segment)).2
      (segment.flatMap Command.requested) := by
  rw [answersAll_append] at hok
  obtain ⟨-, hsegment⟩ := Bool.and_eq_true_iff.mp hok
  have hinvalid := h.invalid
  have hrecords := records_performAll (.of_invalid hinvalid) hsegment h.kept
  rw [performAll_append]
  refine ⟨hinvalid, fun q => ?_, fun q => ?_⟩
  · rw [hrecords.valid_iff q]
    simp only [hinvalid, Bool.false_eq_true, false_or, Set.mem_iUnion, exists_prop]
  · rw [hrecords.updates_eq q]
    simp [hinvalid]

/-- **Bookkeeping.** Take a run of commands from a fresh state where no evaluation fails, up to any
step of it, and cut it where the velocities were replaced last. At the cut nothing is up to date.
At the step what is up to date is what the requests since then need, each of these quantities has
been computed once since then, and the others have not been computed. All in all a quantity is not
computed more often than the velocities are replaced, and velocities that are refused change
nothing. -/
theorem bookkeeping_exact {cs done : List (Command K)}
    (hok : m.answersAll m.makeState cs = true) (hdone : done <+: cs) :
    (∃ before segment, done = before ++ segment ∧ m.Cut before segment) ∧
    (∀ before segment, done = before ++ segment → m.Cut before segment →
      Booked (m.performAll m.makeState before).2 (m.performAll m.makeState done).2
        (segment.flatMap Command.requested)) ∧
    (∀ q, ((m.performAll m.makeState done).2.memo.get q).updates ≤
      (m.performAll m.makeState done).1.countP Reply.replaces) ∧
    ∀ g, (m.replyTo (m.performAll m.makeState done).2 (.setVelocities g)).replaces = false →
      m.after (m.performAll m.makeState done).2 (.setVelocities g) =
        (m.performAll m.makeState done).2 := by
  obtain ⟨rest, rfl⟩ := hdone
  rw [answersAll_append] at hok
  have hok := (Bool.and_eq_true_iff.mp hok).1
  refine ⟨exists_cut done, ?_, fun q => ?_, fun g hg => after_setVelocities hg⟩
  · rintro before segment rfl hcut
    exact hcut.booked hok
  · have hcounted := counted_performAll .unset (.of_invalid (valid_empty _)) hok
    simpa using hcounted.updates_le q

/-- The cost is asked for, and then the velocities are replaced. -/
def sampleRequests : List (Command ℚ) :=
  [.setVelocities (.tensor (Vec.mk .double [1, 0, 0]).toTensor), .eval .cost,
    .setVelocities (.tensor (Vec.mk .double [2, 3, 5]).toTensor)]

/-- A product with the Hessian is refused for its factor, and still brings the blocks. -/
theorem bookkeeping_exact_sample :
    ∃ p m, ContactProblem.sample? = .ok p ∧ build? p = .ok m ∧
      Booked (m.performAll m.makeState sampleRequests).2
        (m.performAll m.makeState
          (sampleRequests ++ [.multiplyHessian (.tensor (Vec.mk .double []).toTensor)])).2
        [.constraintsHessian] := by
  obtain ⟨p, hp, h⟩ := Outcome.exists_of_check (x := ContactProblem.sample?)
    (P := fun p => (build? p).toOption.any fun m =>
      m.answersAll m.makeState
          (sampleRequests ++ [.multiplyHessian (.tensor (Vec.mk .double []).toTensor)]) &&
        (m.replyTo (m.performAll m.makeState (sampleRequests.take 2)).2
          (.setVelocities (.tensor (Vec.mk .double [2, 3, 5]).toTensor))).replaces)
    (by decide +kernel)
  obtain ⟨m, hm, h⟩ := Outcome.exists_of_check h
  obtain ⟨hok, hreplaces⟩ := Bool.and_eq_true_iff.mp h
  have hcut : m.Cut sampleRequests [.multiplyHessian (.tensor (Vec.mk .double []).toTensor)] :=
    ⟨Or.inr ⟨_, _, rfl, hreplaces⟩, by simp [replyTo, Reply.replaces, Command.given?]⟩
  exact ⟨p, m, hp, hm, (bookkeeping_exact hok (List.prefix_refl _)).2.1 _ _ rfl hcut⟩

end Model

end ConvexContact
