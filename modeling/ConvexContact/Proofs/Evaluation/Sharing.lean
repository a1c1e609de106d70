import ConvexContact.Proofs.Evaluation.Locality

/-!
# States shared by several models

A state holds velocities and values, and nothing about the model that these values are of. So one
state can be handed to several models with as many velocities, and what one of them has memorized
the others take for their own (`Shared.answers_for_another`).

What can be relied on is told apart by where values come from. `Shared` keeps the velocities that
were last set, and for each quantity that is up to date the model that has brought it up to date
(`Shared.source`). A model answers a quantity as at a fresh state when whatever the quantity needs
and is up to date was brought up to date by that model itself, however the calls are interleaved and
whatever else the other models have left in the state (`Shared.answers_for_itself`).

Proof shape: the invariant is that each model finds its own values coherent: on any closed set of
quantities that no other model has computed, the state agrees with one that is coherent
(`Model.CoherentOn`). A command through the same model keeps this because evaluations are local:
what is of the set is evaluated as at the coherent state, and anything else is stored elsewhere
(`Model.keeps_memoized`). A command through another model keeps it because what that one stores is
no longer in any set the first one owns (`Shared.Settled.ask`).
-/

namespace ConvexContact

variable {K α β ι : Type}

open Quantity ModelState Evaluation

/-! ## Coherence on some quantities

The state need not be coherent itself. It agrees on the set with one that is, and outside of the set
it may hold whatever other models have left. -/

namespace Model

variable [Arith K] {m : Model K} {v : Vec K} {D E : Set Quantity}
  {s t : ModelState K (Quantity.Value K)}

/-- A state that, for a set of quantities, agrees with one whose memory agrees with velocities. -/
structure CoherentOn (m : Model K) (v : Vec K) (D : Set Quantity)
    (s : ModelState K (Quantity.Value K)) : Prop where
  filled : Filled s
  agrees : ∃ t, Agree D s t ∧ m.Coherent v t

/-- What is up to date in a coherent state has a value. -/
theorem Coherent.filled (h : m.Coherent v s) : Filled s := by
  intro q hq
  obtain ⟨x, hx, -⟩ := h.current q hq
  exact ⟨x, hx⟩

/-- A coherent state is coherent on any set. -/
theorem Coherent.on (h : m.Coherent v s) (D : Set Quantity) : m.CoherentOn v D s :=
  ⟨h.filled, s, .refl D s, h⟩

/-- What a set does not contain may change freely. -/
theorem CoherentOn.of_agree (h : m.CoherentOn v D s) (ht : Filled t) (hagree : Agree D t s) :
    m.CoherentOn v D t := by
  obtain ⟨u, hu, hcoherent⟩ := h.agrees
  exact ⟨ht, u, hagree.trans hu, hcoherent⟩

/-- The velocities are outside of all cells, so they are found. -/
theorem CoherentOn.velocitiesOf (h : m.CoherentOn v D s) : m.velocitiesOf s = .ok v := by
  obtain ⟨t, hagree, ht⟩ := h.agrees
  exact velocitiesOf_eq_ok.mpr
    ⟨hagree.size.trans ht.size, hagree.velocities.trans ht.velocities⟩

/-- A quantity that looks at nothing else is answered with its value. -/
theorem CoherentOn.answer_eq (hm : m.Consistent) {q : Quantity}
    (h : m.CoherentOn v q.closure s) : ((m.eval q).runAt s).1 = m.valueAt v q := by
  obtain ⟨t, hagree, ht⟩ := h.agrees
  rw [((m.local_eval q).reads s t h.filled ht.filled hagree).1, (follows_eval hm q).runs t ht]
  rfl

/-! ## Evaluations that keep states coherent on some quantities -/

/-- An evaluation after which a state is still coherent on a set of quantities. -/
def Keeps (m : Model K) (v : Vec K) (D : Set Quantity) (e : Evaluation K α) : Prop :=
  ∀ s, m.CoherentOn v D s → m.CoherentOn v D (e.runAt s).2

/-- An evaluation that looks at nothing else does what it does at the coherent state. -/
theorem Keeps.of_follows {e : Evaluation K α} {t : Traced K α} (hlocal : Local E e) (hE : E ⊆ D)
    (hfollows : m.Follows v e t) : m.Keeps v D e := by
  intro s hs
  obtain ⟨u, hagree, hu⟩ := hs.agrees
  have hafter := ((hlocal.mono hE).reads s u hs.filled hu.filled hagree).2
  rw [hfollows.runs u hu] at hafter
  exact ⟨hlocal.filled hs.filled, _, hafter, hu.learn hfollows.sound⟩

/-- A step that only reports an outcome leaves the state alone. -/
theorem keeps_lift (x : Except (Error K) α) : m.Keeps v D (Evaluation.lift x) := fun _ hs => hs

theorem keeps_pure (x : α) : m.Keeps v D (pure x : Evaluation K α) := keeps_lift (.ok x)

theorem keeps_velocitiesHere : m.Keeps v D m.velocitiesHere := fun _ hs => hs

/-- Coherence is kept after the first step, from wherever the second one goes on. -/
theorem Keeps.bind {e : Evaluation K α} {f : α → Evaluation K β} (he : m.Keeps v D e)
    (hf : ∀ a, m.Keeps v D (f a)) : m.Keeps v D (e >>= f) := by
  intro s hs
  have hfirst := he s hs
  rcases hrun : e.runAt s with ⟨c | a, t⟩
  · rw [hrun] at hfirst
    rwa [runAt_bind_of_error f hrun]
  · rw [hrun] at hfirst
    rw [runAt_bind_of_ok f hrun]
    exact hf a t hfirst

/-- What is stored elsewhere does no harm. -/
theorem CoherentOn.store (h : m.CoherentOn v D s) {q : Quantity} (hq : q ∉ D)
    (x : Quantity.Value K q) : m.CoherentOn v D (s.store q x) :=
  h.of_agree (h.filled.store q x) (agree_store hq s x)

/-- A quantity of the set is evaluated as at the coherent state. Of any other one only the
computation matters, as its value is stored elsewhere. -/
theorem keeps_memoized {q : Quantity} {compute : Vec K → Evaluation K (Quantity.Value K q)}
    (hm : m.Consistent) (hD : Closed D) (heval : m.eval q = m.memoized q compute)
    (h : q ∉ D → ∀ w, m.Keeps v D (compute w)) : m.Keeps v D (m.eval q) := by
  by_cases hq : q ∈ D
  -- the set is closed, so whatever the quantity looks at is coherent
  · exact .of_follows (m.local_eval q) (hD q hq) (follows_eval hm q)
  · intro s hs
    rw [heval, runAt_memoized, hs.velocitiesOf]
    cases (s.memo.get q).current? with
    | some x => exact hs
    | none =>
      refine (h hq v).bind (fun x t ht => ?_) s hs
      exact ht.store hq x

section Quantities

variable (hm : m.Consistent) (hD : Closed D)
include hm hD

theorem keeps_constraintVelocities : m.Keeps v D (m.eval .constraintVelocities) :=
  keeps_memoized hm hD rfl fun _ _ => keeps_lift _

theorem keeps_momentum : m.Keeps v D (m.eval .momentum) :=
  keeps_memoized hm hD rfl fun _ _ => keeps_lift _

theorem keeps_momentumGain : m.Keeps v D (m.eval .momentumGain) :=
  keeps_memoized hm hD rfl fun _ _ => (keeps_momentum hm hD).bind fun _ => keeps_lift _

theorem keeps_momentumCost : m.Keeps v D (m.eval .momentumCost) :=
  keeps_memoized hm hD rfl fun _ _ => (keeps_lift _).bind fun _ =>
    (keeps_momentumGain hm hD).bind fun _ => keeps_pure _

theorem keeps_unprojectedImpulses : m.Keeps v D (m.eval .unprojectedImpulses) :=
  keeps_memoized hm hD rfl fun _ _ => (keeps_constraintVelocities hm hD).bind fun _ => keeps_lift _

theorem keeps_impulses : m.Keeps v D (m.eval .impulses) :=
  keeps_memoized hm hD rfl fun _ _ => (keeps_unprojectedImpulses hm hD).bind fun _ => keeps_lift _

/-- The impulses that come with the blocks of the Hessian are stored elsewhere, unless they are of
the set themselves. Then all that is looked at is of the set. -/
theorem keeps_constraintsHessian : m.Keeps v D (m.eval .constraintsHessian) := by
  refine keeps_memoized hm hD rfl fun _ _ => ?_
  by_cases himpulses : Quantity.impulses ∈ D
  · have hneeded : (⋃ d ∈ constraintsHessian.needs, d.closure) ⊆ D := by
      refine Set.iUnion₂_subset fun d hd => hD d ?_
      rcases List.mem_cons.mp hd with rfl | hd
      · exact hD _ himpulses (Relation.ReflTransGen.single (by decide))
      · rwa [List.mem_singleton.mp hd]
    exact .of_follows local_jointly hneeded (follows_unprojectedImpulses.bind_of_sound
      (sound_jointly hm) fun y hy s _ => runAt_jointly hm hy s)
  · refine (keeps_unprojectedImpulses hm hD).bind fun y => (keeps_lift _).bind ?_
    rintro ⟨γ, G⟩ s hs
    change m.CoherentOn v D (if (s.memo.get .impulses).valid then s else s.store .impulses γ)
    split_ifs
    · exact hs
    · exact hs.store himpulses γ

theorem keeps_regularizerCost : m.Keeps v D (m.eval .regularizerCost) :=
  keeps_memoized hm hD rfl fun _ _ => (keeps_impulses hm hD).bind fun _ => keeps_pure _

theorem keeps_cost : m.Keeps v D (m.eval .cost) :=
  keeps_memoized hm hD rfl fun _ _ => (keeps_momentumCost hm hD).bind fun _ =>
    (keeps_regularizerCost hm hD).bind fun _ => keeps_pure _

theorem keeps_costGradient : m.Keeps v D (m.eval .costGradient) :=
  keeps_memoized hm hD rfl fun _ _ => (keeps_momentumGain hm hD).bind fun _ =>
    (keeps_impulses hm hD).bind fun _ => keeps_lift _

theorem keeps_hessian : m.Keeps v D (m.eval .hessian) :=
  keeps_memoized hm hD rfl fun _ _ => (keeps_constraintsHessian hm hD).bind fun _ => keeps_lift _

theorem keeps_eval (q : Quantity) : m.Keeps v D (m.eval q) := by
  cases q with
  | constraintVelocities => exact keeps_constraintVelocities hm hD
  | momentum => exact keeps_momentum hm hD
  | momentumGain => exact keeps_momentumGain hm hD
  | momentumCost => exact keeps_momentumCost hm hD
  | unprojectedImpulses => exact keeps_unprojectedImpulses hm hD
  | impulses => exact keeps_impulses hm hD
  | constraintsHessian => exact keeps_constraintsHessian hm hD
  | regularizerCost => exact keeps_regularizerCost hm hD
  | cost => exact keeps_cost hm hD
  | costGradient => exact keeps_costGradient hm hD
  | hessian => exact keeps_hessian hm hD

/-- **Own commands.** A command that sets no velocities keeps a state coherent on any closed set,
whatever other quantities it finds in the memory and uses. -/
theorem keeps_perform {c : Command K} (hc : c.given? = none) : m.Keeps v D (m.perform c) := by
  have heval := keeps_eval (v := v) hm hD
  cases c with
  | setVelocities g => cases hc
  | velocities => exact keeps_velocitiesHere
  | eval q => exact heval q
  | multiplyHessian w =>
    exact (heval .constraintsHessian).bind fun _ => (keeps_lift _).bind fun _ => keeps_lift _
  | summarize =>
    exact (heval .impulses).bind fun _ => (heval .costGradient).bind fun _ =>
      (heval .momentumCost).bind fun _ => (heval .regularizerCost).bind fun _ =>
        (heval .cost).bind fun _ => keeps_pure _

end Quantities

end Model

/-! ## Runs through several models

The state of a run together with where each value in it comes from. The sources are not part of what
is computed; they only serve to say which values a model may rely on. -/

/-- A state in the course of a run of commands through several models. -/
structure Shared (ι K : Type) where
  state : ModelState K (Quantity.Value K)
  /-- the velocities that were last set with success -/
  given? : Option (Given K)
  /-- through which model a quantity that is up to date has been brought up to date -/
  source : Quantity → Option ι

namespace Shared

variable [Arith K] {m : ι → Model K} {σ : Shared ι K} {s t : ModelState K (Quantity.Value K)}

/-- A state for `n` velocities, before any command. -/
def start (n : Int) : Shared ι K := ⟨ModelState.empty n, none, fun _ => none⟩

/-- One command through one of the models. -/
def next (m : ι → Model K) (σ : Shared ι K) (c : ι × Command K) : Shared ι K :=
  let (answer, s) := ((m c.1).perform c.2).runAt σ.state
  { state := s
    given? := if answer.isOk then c.2.given?.or σ.given? else σ.given?
    source := fun q =>
      if (s.memo.get q).valid then
        if (σ.state.memo.get q).valid then σ.source q else some c.1
      else none }

/-- A quantity keeps its source until it goes out of date, or it gets the model that was asked. -/
theorem source_next (c : ι × Command K) (q : Quantity) :
    (next m σ c).source q =
      if ((next m σ c).state.memo.get q).valid then
        if (σ.state.memo.get q).valid then σ.source q else some c.1
      else none := rfl

/-- Commands through several models, one after the other, on one state for `n` velocities. -/
def run (m : ι → Model K) (n : Int) (cs : List (ι × Command K)) : Shared ι K :=
  cs.foldl (next m) (start n)

/-- No model but the given one has brought quantities of a set up to date. -/
def OwnedBy (σ : Shared ι K) (i : ι) (D : Set Quantity) : Prop :=
  ∀ q ∈ D, ∀ j, σ.source q = some j → j = i

/-- A state where velocities `v` have been set. Every model finds it coherent with them, on any
closed set of quantities that no other model has brought up to date. -/
structure Settled (m : ι → Model K) (g : Given K) (v : Vec K) (σ : Shared ι K) : Prop where
  given : σ.given? = some g
  accepted : g.velocities σ.state.size = .ok v
  velocities : σ.state.velocities = some v
  filled : Filled σ.state
  source_isSome : ∀ q, (σ.source q).isSome = (σ.state.memo.get q).valid
  own : ∀ i, (m i).Consistent → σ.state.size = (m i).velocityCount → ∀ D, Closed D →
    σ.OwnedBy i D → (m i).CoherentOn v D σ.state

/-- Something is asked of one of the models, which keeps its own values coherent and leaves the
values of the others alone. -/
theorem Settled.ask {g : Given K} {v : Vec K} (h : Settled m g v σ) {j : ι} {c : Command K}
    (hc : c.given? = none) : Settled m g v (next m σ (j, c)) := by
  have hstate : (next m σ (j, c)).state = (((m j).perform c).runAt σ.state).2 := rfl
  have hlocal := Model.local_perform (m := m j) hc
  obtain ⟨E, -, hrecords⟩ := hlocal.records σ.state h.filled
  have hfilled := hlocal.filled h.filled
  rw [← hstate] at hrecords hfilled
  have hvalid := hrecords.valid_iff
  -- a quantity keeps its source, unless it has just been brought up to date
  have hkept : ∀ q, (σ.state.memo.get q).valid = true →
      (next m σ (j, c)).source q = σ.source q := by
    intro q hq
    rw [source_next, if_pos ((hvalid q).mpr (Or.inl hq)), if_pos hq]
  refine ⟨?_, ?_, ?_, hfilled, fun q => ?_, fun i hi hsize D hD howned => ?_⟩
  · simp only [next, hc, Option.none_or, ite_self, h.given]
  · rw [hrecords.size]
    exact h.accepted
  · rw [hrecords.velocities]
    exact h.velocities
  · rw [source_next]
    cases ((next m σ (j, c)).state.memo.get q).valid with
    | false => rfl
    | true =>
      by_cases hq : (σ.state.memo.get q).valid = true
      · rw [if_pos rfl, if_pos hq, h.source_isSome, hq]
      · rw [if_pos rfl, if_neg hq]
        rfl
  -- sources only ever get added, so what model `i` owns now it owned before
  · have hbefore : σ.OwnedBy i D := by
      intro q hq k hk
      have hq' : (σ.state.memo.get q).valid = true := by rw [← h.source_isSome, hk]; rfl
      exact howned q hq k ((hkept q hq').trans hk)
    have hon := h.own i hi (hrecords.size.symm.trans hsize) D hD hbefore
    by_cases hij : j = i
    · subst hij
      exact Model.keeps_perform hi hD hc σ.state hon
    · refine hon.of_agree hfilled (hrecords.agree fun q hq => ?_)
      -- what another model has just brought up to date is none of the quantities here
      by_contra hcell
      obtain ⟨hqE, hstale⟩ := not_or.mp hcell
      have hsource : (next m σ (j, c)).source q = some j := by
        rw [source_next, if_pos ((hvalid q).mpr (Or.inr (not_not.mp hqE))), if_neg hstale]
      exact hij (howned q hq j hsource)

/-- Where a shared state stands with its models. -/
inductive Agrees (m : ι → Model K) : Shared ι K → Prop where
  | unset (n : Int) : Agrees m (start n)
  | set {σ : Shared ι K} {g : Given K} {v : Vec K} (h : Settled m g v σ) : Agrees m σ

/-- What has a source is what is up to date. -/
theorem Agrees.source_isSome (h : Agrees m σ) (q : Quantity) :
    (σ.source q).isSome = (σ.state.memo.get q).valid := by
  cases h with
  | unset n => exact (Model.valid_empty n q).symm
  | set h => exact h.source_isSome q

/-- A command that is refused leaves everything as it is. -/
theorem Agrees.next_of_error (h : Agrees m σ) {c : ι × Command K} {e : Error K}
    (hrun : ((m c.1).perform c.2).runAt σ.state = (.error e, σ.state)) : Shared.next m σ c = σ := by
  have hsource : (fun q => if (σ.state.memo.get q).valid then
      if (σ.state.memo.get q).valid then σ.source q else some c.1 else none) = σ.source := by
    funext q
    have hq := h.source_isSome q
    cases hvalid : (σ.state.memo.get q).valid with
    | true => rfl
    | false =>
      rw [hvalid, Option.isSome_eq_false_iff, Option.isNone_iff_eq_none] at hq
      exact hq.symm
  simp only [Shared.next, hrun, hsource]
  rfl

/-- Velocities are set through one of the models. -/
theorem Agrees.setVelocities (h : Agrees m σ) (j : ι) (g : Given K) :
    Agrees m (Shared.next m σ (j, .setVelocities g)) := by
  by_cases hsize : σ.state.size = (m j).velocityCount
  · cases hg : g.velocities (m j).velocityCount with
    | error e =>
      have hrun := Model.runAt_setVelocities_of_error hsize hg
      rw [h.next_of_error (c := (j, .setVelocities g)) hrun]
      exact h
    | ok v =>
      have hrun := Model.runAt_setVelocities_of_ok hsize hg
      have hinvalid := Model.valid_replace σ.state v
      have hnext : Shared.next m σ (j, .setVelocities g) =
          ⟨σ.state.replace v, some g, fun _ => none⟩ := by
        simp only [Shared.next, Model.perform, hrun, hinvalid]
        rfl
      rw [hnext]
      -- new velocities put everything out of date, so that no model has values of another one
      refine .set ⟨rfl, hsize ▸ hg, rfl, ?_, fun q => (hinvalid q).symm, fun i _ hi D _ _ => ?_⟩
      · exact fun q hq => absurd (hinvalid q) (by simp [hq])
      · exact (Model.coherent_replace hi v).on D
  · rw [h.next_of_error (c := (j, .setVelocities g)) (Model.perform_foreign hsize _)]
    exact h

/-- **Step.** One command through one of the models keeps the agreement. -/
theorem Agrees.next (h : Agrees m σ) (c : ι × Command K) : Agrees m (Shared.next m σ c) := by
  obtain ⟨j, c⟩ := c
  cases hc : c.given? with
  | some g =>
    obtain rfl := Command.eq_setVelocities hc
    exact h.setVelocities j g
  | none =>
    cases h with
    | set h => exact .set (h.ask hc)
    | unset n =>
      cases hv : (m j).velocitiesOf (start n : Shared ι K).state with
      -- no velocities have been set yet, so every request fails and leaves the state as it is
      | ok w => cases (Model.velocitiesOf_eq_ok.mp hv).2
      | error e =>
        have hstart : Agrees m (start n : Shared ι K) := .unset n
        rw [hstart.next_of_error (c := (j, c)) (Model.perform_of_error hv hc)]
        exact hstart

/-- **Run.** However commands through several models are interleaved, the state agrees. -/
theorem agrees_run (m : ι → Model K) (n : Int) (cs : List (ι × Command K)) :
    Agrees m (run m n cs) := by
  suffices ∀ σ, Agrees m σ → Agrees m (cs.foldl (Shared.next m) σ) from this _ (.unset n)
  induction cs with
  | nil => exact fun σ h => h
  | cons c cs ih => exact fun σ h => ih _ (h.next c)

/-- **A model answers for itself.** -/
theorem answers_for_itself (m : ι → Model K) (n : Int) (cs : List (ι × Command K)) (i : ι)
    (hm : (m i).Consistent) (q : Quantity) (hown : (run m n cs).OwnedBy i q.closure) :
    (∃ e, (m i).velocitiesOf (run m n cs).state = .error e ∧
      ((m i).eval q).runAt (run m n cs).state = (.error e, (run m n cs).state)) ∨
    ∃ g, (run m n cs).given? = some g ∧
      (((m i).eval q).runAt (run m n cs).state).1 = (m i).evalAt (m i).makeState q g := by
  have h := agrees_run m n cs
  generalize run m n cs = σ at h hown ⊢
  cases hvelocities : (m i).velocitiesOf σ.state with
  | error e => exact Or.inl ⟨e, rfl, Model.eval_of_error hvelocities q⟩
  | ok w =>
    obtain ⟨hsize, hw⟩ := Model.velocitiesOf_eq_ok.mp hvelocities
    cases h with
    | unset n => cases hw
    | @set _ g v h =>
      have hon := h.own i hm hsize q.closure (closed_closure q) hown
      have hset := Model.runAt_setVelocities_of_ok (s := (m i).makeState) rfl (hsize ▸ h.accepted)
      refine Or.inr ⟨g, h.given, ?_⟩
      rw [hon.answer_eq hm, Model.evalAt, runAt_bind_of_ok _ hset,
        (Model.follows_eval hm q).runs _ (Model.coherent_replace rfl v)]
      rfl

end Shared

/-! ## Values that are taken over -/

/-- One clique of one velocity and mass `a`, with one constraint. -/
def ContactProblem.massSample? (a : ℚ) (P : Projection ℚ) :
    Except (Error ℚ) (ContactProblem ℚ) := do
  let p ← build? ⟨.double, 1 / 100⟩ [.tensor (.ofSlabs .double [1] [[a]])]
    (.tensor (Vec.mk .double [0]).toTensor)
  let law : Law ℚ :=
    { bias := (Term.fixed (.tensor (Vec.mk .double [0]).toTensor)).side
      regularization := (Term.fixed (.tensor (Vec.mk .double [1]).toTensor)).side }
  let c ← Constraint.build? law P (.tensor (Vec.mk .double [0]).toTensor) 0
    (.tensor (.ofSlabs .double [1] [[1]])) none none
  p.addAll [c]

/-- Impulses as they are, but none where the Jacobian is asked for too. -/
def Projection.undecided : Projection ℚ :=
  .rule fun y _ wanted =>
    some (if wanted then (Vec.zeros y.format y.size, some (Mat.identity y.format y.size))
      else (y, none))

namespace Shared

/-- One velocity. -/
def sampleVelocity : Given ℚ := .tensor (Vec.mk .double [3]).toTensor

/-- Two models share a state. The velocity is set and a quantity is evaluated, through the first. -/
def sampleRun (m m' : Model ℚ) (q : Quantity) : Shared Bool ℚ :=
  run (fun second => if second then m' else m) m.velocityCount
    [(false, .setVelocities sampleVelocity), (false, .eval q)]

/-- **Answers for another model.** Two models with one velocity each, of masses 4 and 9, share a
state. Once the momentum has been evaluated through the first, the second answers with `4·3`, where
its own momentum is `9·3`. Nor does a model that has the state for itself answer with the value at
its velocities, when its projection is not consistent. -/
theorem answers_for_another :
    (∃ p p' m m', ContactProblem.massSample? 4 .nonneg = .ok p ∧
      ContactProblem.massSample? 9 .nonneg = .ok p' ∧ Model.build? p = .ok m ∧
      Model.build? p' = .ok m' ∧ m.velocityCount = m'.velocityCount ∧
      ((m'.eval .momentum).runAt (sampleRun m m' .momentum).state).1 = .ok (Vec.mk .double [12]) ∧
      m'.evalAt m'.makeState .momentum sampleVelocity = .ok (Vec.mk .double [27])) ∧
    ∃ p m, ContactProblem.massSample? 4 .undecided = .ok p ∧ Model.build? p = .ok m ∧
      ((m.eval .impulses).runAt (sampleRun m m .constraintsHessian).state).1 =
        .ok (Vec.mk .double [0]) ∧
      m.evalAt m.makeState .impulses sampleVelocity = .ok (Vec.mk .double [-3]) := by
  constructor
  · obtain ⟨p, hp, h⟩ := Outcome.exists_of_check (x := ContactProblem.massSample? 4 .nonneg)
      (P := fun p => (ContactProblem.massSample? 9 .nonneg).toOption.any fun p' =>
        (Model.build? p).toOption.any fun m => (Model.build? p').toOption.any fun m' =>
          m.velocityCount == m'.velocityCount &&
          (((m'.eval .momentum).runAt (sampleRun m m' .momentum).state).1.toOption.any
            (· == Vec.mk .double [12]) &&
          (m'.evalAt m'.makeState .momentum sampleVelocity).toOption.any
            (· == Vec.mk .double [27]))) (by decide +kernel)
    obtain ⟨p', hp', h⟩ := Outcome.exists_of_check h
    obtain ⟨m, hm, h⟩ := Outcome.exists_of_check h
    obtain ⟨m', hm', h⟩ := Outcome.exists_of_check h
    obtain ⟨hcount, h⟩ := Bool.and_eq_true_iff.mp h
    obtain ⟨htaken, hown⟩ := Bool.and_eq_true_iff.mp h
    obtain ⟨x, hx, hx12⟩ := Outcome.exists_of_check htaken
    obtain ⟨y, hy, hy27⟩ := Outcome.exists_of_check hown
    obtain rfl := eq_of_beq hx12
    obtain rfl := eq_of_beq hy27
    exact ⟨p, p', m, m', hp, hp', hm, hm', eq_of_beq hcount, hx, hy⟩
  · obtain ⟨p, hp, h⟩ := Outcome.exists_of_check (x := ContactProblem.massSample? 4 .undecided)
      (P := fun p => (Model.build? p).toOption.any fun m =>
        ((m.eval .impulses).runAt (sampleRun m m .constraintsHessian).state).1.toOption.any
          (· == Vec.mk .double [0]) &&
        (m.evalAt m.makeState .impulses sampleVelocity).toOption.any
          (· == Vec.mk .double [-3])) (by decide +kernel)
    obtain ⟨m, hm, h⟩ := Outcome.exists_of_check h
    obtain ⟨hmemory, hown⟩ := Bool.and_eq_true_iff.mp h
    obtain ⟨x, hx, hx0⟩ := Outcome.exists_of_check hmemory
    obtain ⟨y, hy, hy3⟩ := Outcome.exists_of_check hown
    obtain rfl := eq_of_beq hx0
    obtain rfl := eq_of_beq hy3
    exact ⟨p, m, hp, hm, hx, hy⟩

/-- After the first model has evaluated the momentum, the second one answers for itself what does
not need it. -/
theorem answers_for_itself_sample :
    ∃ p p' m m' g, ContactProblem.massSample? 4 .nonneg = .ok p ∧
      ContactProblem.massSample? 9 .nonneg = .ok p' ∧ Model.build? p = .ok m ∧
      Model.build? p' = .ok m' ∧ (sampleRun m m' .momentum).source .momentum = some false ∧
      (sampleRun m m' .momentum).given? = some g ∧
      ((m'.eval .impulses).runAt (sampleRun m m' .momentum).state).1 =
        m'.evalAt m'.makeState .impulses g := by
  obtain ⟨p, hp, h⟩ := Outcome.exists_of_check (x := ContactProblem.massSample? 4 .nonneg)
    (P := fun p => (ContactProblem.massSample? 9 .nonneg).toOption.any fun p' =>
      (Model.build? p).toOption.any fun m => (Model.build? p').toOption.any fun m' =>
        (sampleRun m m' .momentum).source .momentum == some false &&
        ((Quantity.all.all fun q =>
          q == .momentum || (sampleRun m m' .momentum).source q == none) &&
        ((m'.velocitiesOf (sampleRun m m' .momentum).state).isOk &&
        m'.stack.members.all fun c => !c.projection.isRule))) (by decide +kernel)
  obtain ⟨p', hp', h⟩ := Outcome.exists_of_check h
  obtain ⟨m, hm, h⟩ := Outcome.exists_of_check h
  obtain ⟨m', hm', h⟩ := Outcome.exists_of_check h
  simp only [Bool.and_eq_true, Bool.or_eq_true, beq_iff_eq, List.all_eq_true] at h
  obtain ⟨hfirst, hothers, hok, hnamed⟩ := h
  have hown : (sampleRun m m' .momentum).OwnedBy true Quantity.impulses.closure := by
    intro q hq j hj
    rcases hothers q q.mem_all with rfl | hnone
    · simp [closure_eq .impulses, closure_eq .unprojectedImpulses, closure_eq .constraintVelocities,
        needs] at hq
    · rw [hnone] at hj
      cases hj
  have hconsistent : m'.Consistent := Model.consistent_of_named (List.all_eq_true.mpr hnamed)
  have hanswer := answers_for_itself (fun second => if second then m' else m) m.velocityCount
    [(false, .setVelocities sampleVelocity), (false, .eval .momentum)] true hconsistent .impulses
  rw [sampleRun] at hown hok hfirst
  rcases hanswer hown with ⟨e, he, -⟩ | ⟨g, hg, hanswer⟩
  · rw [if_pos rfl] at he
    rw [he] at hok
    cases hok
  · rw [if_pos rfl] at hanswer
    exact ⟨p, p', m, m', g, hp, hp', hm, hm', hfirst, hg, hanswer⟩

end Shared

end ConvexContact
