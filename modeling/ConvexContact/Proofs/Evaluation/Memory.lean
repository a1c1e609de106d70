import ConvexContact.Proofs.Evaluation.Trace

/-!
# What an evaluation memorizes

A state is **coherent** with velocities when it holds them, when every cell that is up to date holds
the value of its quantity at these velocities, and when the dependencies of such a cell are up to
date as well. At a coherent state an evaluation does two things and no more (`Model.Follows`):

* it answers with the value its quantity has at the velocities, whatever is memorized;
* it memorizes what is completed on the way and is not up to date yet (`Model.learn`).

`Follows` is proved once for each way to build an evaluation, and then for every quantity. The one
quantity that needs an assumption is the list of blocks of the Hessian, which memorizes the impulses
that come with them: projections have to make the same impulses with and without their Jacobian.

Proof shape: what an evaluation leaves is never described cell by cell, but as the state before with
a list of quantities learnt. Learning composes (`Model.learn_append`), is a matter of sets
(`Model.learn_congr`) and keeps coherence (`Model.Coherent.learn`). The case that carries the file
is `Model.Follows.memoized`: a hit learns nothing because the dependencies of a valid cell are
valid, and a miss learns what its computation completes and then itself.
-/

namespace ConvexContact

variable {K α β : Type}

/-! ## Evaluations at a state

Evaluations are run at a state by `runAt`, which unfolds the layers of errors and of states once.
What comes after uses the equations for the ways to build an evaluation. -/

namespace Evaluation

/-- What an evaluation answers at a state, with the state it leaves. -/
def runAt (e : Evaluation K α) (s : ModelState K (Quantity.Value K)) :
    Except (Error K) α × ModelState K (Quantity.Value K) :=
  e.run.run s

@[simp] theorem runAt_pure (x : α) (s : ModelState K (Quantity.Value K)) :
    (pure x : Evaluation K α).runAt s = (.ok x, s) := rfl

@[simp] theorem runAt_lift (x : Except (Error K) α) (s : ModelState K (Quantity.Value K)) :
    (lift x).runAt s = (x, s) := rfl

@[simp] theorem runAt_get (s : ModelState K (Quantity.Value K)) :
    (get : Evaluation K _).runAt s = (.ok s, s) := rfl

@[simp] theorem runAt_set (s t : ModelState K (Quantity.Value K)) :
    (set t : Evaluation K PUnit).runAt s = (.ok ⟨⟩, t) := rfl

@[simp] theorem runAt_modify (f : ModelState K (Quantity.Value K) → ModelState K (Quantity.Value K))
    (s : ModelState K (Quantity.Value K)) :
    (modify f : Evaluation K PUnit).runAt s = (.ok ⟨⟩, f s) := rfl

/-- What comes after an error does not run, and the state that led to it stays. -/
theorem runAt_bind (e : Evaluation K α) (f : α → Evaluation K β)
    (s : ModelState K (Quantity.Value K)) :
    (e >>= f).runAt s =
      match e.runAt s with
      | (.ok a, t) => (f a).runAt t
      | (.error c, t) => (.error c, t) := by
  change (ExceptT.run (e >>= f)).run s = _
  rw [ExceptT.run_bind]
  simp only [StateT.run_bind, Evaluation.runAt]
  rcases StateT.run (ExceptT.run e) s with ⟨c | a, t⟩ <;> rfl

theorem runAt_bind_of_ok {e : Evaluation K α} {s t : ModelState K (Quantity.Value K)} {a : α}
    (f : α → Evaluation K β) (h : e.runAt s = (.ok a, t)) : (e >>= f).runAt s = (f a).runAt t := by
  simp only [runAt_bind, h]

theorem runAt_bind_of_error {e : Evaluation K α} {s t : ModelState K (Quantity.Value K)}
    {c : Error K} (f : α → Evaluation K β) (h : e.runAt s = (.error c, t)) :
    (e >>= f).runAt s = (.error c, t) := by
  simp only [runAt_bind, h]

/-- Two steps in a row succeed when the first one does, and the second one does from there. -/
theorem runAt_bind_eq_ok {e : Evaluation K α} {f : α → Evaluation K β}
    {s t : ModelState K (Quantity.Value K)} {b : β} (h : (e >>= f).runAt s = (.ok b, t)) :
    ∃ a u, e.runAt s = (.ok a, u) ∧ (f a).runAt u = (.ok b, t) := by
  rcases he : e.runAt s with ⟨c | a, u⟩
  · rw [runAt_bind_of_error f he] at h
    cases h
  · rw [runAt_bind_of_ok f he] at h
    exact ⟨a, u, rfl, h⟩

end Evaluation

namespace MemoCell

/-- Stores a value in a cell that is out of date. -/
def learn (cell : MemoCell α) (x : Except (Error K) α) : MemoCell α :=
  match cell.valid, x with
  | false, .ok a => cell.set a
  | _, _ => cell

theorem learn_of_valid {cell : MemoCell α} (h : cell.valid = true) (x : Except (Error K) α) :
    cell.learn x = cell := by
  simp only [learn, h]

theorem learn_ok_of_invalid {cell : MemoCell α} (h : cell.valid = false) (a : α) :
    cell.learn (.ok a : Except (Error K) α) = cell.set a := by
  simp only [learn, h]

/-- A cell that was learnt is not learnt again. -/
theorem learn_learn (cell : MemoCell α) (x : Except (Error K) α) :
    (cell.learn x).learn x = cell.learn x := by
  unfold learn
  rcases cell with ⟨value, _ | _, updates⟩ <;> rcases x with e | a <;> rfl

/-- Learning a value makes a cell valid. -/
theorem valid_learn_ok (cell : MemoCell α) (a : α) :
    (cell.learn (.ok a : Except (Error K) α)).valid = true := by
  cases h : cell.valid with
  | true => rw [learn_of_valid h, h]
  | false =>
    rw [learn_ok_of_invalid h]
    rfl

/-- Learning never makes a cell invalid. -/
theorem valid_learn_of_valid {cell : MemoCell α} (h : cell.valid = true)
    (x : Except (Error K) α) : (cell.learn x).valid = true := by
  rw [learn_of_valid h, h]

end MemoCell

namespace ModelState

/-- States with the same velocities and the same cells are equal. -/
theorem ext_get {s t : ModelState K (Quantity.Value K)} (hsize : s.size = t.size)
    (hv : s.velocities = t.velocities) (h : ∀ q, s.memo.get q = t.memo.get q) : s = t := by
  obtain ⟨size, velocities, memo⟩ := s
  obtain ⟨size', velocities', memo'⟩ := t
  obtain rfl : size = size' := hsize
  obtain rfl : velocities = velocities' := hv
  obtain rfl : memo = memo' := MemoTable.ext_get h
  rfl

end ModelState

namespace Model

variable [Arith K] {m : Model K} {v : Vec K}

/-! ## Learning

What an evaluation leaves is the state before it with a list of quantities learnt. A cell that is up
to date is left alone, so learning something twice is learning it once. -/

/-- A state after some quantities have been memorized: those of the list that have a value at the
velocities and were not up to date. -/
def learn (m : Model K) (v : Vec K) (D : List Quantity)
    (s : ModelState K (Quantity.Value K)) : ModelState K (Quantity.Value K) :=
  { s with
    memo := MemoTable.ofFn fun q =>
      if q ∈ D then (s.memo.get q).learn (m.valueAt v q) else s.memo.get q }

@[simp] theorem velocities_learn (D : List Quantity) (s : ModelState K (Quantity.Value K)) :
    (m.learn v D s).velocities = s.velocities := rfl

@[simp] theorem size_learn (D : List Quantity) (s : ModelState K (Quantity.Value K)) :
    (m.learn v D s).size = s.size := rfl

theorem get_learn_of_mem {D : List Quantity} {q : Quantity} (h : q ∈ D)
    (s : ModelState K (Quantity.Value K)) :
    (m.learn v D s).memo.get q = (s.memo.get q).learn (m.valueAt v q) := by
  simp [learn, h]

theorem get_learn_of_notMem {D : List Quantity} {q : Quantity} (h : q ∉ D)
    (s : ModelState K (Quantity.Value K)) :
    (m.learn v D s).memo.get q = s.memo.get q := by
  simp [learn, h]

@[simp] theorem learn_nil (s : ModelState K (Quantity.Value K)) : m.learn v [] s = s :=
  ModelState.ext_get rfl rfl fun q => get_learn_of_notMem (by simp) s

/-- Quantities are learnt one list after the other. -/
theorem learn_append (D E : List Quantity) (s : ModelState K (Quantity.Value K)) :
    m.learn v (D ++ E) s = m.learn v E (m.learn v D s) := by
  refine ModelState.ext_get rfl rfl fun q => ?_
  by_cases hD : q ∈ D <;> by_cases hE : q ∈ E
  -- a quantity of both lists is learnt the first time only
  · rw [get_learn_of_mem (by simp [hD]), get_learn_of_mem hE, get_learn_of_mem hD,
      MemoCell.learn_learn]
  · rw [get_learn_of_mem (by simp [hD]), get_learn_of_notMem hE, get_learn_of_mem hD]
  · rw [get_learn_of_mem (by simp [hE]), get_learn_of_mem hE, get_learn_of_notMem hD]
  · rw [get_learn_of_notMem (by simp [hD, hE]), get_learn_of_notMem hE, get_learn_of_notMem hD]

/-- What is learnt is a set of quantities, their order and repetitions do not matter. -/
theorem learn_congr {D E : List Quantity} (h : ∀ q, q ∈ D ↔ q ∈ E)
    (s : ModelState K (Quantity.Value K)) : m.learn v D s = m.learn v E s := by
  refine ModelState.ext_get rfl rfl fun q => ?_
  by_cases hD : q ∈ D
  · rw [get_learn_of_mem hD, get_learn_of_mem ((h q).mp hD)]
  · rw [get_learn_of_notMem hD, get_learn_of_notMem fun hE => hD ((h q).mpr hE)]

/-- Nothing is learnt where everything is up to date. -/
theorem learn_of_valid {D : List Quantity} {s : ModelState K (Quantity.Value K)}
    (h : ∀ q ∈ D, (s.memo.get q).valid = true) : m.learn v D s = s := by
  refine ModelState.ext_get rfl rfl fun q => ?_
  by_cases hq : q ∈ D
  · rw [get_learn_of_mem hq, MemoCell.learn_of_valid (h q hq)]
  · exact get_learn_of_notMem hq s

/-- Storing the value of a quantity that is out of date is learning it. -/
theorem learn_singleton {q : Quantity} {s : ModelState K (Quantity.Value K)}
    {x : Quantity.Value K q} (hx : m.valueAt v q = .ok x) (h : (s.memo.get q).valid = false) :
    m.learn v [q] s = s.store q x := by
  refine ModelState.ext_get rfl rfl fun r => ?_
  by_cases hr : r = q
  · subst hr
    rw [get_learn_of_mem (by simp), hx, MemoCell.learn_ok_of_invalid h]
    simp [ModelState.store, MemoTable.set]
  · rw [get_learn_of_notMem (by simpa using hr)]
    simp [ModelState.store, MemoTable.set, MemoTable.get_put_of_ne, hr]

/-! ## Coherent states

The dependencies of a valid cell are part of coherence. Without them a hit could answer correctly
and yet leave less memorized than its trace completes. -/

/-- A state whose memory agrees with velocities. -/
structure Coherent (m : Model K) (v : Vec K) (s : ModelState K (Quantity.Value K)) : Prop where
  size : s.size = m.velocityCount
  velocities : s.velocities = some v
  /-- what is up to date is the value at the velocities -/
  current : ∀ q, (s.memo.get q).valid = true →
    ∃ x, (s.memo.get q).value = some x ∧ m.valueAt v q = .ok x
  /-- what is up to date has its dependencies up to date -/
  closed : ∀ q, (s.memo.get q).valid = true →
    ∀ r ∈ m.completedAt v q, (s.memo.get r).valid = true

/-- A list of quantities that have values, with all their dependencies. -/
def Sound (m : Model K) (v : Vec K) (D : List Quantity) : Prop :=
  ∀ q ∈ D, (∃ x, m.valueAt v q = .ok x) ∧ ∀ r ∈ m.completedAt v q, r ∈ D

theorem Sound.nil : m.Sound v [] := fun _ h => absurd h (by simp)

/-- Each part has its own dependencies in the joined list. -/
theorem Sound.append {D E : List Quantity} (hD : m.Sound v D) (hE : m.Sound v E) :
    m.Sound v (D ++ E) := by
  intro q hq
  rcases List.mem_append.mp hq with hq | hq
  · obtain ⟨hx, hdep⟩ := hD q hq
    exact ⟨hx, fun r hr => List.mem_append_left E (hdep r hr)⟩
  · obtain ⟨hx, hdep⟩ := hE q hq
    exact ⟨hx, fun r hr => List.mem_append_right D (hdep r hr)⟩

/-- Coherence survives learning. -/
theorem Coherent.learn {s : ModelState K (Quantity.Value K)} (h : m.Coherent v s)
    {D : List Quantity} (hD : m.Sound v D) : m.Coherent v (m.learn v D s) := by
  -- a cell is up to date afterwards if it was before or is among those learnt
  have hvalid : ∀ q, ((m.learn v D s).memo.get q).valid = true →
      q ∈ D ∨ (s.memo.get q).valid = true := by
    intro q hq
    by_cases hmem : q ∈ D
    · exact Or.inl hmem
    · rw [get_learn_of_notMem hmem] at hq
      exact Or.inr hq
  have hgrow : ∀ q, (s.memo.get q).valid = true →
      ((m.learn v D s).memo.get q).valid = true := by
    intro q hq
    by_cases hmem : q ∈ D
    · rw [get_learn_of_mem hmem]
      exact MemoCell.valid_learn_of_valid hq _
    · rw [get_learn_of_notMem hmem]
      exact hq
  have hlearnt : ∀ q ∈ D, ((m.learn v D s).memo.get q).valid = true := by
    intro q hq
    obtain ⟨⟨x, hx⟩, -⟩ := hD q hq
    rw [get_learn_of_mem hq, hx]
    exact MemoCell.valid_learn_ok _ x
  refine ⟨h.size, h.velocities, ?_, ?_⟩
  · intro q hq
    cases hold : (s.memo.get q).valid with
    | true =>
      obtain ⟨x, hvalue, hx⟩ := h.current q hold
      refine ⟨x, ?_, hx⟩
      by_cases hmem : q ∈ D
      · rw [get_learn_of_mem hmem, MemoCell.learn_of_valid hold, hvalue]
      · rw [get_learn_of_notMem hmem, hvalue]
    | false =>
      have hmem : q ∈ D := by
        rcases hvalid q hq with hmem | hold'
        · exact hmem
        · rw [hold] at hold'
          cases hold'
      obtain ⟨⟨x, hx⟩, -⟩ := hD q hmem
      refine ⟨x, ?_, hx⟩
      rw [get_learn_of_mem hmem, hx, MemoCell.learn_ok_of_invalid hold]
      rfl
  · intro q hq r hr
    rcases hvalid q hq with hmem | hold
    · exact hlearnt r ((hD q hmem).2 r hr)
    · exact hgrow r (h.closed q hold r hr)

/-! ## Evaluations that follow a trace

By the way an evaluation is built: an outcome, two steps, a memorized quantity. In the last case the
cell is the only thing that decides between hit and miss. -/

/-- At coherent states an evaluation answers with the outcome of a trace, and what it memorizes is
what the trace completes. -/
structure Follows (m : Model K) (v : Vec K) (e : Evaluation K α) (t : Traced K α) : Prop where
  sound : m.Sound v t.completed
  runs : ∀ s, m.Coherent v s → e.runAt s = (t.outcome, m.learn v t.completed s)

/-- A step that only reports an outcome completes nothing. -/
theorem follows_lift (x : Except (Error K) α) :
    m.Follows v (Evaluation.lift x) (Traced.ofOutcome x) := by
  refine ⟨Sound.nil, fun s _ => ?_⟩
  rw [Evaluation.runAt_lift, Traced.completed_ofOutcome, learn_nil]
  rfl

theorem follows_pure (x : α) :
    m.Follows v (pure x : Evaluation K α) (Traced.ofOutcome (.ok x)) :=
  follows_lift (.ok x)

/-- A second step may complete a quantity whose dependencies the first one has completed, so what
both complete has to be sound only together. -/
theorem Follows.bind_of_sound {e : Evaluation K α} {t : Traced K α} {f : α → Evaluation K β}
    {g : α → Traced K β} (he : m.Follows v e t) (hsound : m.Sound v (t.andThen g).completed)
    (hf : ∀ a, t.outcome = .ok a → ∀ s, m.Coherent v s →
      (f a).runAt s = ((g a).outcome, m.learn v (g a).completed s)) :
    m.Follows v (e >>= f) (t.andThen g) := by
  refine ⟨hsound, fun s hs => ?_⟩
  have hrun := he.runs s hs
  cases ht : t.outcome with
  | error c =>
    rw [ht] at hrun
    rw [Traced.andThen_of_error g ht, Evaluation.runAt_bind_of_error f hrun]
  | ok a =>
    rw [ht] at hrun
    rw [Traced.andThen_of_ok g ht, Evaluation.runAt_bind_of_ok f hrun,
      hf a ht _ (hs.learn he.sound), learn_append]

/-- Two steps that follow traces follow the traces joined. After an error in the first one there is
no second one, and then only what the first one completes has to be sound. -/
theorem Follows.bind {e : Evaluation K α} {t : Traced K α} {f : α → Evaluation K β}
    {g : α → Traced K β} (he : m.Follows v e t)
    (hf : ∀ a, t.outcome = .ok a → m.Follows v (f a) (g a)) :
    m.Follows v (e >>= f) (t.andThen g) := by
  refine he.bind_of_sound ?_ fun a ha s hs => (hf a ha).runs s hs
  cases ht : t.outcome with
  | error c =>
    rw [Traced.andThen_of_error g ht]
    exact he.sound
  | ok a =>
    rw [Traced.andThen_of_ok g ht]
    exact he.sound.append (hf a ht).sound

/-- A coherent state has its velocities, and is of the right size for the model. -/
theorem velocitiesHere_of_coherent {s : ModelState K (Quantity.Value K)} (hs : m.Coherent v s) :
    m.velocitiesHere.runAt s = (.ok v, s) := by
  have hv : m.velocitiesOf s = .ok v := by
    simp [velocitiesOf, checkSize, hs.size, hs.velocities, bind, Except.bind]
  rw [velocitiesHere, Evaluation.runAt_bind_of_ok _ (Evaluation.runAt_get s), Evaluation.runAt_lift,
    hv]

/-- **Hit.** The value of a cell that is up to date is the answer, and nothing changes. -/
theorem memoized_hit {q : Quantity} {s : ModelState K (Quantity.Value K)} (hs : m.Coherent v s)
    {x : Quantity.Value K q} (hvalid : (s.memo.get q).valid = true)
    (hx : (s.memo.get q).value = some x)
    (compute : Vec K → Evaluation K (Quantity.Value K q)) :
    (m.memoized q compute).runAt s = (.ok x, s) := by
  have hcell : (s.memo.get q).current? = some x := by simp [MemoCell.current?, hvalid, hx]
  rw [memoized, Evaluation.runAt_bind_of_ok _ (velocitiesHere_of_coherent hs),
    Evaluation.runAt_bind_of_ok _ (Evaluation.runAt_get s), hcell]
  rfl

/-- **Miss.** A cell that is out of date has its value computed, and stored if there is one. -/
theorem memoized_miss {q : Quantity} {s : ModelState K (Quantity.Value K)} (hs : m.Coherent v s)
    (hvalid : (s.memo.get q).valid = false)
    (compute : Vec K → Evaluation K (Quantity.Value K q)) :
    (m.memoized q compute).runAt s =
      match (compute v).runAt s with
      | (.ok x, t) => (.ok x, t.store q x)
      | (.error c, t) => (.error c, t) := by
  have hcell : (s.memo.get q).current? = none := by simp [MemoCell.current?, hvalid]
  rw [memoized, Evaluation.runAt_bind_of_ok _ (velocitiesHere_of_coherent hs),
    Evaluation.runAt_bind_of_ok _ (Evaluation.runAt_get s), hcell]
  simp only [Evaluation.runAt_bind]
  rcases (compute v).runAt s with ⟨c | x, t⟩ <;> rfl

/-- A memorized quantity follows the trace of its computation with itself completed at the end,
provided that its computation does not complete it already. -/
theorem Follows.memoized {q : Quantity} {compute : Vec K → Evaluation K (Quantity.Value K q)}
    {t : Traced K (Quantity.Value K q)} (h : m.Follows v (compute v) t)
    (htrace : m.trace v q = t.completing q) (hnew : q ∉ t.completed) :
    m.Follows v (m.memoized q compute) (m.trace v q) := by
  have hvalue : m.valueAt v q = t.outcome := by rw [valueAt, htrace, Traced.outcome_completing]
  have hsound : m.Sound v (m.trace v q).completed := by
    cases ht : t.outcome with
    | error c => simpa only [htrace, Traced.completing_of_error q ht] using h.sound
    | ok x =>
      have hlist : (m.trace v q).completed = t.completed ++ [q] := by
        rw [htrace, Traced.completed_completing_of_ok q ht]
      intro r hr
      rw [hlist] at hr
      rcases List.mem_append.mp hr with hr | hr
      · obtain ⟨hval, hdep⟩ := h.sound r hr
        exact ⟨hval, fun r' hr' => by rw [hlist]; exact List.mem_append_left _ (hdep r' hr')⟩
      · obtain rfl : r = q := by simpa using hr
        exact ⟨⟨x, hvalue.trans ht⟩, fun r' hr' => hr'⟩
  refine ⟨hsound, fun s hs => ?_⟩
  cases hvalid : (s.memo.get q).valid with
  | true =>
    obtain ⟨x, hx, hval⟩ := hs.current q hvalid
    -- a hit: all that the trace completes is up to date already, so nothing would be learnt
    have hsame : m.learn v (m.trace v q).completed s = s := learn_of_valid (hs.closed q hvalid)
    rw [memoized_hit hs hvalid hx, hsame]
    exact congrArg (·, s) hval.symm
  | false =>
    rw [memoized_miss hs hvalid, h.runs s hs]
    cases ht : t.outcome with
    | error c =>
      rw [htrace, Traced.completing_of_error q ht, ht]
    | ok x =>
      -- a miss: the computation has not stored the quantity itself, so there is something to learn
      have hstill : ((m.learn v t.completed s).memo.get q).valid = false := by
        rw [get_learn_of_notMem hnew, hvalid]
      rw [htrace, Traced.outcome_completing, Traced.completed_completing_of_ok q ht, learn_append,
        learn_singleton (hvalue.trans ht) hstill, ht]

end Model

end ConvexContact
