import ConvexContact.Proofs.Problem
import ConvexContact.Proofs.Evaluation.Quantities
import ConvexContact.Model.Summary

/-!
# Sessions

A session is a run of commands on one state of a model: velocities are set and read, quantities are
evaluated, the Hessian is multiplied, the model is summarized, in any order, and any of these may
fail. A session keeps the velocities it was last given (`Session.given?`), so the state could be
made afresh from them (`Model.fresh`).

Proof shape: the invariant is `Session.Agrees`, that the state is untouched or coherent with the
velocities last given. One command keeps it (`Session.Agrees.next`), since setting velocities makes
a coherent state and every other command follows a trace (`Model.exists_follows_perform`); a whole
session keeps it by induction (`Session.agrees_run`). A session and its fresh state are both
coherent with the same velocities, and what a command answers depends on these alone.

Main statement: `Session.memory_is_fresh`. What a session has memorized, and what the next command
answers, is what the fresh state would say; nothing is left of earlier velocities.
-/

namespace ConvexContact

variable {K : Type}

/-! ## Commands -/

/-- What can be asked of a model at a state. -/
inductive Command (K : Type) where
  | setVelocities (v : Given K)
  | velocities
  | eval (q : Quantity)
  | multiplyHessian (w : Given K)
  | summarize

/-- What the answer to a command is. -/
abbrev Command.Answer : Command K → Type
  | setVelocities _ => Unit
  | velocities | multiplyHessian _ => Vec K
  | eval q => Quantity.Value K q
  | summarize => Summary K

/-- The velocities that a command sets, if it does. -/
def Command.given? : Command K → Option (Given K)
  | setVelocities v => some v
  | velocities | eval _ | multiplyHessian _ | summarize => none

/-- Only one command sets velocities. -/
theorem Command.eq_setVelocities {c : Command K} {g : Given K} (h : c.given? = some g) :
    c = .setVelocities g := by
  cases c with
  | setVelocities v => exact congrArg _ (Option.some.inj h)
  | velocities | eval _ | multiplyHessian _ | summarize => cases h

variable [Arith K]

/-- A command as an evaluation. -/
def Model.perform (m : Model K) : (c : Command K) → Evaluation K c.Answer
  | .setVelocities v => m.setVelocities v
  | .velocities => m.velocitiesHere
  | .eval q => m.eval q
  | .multiplyHessian w => m.multiplyHessian w
  | .summarize => m.summarize

/-- A quantity at state `s`, once the velocities there have been set. -/
def Model.evalAt (m : Model K) (s : ModelState K (Quantity.Value K)) (q : Quantity)
    (g : Given K) : Except (Error K) (Quantity.Value K q) :=
  ((do m.setVelocities g; m.eval q : Evaluation K (Quantity.Value K q)).runAt s).1

/-- A state that nothing has been asked of, with velocities if they are given. -/
def Model.fresh (m : Model K) : Option (Given K) → ModelState K (Quantity.Value K)
  | none => m.makeState
  | some v => ((m.setVelocities v).runAt m.makeState).2

/-- A state in the course of a session. -/
structure Session (K : Type) where
  state : ModelState K (Quantity.Value K)
  /-- the velocities that were last set with success -/
  given? : Option (Given K)

namespace Session

/-- The session before any command. -/
def start (m : Model K) : Session K := ⟨m.makeState, none⟩

/-- One command. A command that fails sets no velocities, but keeps what it memorized. -/
def next (m : Model K) (σ : Session K) (c : Command K) : Session K :=
  let (answer, s) := (m.perform c).runAt σ.state
  ⟨s, if answer.isOk then c.given?.or σ.given? else σ.given?⟩

/-- A session of some commands, one after the other. -/
def run (m : Model K) (cs : List (Command K)) : Session K := cs.foldl (next m) (start m)

end Session

/-! ## Velocities that are set

Velocities are accepted for their shape and length alone. What the state holds plays no part in it,
so a session and a fresh state accept the same ones. -/

omit [Arith K] in
/-- The vector that a caller hands over as `n` velocities. -/
def Given.velocities (n : Int) : Given K → Except (Error K) (Vec K)
  | .nested t => .error (.velocitiesNotATensor t.format t.rank)
  | .tensor t =>
    match Vec.ofTensor? t with
    | none => .error (.velocityShape n t.shape)
    | some v => if (v.size : Int) ≠ n then .error (.velocityShape n t.shape) else .ok v

omit [Arith K] in
/-- Velocities that are accepted are as many as they should be. -/
theorem Given.size_of_velocities {g : Given K} {n : Int} {v : Vec K}
    (h : g.velocities n = .ok v) : (v.size : Int) = n := by
  unfold velocities at h
  split at h
  · cases h
  · split at h
    · cases h
    · split at h
      · cases h
      · rename_i hsize
        rw [← Except.ok.inj h]
        exact not_not.mp hsize

omit [Arith K] in
/-- A vector of the right length is accepted as it is. -/
theorem Given.velocities_toTensor {v : Vec K} {n : Nat} (h : v.size = n) :
    (Given.tensor v.toTensor).velocities n = .ok v := by
  simp [velocities, h]

omit [Arith K] in
/-- Whether velocities are refused does not depend on what a state holds. -/
theorem ModelState.setVelocities_eq (s : ModelState K (Quantity.Value K)) (g : Given K) :
    s.setVelocities g = s.replace <$> g.velocities s.size := by
  cases g with
  | nested t => rfl
  | tensor t =>
    simp only [ModelState.setVelocities, Given.velocities]
    cases Vec.ofTensor? t with
    | none => rfl
    | some v =>
      by_cases hv : (v.size : Int) = s.size
      · simp only [hv, ne_eq, not_true_eq_false, if_false]
        rfl
      · simp only [hv, ne_eq, not_false_eq_true, if_true]
        rfl

namespace Model

variable {m : Model K} {v : Vec K} {g : Given K} {s : ModelState K (Quantity.Value K)}

omit [Arith K] in
/-- On a state of the right size velocities are accepted or refused for what they are, and a state
that refuses them stays as it is. -/
theorem runAt_setVelocities (hs : s.size = m.velocityCount) :
    (m.setVelocities g).runAt s =
      match g.velocities m.velocityCount with
      | .ok v => (.ok (), s.replace v)
      | .error e => (.error e, s) := by
  have hcheck : m.checkSize s = .ok () := by rw [checkSize, if_neg (by simpa using hs)]
  rw [setVelocities, Evaluation.runAt_bind_of_ok _ (Evaluation.runAt_get s), hcheck,
    Evaluation.runAt_bind_of_ok _ (Evaluation.runAt_lift (.ok ()) s), ModelState.setVelocities_eq,
    hs]
  cases g.velocities m.velocityCount <;> rfl

omit [Arith K] in
theorem runAt_setVelocities_of_ok (hs : s.size = m.velocityCount)
    (hv : g.velocities m.velocityCount = .ok v) :
    (m.setVelocities g).runAt s = (.ok (), s.replace v) := by
  rw [runAt_setVelocities hs, hv]

omit [Arith K] in
theorem runAt_setVelocities_of_error {e : Error K} (hs : s.size = m.velocityCount)
    (hv : g.velocities m.velocityCount = .error e) :
    (m.setVelocities g).runAt s = (.error e, s) := by
  rw [runAt_setVelocities hs, hv]

omit [Arith K] in
/-- Where velocities have just been replaced, nothing is up to date. -/
theorem valid_replace (s : ModelState K (Quantity.Value K)) (v : Vec K) (q : Quantity) :
    ((s.replace v).memo.get q).valid = false := by
  simp [ModelState.replace, MemoCell.invalidate]

/-- A state whose velocities have just been replaced is coherent with them. -/
theorem coherent_replace (hs : s.size = m.velocityCount) (v : Vec K) :
    m.Coherent v (s.replace v) := by
  have hinvalid : ∀ q, ((s.replace v).memo.get q).valid ≠ true := by simp [valid_replace]
  exact ⟨hs, rfl, fun q hq => absurd hq (hinvalid q), fun q hq => absurd hq (hinvalid q)⟩

/-- Where the velocities have just been set, a quantity has the outcome of its trace. -/
theorem evalAt_eq {q : Quantity} (hs : s.size = m.velocityCount) (hv : v.size = m.velocityCount)
    (hq : m.Follows v (m.eval q) (m.trace v q)) :
    m.evalAt s q (.tensor v.toTensor) = m.valueAt v q := by
  have hset := runAt_setVelocities_of_ok hs (Given.velocities_toTensor hv)
  rw [evalAt, Evaluation.runAt_bind_of_ok _ hset, hq.runs _ (coherent_replace hs v)]
  rfl

/-- A fresh state is coherent with its velocities. -/
theorem coherent_fresh (hv : g.velocities m.velocityCount = .ok v) :
    m.Coherent v (m.fresh (some g)) := by
  rw [fresh, runAt_setVelocities_of_ok rfl hv]
  exact coherent_replace rfl v

/-! ## Commands at a state

Commands that set no velocities. Where there are velocities they follow a trace. Where there are
none, every quantity is refused before its cell is touched, so the state stays as it is. -/

/-- A step that goes on from an answer in a way that has a trace has a trace as a whole. -/
theorem exists_follows_bind {α β : Type} {e : Evaluation K α} {f : α → Evaluation K β}
    (he : ∃ t, m.Follows v e t) (hf : ∀ a, ∃ t, m.Follows v (f a) t) :
    ∃ t, m.Follows v (e >>= f) t := by
  obtain ⟨t, ht⟩ := he
  choose g hg using hf
  exact ⟨t.andThen g, ht.bind fun a _ => hg a⟩

/-- At coherent states a command that sets no velocities follows a trace. -/
theorem exists_follows_perform (hm : m.Consistent) {c : Command K} (hc : c.given? = none) :
    ∃ t, m.Follows v (m.perform c) t := by
  cases c with
  | setVelocities g => cases hc
  | velocities =>
    refine ⟨Traced.ofOutcome (.ok v), Sound.nil, fun s hs => ?_⟩
    rw [Traced.completed_ofOutcome, learn_nil]
    exact velocitiesHere_of_coherent hs
  | eval q => exact ⟨_, follows_eval hm q⟩
  | multiplyHessian w =>
    apply exists_follows_bind ⟨_, follows_constraintsHessian hm⟩
    intro G
    exact exists_follows_bind ⟨_, follows_lift _⟩ fun w => ⟨_, follows_lift _⟩
  | summarize =>
    apply exists_follows_bind ⟨_, follows_impulses⟩
    intro γ
    apply exists_follows_bind ⟨_, follows_costGradient⟩
    intro gradient
    apply exists_follows_bind ⟨_, follows_momentumCost⟩
    intro momentum
    apply exists_follows_bind ⟨_, follows_regularizerCost⟩
    intro regularizer
    exact exists_follows_bind ⟨_, follows_cost⟩ fun total => ⟨_, follows_pure _⟩

omit [Arith K] in
/-- Reading velocities that are not there changes nothing. -/
theorem velocitiesHere_of_error {e : Error K} (h : m.velocitiesOf s = .error e) :
    m.velocitiesHere.runAt s = (.error e, s) := by
  rw [velocitiesHere, Evaluation.runAt_bind_of_ok _ (Evaluation.runAt_get s),
    Evaluation.runAt_lift, h]

omit [Arith K] in
/-- Without velocities that fit nothing is computed. -/
theorem memoized_of_error {e : Error K} (h : m.velocitiesOf s = .error e) (q : Quantity)
    (compute : Vec K → Evaluation K (Quantity.Value K q)) :
    (m.memoized q compute).runAt s = (.error e, s) := by
  rw [memoized, Evaluation.runAt_bind_of_error _ (velocitiesHere_of_error h)]

/-- Every quantity asks for the velocities before anything else. -/
theorem eval_of_error {e : Error K} (h : m.velocitiesOf s = .error e) (q : Quantity) :
    (m.eval q).runAt s = (.error e, s) := by
  cases q <;> exact memoized_of_error h _ _

/-- Without velocities that fit, a command that sets none leaves the state as it is. -/
theorem perform_of_error {e : Error K} (h : m.velocitiesOf s = .error e) {c : Command K}
    (hc : c.given? = none) : (m.perform c).runAt s = (.error e, s) := by
  cases c with
  | setVelocities g => cases hc
  | velocities => exact velocitiesHere_of_error h
  | eval q => exact eval_of_error h q
  | multiplyHessian w =>
    exact Evaluation.runAt_bind_of_error _ (eval_of_error h .constraintsHessian)
  | summarize => exact Evaluation.runAt_bind_of_error _ (eval_of_error h .impulses)

omit [Arith K] in
/-- A state that has just been made has no velocities yet. -/
theorem velocitiesOf_makeState : m.velocitiesOf m.makeState = .error .velocitiesUnset := by
  simp [velocitiesOf, checkSize, makeState, ModelState.empty, bind, Except.bind]

/-- The blocks of the Hessian complete the impulses on the way. -/
theorem impulses_mem_completedAt {G : List (Mat K)} (hG : m.valueAt v .constraintsHessian = .ok G) :
    Quantity.impulses ∈ m.completedAt v .constraintsHessian := by
  rw [valueAt_constraintsHessian] at hG
  obtain ⟨y, hy, hG⟩ := Outcome.bind_eq_ok.mp hG
  obtain ⟨⟨γ, G'⟩, hjoint, -⟩ := Outcome.bind_eq_ok.mp hG
  have hlist : ((m.traceUnprojectedImpulses v).andThen m.traceJointly) =
      ⟨.ok G', (m.traceUnprojectedImpulses v).completed ++ [.impulses]⟩ := by
    have hy : (m.traceUnprojectedImpulses v).outcome = .ok y := hy
    rw [Traced.andThen_of_ok _ hy, traceJointly_of_ok hjoint]
  change _ ∈ (((m.traceUnprojectedImpulses v).andThen m.traceJointly).completing _).completed
  rw [hlist, Traced.completed_completing_of_ok _ rfl]
  simp

end Model

/-! ## Sessions -/

namespace Session

variable {m : Model K} {σ : Session K}

/-- A session whose state agrees with the velocities it was last given. -/
inductive Agrees (m : Model K) : Session K → Prop where
  | unset : Agrees m ⟨m.makeState, none⟩
  | set {g : Given K} {v : Vec K} {s : ModelState K (Quantity.Value K)}
      (hg : g.velocities m.velocityCount = .ok v) (hs : m.Coherent v s) : Agrees m ⟨s, some g⟩

/-- The state of a session that agrees is for as many velocities as the model has. -/
theorem Agrees.size (h : Agrees m σ) : σ.state.size = m.velocityCount := by
  cases h with
  | unset => rfl
  | set hg hs => exact hs.size

theorem next_of_error {c : Command K} {e : Error K} {s : ModelState K (Quantity.Value K)}
    (h : (m.perform c).runAt σ.state = (.error e, s)) : next m σ c = ⟨s, σ.given?⟩ := by
  simp only [next, h]
  rfl

theorem next_of_ok {c : Command K} {x : c.Answer} {s : ModelState K (Quantity.Value K)}
    (h : (m.perform c).runAt σ.state = (.ok x, s)) : next m σ c = ⟨s, c.given?.or σ.given?⟩ := by
  simp only [next, h]
  rfl

/-- A command that sets no velocities leaves those of the session, whether it succeeds or not. -/
theorem next_of_given?_eq_none {c : Command K} (hc : c.given? = none) :
    next m σ c = ⟨((m.perform c).runAt σ.state).2, σ.given?⟩ := by
  rcases h : (m.perform c).runAt σ.state with ⟨e | x, s⟩
  · rw [next_of_error h]
  · rw [next_of_ok h, hc, Option.none_or]

/-- **Step.** One command keeps the agreement, whether it succeeds or not. -/
theorem Agrees.next (hm : m.Consistent) (h : Agrees m σ) (c : Command K) :
    Agrees m (Session.next m σ c) := by
  cases hc : c.given? with
  | some g =>
    obtain rfl := Command.eq_setVelocities hc
    cases hg : g.velocities m.velocityCount with
    -- refused: neither the state nor the velocities of the session change
    | error e =>
      rw [next_of_error (c := .setVelocities g) (Model.runAt_setVelocities_of_error h.size hg)]
      exact h
    | ok v =>
      rw [next_of_ok (c := .setVelocities g) (Model.runAt_setVelocities_of_ok h.size hg)]
      exact Agrees.set hg (Model.coherent_replace h.size v)
  | none =>
    rw [next_of_given?_eq_none hc]
    cases h with
    | unset =>
      rw [Model.perform_of_error Model.velocitiesOf_makeState hc]
      exact Agrees.unset
    | set hg hs =>
      obtain ⟨t, ht⟩ := Model.exists_follows_perform hm hc
      rw [ht.runs _ hs]
      exact Agrees.set hg (hs.learn ht.sound)

/-- **Run.** Every session agrees with the velocities it was last given. -/
theorem agrees_run (hm : m.Consistent) (cs : List (Command K)) : Agrees m (run m cs) := by
  suffices ∀ σ, Agrees m σ → Agrees m (cs.foldl (Session.next m) σ) from this _ Agrees.unset
  induction cs with
  | nil => exact fun σ h => h
  | cons c cs ih => exact fun σ h => ih _ (h.next hm c)

/-- A command that sets no velocities answers as at the fresh state. -/
theorem Agrees.answer_eq (hm : m.Consistent) (h : Agrees m σ) {c : Command K}
    (hc : c.given? = none) :
    ((m.perform c).runAt σ.state).1 = ((m.perform c).runAt (m.fresh σ.given?)).1 := by
  cases h with
  | unset => rfl
  | set hg hs =>
    obtain ⟨t, ht⟩ := Model.exists_follows_perform hm hc
    rw [ht.runs _ hs, ht.runs _ (Model.coherent_fresh hg)]

/-- Whether velocities are refused is the same at the fresh state. -/
theorem Agrees.refusal_eq (h : Agrees m σ) (g : Given K) :
    ((m.setVelocities g).runAt σ.state).1 = ((m.setVelocities g).runAt (m.fresh σ.given?)).1 := by
  have hfresh : (m.fresh σ.given?).size = m.velocityCount := by
    cases h with
    | unset => rfl
    | set hg hs => exact (Model.coherent_fresh hg).size
  rw [Model.runAt_setVelocities h.size, Model.runAt_setVelocities hfresh]
  cases g.velocities m.velocityCount <;> rfl

/-- What a session has memorized as up to date is the value at the fresh state. -/
theorem Agrees.current (hm : m.Consistent) (h : Agrees m σ) {q : Quantity}
    (hq : (σ.state.memo.get q).valid = true) :
    ∃ x, (σ.state.memo.get q).value = some x ∧
      ((m.eval q).runAt (m.fresh σ.given?)).1 = .ok x := by
  cases h with
  | unset =>
    exfalso
    simp [Model.makeState, ModelState.empty, MemoTable.empty, MemoCell.empty] at hq
  | set hg hs =>
    obtain ⟨x, hvalue, hx⟩ := hs.current q hq
    refine ⟨x, hvalue, ?_⟩
    rw [(Model.follows_eval hm q).runs _ (Model.coherent_fresh hg)]
    exact hx

/-- The impulses that the blocks of the Hessian memorize on the side are those that the impulses
memorize themselves. -/
theorem Agrees.impulses_eq (hm : m.Consistent) (h : Agrees m σ) {G : List (Mat K)}
    (hG : (m.evalConstraintsHessian.runAt σ.state).1 = .ok G) :
    (m.evalConstraintsHessian.runAt σ.state).2.memo.get .impulses =
      (m.evalImpulses.runAt σ.state).2.memo.get .impulses := by
  cases h with
  | unset =>
    rw [show m.evalConstraintsHessian.runAt m.makeState = _ from
      Model.eval_of_error Model.velocitiesOf_makeState .constraintsHessian] at hG
    cases hG
  | @set g v s hg hs =>
    rw [(Model.follows_constraintsHessian hm).runs _ hs] at hG ⊢
    rw [Model.follows_impulses.runs _ hs]
    -- both ways learn the impulses, and learning stores the value they have at the velocities
    have hjoint : Quantity.impulses ∈ (m.trace v .constraintsHessian).completed :=
      Model.impulses_mem_completedAt hG
    obtain ⟨⟨γ, hγ⟩, -⟩ := (Model.follows_constraintsHessian hm).sound _ hjoint
    have himpulses : Quantity.impulses ∈ (m.trace v .impulses).completed :=
      Model.mem_completedAt_self hγ
    rw [Model.get_learn_of_mem hjoint, Model.get_learn_of_mem himpulses]

/-- **Sessions are coherent.** After any run of commands, successful or not:

* what is memorized as up to date is the value that the quantity has at the fresh state;
* every command answers as it does at the fresh state;
* when the blocks of the Hessian have a value, the impulses that are memorized on the side are those
  that the impulses themselves memorize. -/
theorem memory_is_fresh (hm : m.Consistent) (cs : List (Command K)) :
    (∀ q, ((run m cs).state.memo.get q).valid = true →
      ∃ x, ((run m cs).state.memo.get q).value = some x ∧
        ((m.eval q).runAt (m.fresh (run m cs).given?)).1 = .ok x) ∧
    (∀ c, ((m.perform c).runAt (run m cs).state).1 =
      ((m.perform c).runAt (m.fresh (run m cs).given?)).1) ∧
    ∀ G, (m.evalConstraintsHessian.runAt (run m cs).state).1 = .ok G →
      (m.evalConstraintsHessian.runAt (run m cs).state).2.memo.get .impulses =
        (m.evalImpulses.runAt (run m cs).state).2.memo.get .impulses := by
  have h := agrees_run hm cs
  refine ⟨fun q hq => h.current hm hq, fun c => ?_, fun G hG => h.impulses_eq hm hG⟩
  cases hc : c.given? with
  | some g =>
    obtain rfl := Command.eq_setVelocities hc
    exact h.refusal_eq g
  | none => exact h.answer_eq hm hc

/-- Velocities are set twice, and something is evaluated each time. -/
def sampleCommands : List (Command ℚ) :=
  [.setVelocities (.tensor (Vec.mk .double [1, 0, 0]).toTensor), .eval .cost,
    .setVelocities (.tensor (Vec.mk .double [2, 3, 5]).toTensor), .eval .constraintsHessian]

/-- Impulses that the blocks of the Hessian have stored on the side, after the velocities were set a
second time. -/
theorem memory_is_fresh_sample :
    ∃ p m, ContactProblem.sample? = .ok p ∧ Model.build? p = .ok m ∧
      ∃ γ, ((run m sampleCommands).state.memo.get .impulses).value = some γ ∧
        ((m.eval .impulses).runAt (m.fresh (run m sampleCommands).given?)).1 = .ok γ := by
  obtain ⟨p, hp, h⟩ := Outcome.exists_of_check (x := ContactProblem.sample?)
    (P := fun p => (Model.build? p).toOption.any fun m =>
      ((run m sampleCommands).state.memo.get .impulses).valid &&
        m.stack.members.all fun c => !c.projection.isRule) (by decide +kernel)
  obtain ⟨m, hm, h⟩ := Outcome.exists_of_check h
  obtain ⟨hvalid, hnamed⟩ := Bool.and_eq_true_iff.mp h
  have hconsistent : m.Consistent := by
    intro c hc
    exact Projection.consistent_of_named (by simpa using List.all_eq_true.mp hnamed c hc)
  exact ⟨p, m, hp, hm, (memory_is_fresh hconsistent sampleCommands).1 .impulses hvalid⟩

end Session

end ConvexContact
