import ConvexContact.Proofs.Evaluation.Session

/-!
# Transcripts

What a caller sees of a model is the replies to the commands that he gives on a state, one after the
other (`Model.performAll`). The states that he can bring about are `Model.Reachable`: a state is
made for some number of velocities, not necessarily that of the model; velocities are set, by the
state itself or through the model; commands are performed, successful or not.

`Model.Standing` sorts these states into three: the model refuses a state that is for another number
of velocities, it has nothing to evaluate before velocities are set, and afterwards the state is
coherent with them. It is the invariant of all runs: `Model.Standing.after` is its step and
`Model.Reachable.standing` the induction on how a state was brought about. What failing or reordered
commands leave is read off the three cases in the files that build on this one.
-/

namespace ConvexContact

variable {K : Type}

/-! ## Replies -/

/-- A command with the answer to it. -/
structure Reply (K : Type) where
  command : Command K
  answer : Except (Error K) command.Answer

namespace Reply

/-- Whether the command has replaced the velocities. -/
def replaces (x : Reply K) : Bool := x.command.given?.isSome && x.answer.isOk

/-- Only a command that sets velocities replaces them. -/
theorem replaces_of_given?_eq_none {x : Reply K} (h : x.command.given? = none) :
    x.replaces = false := by
  simp [replaces, h]

end Reply

namespace Model

variable [Arith K]

/-- The reply to a command at a state. -/
def replyTo (m : Model K) (s : ModelState K (Quantity.Value K)) (c : Command K) : Reply K :=
  ⟨c, ((m.perform c).runAt s).1⟩

/-- The state that a command leaves, whether it succeeds or not. -/
def after (m : Model K) (s : ModelState K (Quantity.Value K)) (c : Command K) :
    ModelState K (Quantity.Value K) :=
  ((m.perform c).runAt s).2

/-- The replies to commands that are performed one after the other, and the state they leave. -/
def performAll (m : Model K) (s : ModelState K (Quantity.Value K)) :
    List (Command K) → List (Reply K) × ModelState K (Quantity.Value K)
  | [] => ([], s)
  | c :: cs =>
    let (replies, t) := m.performAll (m.after s c) cs
    (m.replyTo s c :: replies, t)

variable {m : Model K} {s t : ModelState K (Quantity.Value K)} {c : Command K}

@[simp] theorem performAll_nil : m.performAll s [] = ([], s) := rfl

@[simp] theorem performAll_cons (cs : List (Command K)) : m.performAll s (c :: cs) =
    (m.replyTo s c :: (m.performAll (m.after s c) cs).1, (m.performAll (m.after s c) cs).2) := rfl

/-- A run in two parts: the second one starts where the first one ends. -/
theorem performAll_append (cs cs' : List (Command K)) : m.performAll s (cs ++ cs') =
    ((m.performAll s cs).1 ++ (m.performAll (m.performAll s cs).2 cs').1,
      (m.performAll (m.performAll s cs).2 cs').2) := by
  induction cs generalizing s with
  | nil => rfl
  | cons c cs ih => simp [ih]

/-- Models that perform commands alike give the same replies, and leave the same state. -/
theorem performAll_congr {m' : Model K} {cs : List (Command K)}
    (h : ∀ c ∈ cs, m'.perform c = m.perform c) (s : ModelState K (Quantity.Value K)) :
    m'.performAll s cs = m.performAll s cs := by
  induction cs generalizing s with
  | nil => rfl
  | cons c cs ih =>
    obtain ⟨hc, hrest⟩ := List.forall_mem_cons.mp h
    have hreply : m'.replyTo s c = m.replyTo s c := by rw [replyTo, replyTo, hc]
    have hafter : m'.after s c = m.after s c := by rw [after, after, hc]
    rw [performAll_cons, performAll_cons, hreply, hafter, ih hrest]

theorem after_of_runAt {x : Except (Error K) c.Answer} (h : (m.perform c).runAt s = (x, t)) :
    m.after s c = t := by
  rw [after, h]

theorem replyTo_of_runAt {x : Except (Error K) c.Answer} (h : (m.perform c).runAt s = (x, t)) :
    m.replyTo s c = ⟨c, x⟩ := by
  rw [replyTo, h]

/-! ## Commands that change nothing

Sizes are checked before anything else, and velocities before they are stored. Neither check leaves
a trace when it fails. -/

omit [Arith K] in
/-- The size of a state is checked before the velocities are looked at. -/
theorem setVelocities_foreign (h : s.size ≠ m.velocityCount) (g : Given K) :
    (m.setVelocities g).runAt s = (.error (.stateSize s.size m.velocityCount), s) := by
  have hcheck : m.checkSize s = .error (.stateSize s.size m.velocityCount) := by
    rw [checkSize, if_pos h]
  rw [setVelocities, Evaluation.runAt_bind_of_ok _ (Evaluation.runAt_get s), hcheck,
    Evaluation.runAt_bind_of_error _ (Evaluation.runAt_lift _ s)]

/-- Whatever is asked of a model at a state that is for another number of velocities is refused, and
the state is left as it is. -/
theorem perform_foreign (h : s.size ≠ m.velocityCount) (c : Command K) :
    (m.perform c).runAt s = (.error (.stateSize s.size m.velocityCount), s) := by
  cases hc : c.given? with
  | none =>
    refine perform_of_error ?_ hc
    simp [velocitiesOf, checkSize, h, bind, Except.bind]
  | some g =>
    obtain rfl := Command.eq_setVelocities hc
    exact setVelocities_foreign h g

/-- Velocities are refused, and the state is left as it is, or they replace those of the state. -/
theorem setVelocities_cases (m : Model K) (s : ModelState K (Quantity.Value K)) (g : Given K) :
    (∃ e, (m.perform (.setVelocities g)).runAt s = (.error e, s)) ∨
      ∃ v : Vec K, (v.size : Int) = s.size ∧
        (m.perform (.setVelocities g)).runAt s = (.ok (), s.replace v) := by
  by_cases hsize : s.size = m.velocityCount
  · cases hg : g.velocities m.velocityCount with
    | error e => exact Or.inl ⟨e, runAt_setVelocities_of_error hsize hg⟩
    | ok v =>
      exact Or.inr ⟨v, (Given.size_of_velocities hg).trans hsize.symm,
        runAt_setVelocities_of_ok hsize hg⟩
  · exact Or.inl ⟨_, perform_foreign hsize _⟩

/-- Velocities that are refused leave any state as it is. -/
theorem after_setVelocities {g : Given K} (h : (m.replyTo s (.setVelocities g)).replaces = false) :
    m.after s (.setVelocities g) = s := by
  rcases m.setVelocities_cases s g with ⟨e, he⟩ | ⟨v, -, hv⟩
  · exact after_of_runAt he
  · rw [replyTo_of_runAt hv] at h
    cases h

/-- Velocities that are accepted are those of the state, where nothing is up to date. -/
theorem exists_after_eq_replace (h : (m.replyTo s c).replaces = true) :
    ∃ v, m.after s c = s.replace v := by
  cases hc : c.given? with
  | none =>
    rw [Reply.replaces_of_given?_eq_none hc] at h
    cases h
  | some g =>
    obtain rfl := Command.eq_setVelocities hc
    rcases m.setVelocities_cases s g with ⟨e, he⟩ | ⟨v, -, hv⟩
    · rw [replyTo_of_runAt he] at h
      cases h
    · exact ⟨v, after_of_runAt hv⟩

/-! ## Reachable states -/

/-- The states that a caller can bring about, with one model at hand. -/
inductive Reachable (m : Model K) : ModelState K (Quantity.Value K) → Prop where
  | made (n : Int) : Reachable m (ModelState.empty n)
  | given {s t : ModelState K (Quantity.Value K)} {g : Given K} (hs : Reachable m s)
      (h : s.setVelocities g = .ok t) : Reachable m t
  | performed {s : ModelState K (Quantity.Value K)} (hs : Reachable m s) (c : Command K) :
      Reachable m (m.after s c)

/-- Where a state stands with a model. -/
inductive Standing (m : Model K) : ModelState K (Quantity.Value K) → Prop where
  | foreign {s : ModelState K (Quantity.Value K)} (hsize : s.size ≠ m.velocityCount)
      (hempty : ∀ q, (s.memo.get q).valid = false) : Standing m s
  | unset : Standing m m.makeState
  | set {s : ModelState K (Quantity.Value K)} {v : Vec K} (hv : v.size = m.velocityCount)
      (hs : m.Coherent v s) : Standing m s

omit [Arith K] in
/-- Nothing is up to date in a state that has just been made. -/
theorem valid_empty (n : Int) (q : Quantity) :
    ((ModelState.empty n : ModelState K (Quantity.Value K)).memo.get q).valid = false := by
  simp [ModelState.empty, MemoTable.empty, MemoCell.empty]

/-- A state that has just got velocities. -/
theorem Standing.replace {v : Vec K} (hv : (v.size : Int) = s.size) : m.Standing (s.replace v) := by
  by_cases hsize : s.size = m.velocityCount
  · exact .set (Int.ofNat.inj (hv.trans hsize)) (coherent_replace hsize v)
  · exact .foreign hsize (valid_replace s v)

/-- **Step.** One command keeps the standing, whether it succeeds or not. -/
theorem Standing.after (hm : m.Consistent) (h : m.Standing s) (c : Command K) :
    m.Standing (m.after s c) := by
  cases hc : c.given? with
  | some g =>
    obtain rfl := Command.eq_setVelocities hc
    -- refused velocities leave the standing, accepted ones give it anew
    rcases m.setVelocities_cases s g with ⟨e, he⟩ | ⟨v, hv, hset⟩
    · rw [after_of_runAt he]
      exact h
    · rw [after_of_runAt hset]
      exact .replace hv
  | none =>
    cases h with
    | foreign hsize hempty =>
      rw [after_of_runAt (perform_foreign hsize c)]
      exact .foreign hsize hempty
    | unset =>
      rw [after_of_runAt (perform_of_error velocitiesOf_makeState hc)]
      exact .unset
    | set hv hs =>
      obtain ⟨t, ht⟩ := exists_follows_perform hm hc
      rw [after_of_runAt (ht.runs _ hs)]
      exact .set hv (hs.learn ht.sound)

/-- **Run.** Every state that a caller can bring about has a standing. -/
theorem Reachable.standing (hm : m.Consistent) (h : m.Reachable s) : m.Standing s := by
  induction h with
  | made n =>
    by_cases hn : n = m.velocityCount
    · rw [hn]
      exact .unset
    · exact .foreign hn (valid_empty n)
  -- the state sets its velocities itself, whatever model they are meant for
  | @given s t g hs h ih =>
    rw [ModelState.setVelocities_eq] at h
    obtain ⟨v, hv, rfl⟩ := Outcome.map_eq_ok.mp h
    exact .replace (Given.size_of_velocities hv)
  | performed _ c ih => exact ih.after hm c

end Model

end ConvexContact
