import ConvexContact.Proofs.Evaluation.Order

/-!
# Operations that fail

An operation may fail at any depth: the velocities do not fit, or have not been set; the projection
of some constraint answers with too few impulses, or without a Jacobian; a factor does not fit. What
has been memorized by then stays, so a failure is not without effect, but it is without harm
(`Model.Unharmed`). All of this is read off the two ways in which a cell can come out of an
evaluation (`Model.get_learn_cases`).

Proof shape: the failing command follows a trace like any other one, so the state it leaves is the
state before with some quantities learnt. The clauses of `Model.Unharmed` are checked of learning
alone (`Model.Coherent.unharmed`). States without velocities, and states for another number of them,
are left as they are (`Model.Unharmed.of_same`).

Main statement: `Model.failure_harmless`.
-/

namespace ConvexContact

variable {K : Type}

/-- Commands that need the blocks of the Hessian, which are projected jointly with the impulses. -/
def Command.projectsJointly : Command K → Bool
  | eval .constraintsHessian | eval .hessian | multiplyHessian _ => true
  | _ => false

namespace Model

variable [Arith K] {m : Model K} {v : Vec K} {s t : ModelState K (Quantity.Value K)}
  {c : Command K} {e : Error K}

/-- State `t` is what a command leaves that fails at state `s` with error `e`. -/
structure Unharmed (m : Model K) (s : ModelState K (Quantity.Value K)) (c : Command K)
    (e : Error K) (t : ModelState K (Quantity.Value K)) : Prop where
  size : t.size = s.size
  velocities : t.velocities = s.velocities
  /-- what was up to date keeps its value, and has not been computed again -/
  kept : ∀ q, (s.memo.get q).valid = true → t.memo.get q = s.memo.get q
  /-- what is out of date has not been computed at all -/
  untouched : ∀ q, (t.memo.get q).valid = false → t.memo.get q = s.memo.get q
  /-- what has come up to date was computed once, with the value it has for these velocities -/
  fresh : ∀ q, (s.memo.get q).valid = false → (t.memo.get q).valid = true →
    ∃ v x, s.velocities = some v ∧ m.evalAt m.makeState q (.tensor v.toTensor) = .ok x ∧
      t.memo.get q = (s.memo.get q).set x
  /-- the quantity that was asked for is out of date -/
  own : ∀ q, c = .eval q → (t.memo.get q).valid = false
  /-- a joint projection that fails is what is reported, and it stores no impulses -/
  joint : c.projectsJointly = true → ∀ y e', (m.evalUnprojectedImpulses.runAt s).1 = .ok y →
    m.stack.projectWithHessian y = .error e' →
      e = e' ∧ t.memo.get .impulses = s.memo.get .impulses
  /-- until the velocities are replaced, the command fails in the same way -/
  again : ∀ cs, (∀ x ∈ (m.performAll t cs).1, x.replaces = false) →
    m.replyTo (m.performAll t cs).2 c = ⟨c, .error e⟩

/-! ## What an evaluation does to a cell -/

/-- A cell is as it was, or was out of date and has got the value of its quantity. -/
theorem get_learn_cases {D : List Quantity} (hD : m.Sound v D)
    (s : ModelState K (Quantity.Value K)) (q : Quantity) :
    (m.learn v D s).memo.get q = s.memo.get q ∨
      (s.memo.get q).valid = false ∧ ∃ x, m.valueAt v q = .ok x ∧
        (m.learn v D s).memo.get q = (s.memo.get q).set x := by
  by_cases hq : q ∈ D
  · rw [get_learn_of_mem hq]
    cases hvalid : (s.memo.get q).valid with
    | true => exact Or.inl (MemoCell.learn_of_valid hvalid _)
    | false =>
      obtain ⟨⟨x, hx⟩, -⟩ := hD q hq
      refine Or.inr ⟨rfl, x, hx, ?_⟩
      rw [hx, MemoCell.learn_ok_of_invalid hvalid]
  · exact Or.inl (get_learn_of_notMem hq s)

/-- A quantity that has no value is out of date wherever the state agrees with the velocities. -/
theorem Coherent.invalid_of_error (hs : m.Coherent v s) {q : Quantity}
    (h : m.valueAt v q = .error e) : (s.memo.get q).valid = false := by
  by_contra hvalid
  obtain ⟨x, -, hx⟩ := hs.current q (by simpa using hvalid)
  rw [h] at hx
  cases hx

/-! ## Joint projections

The blocks of the Hessian may fail after a projection has answered with impulses. These are dropped
with the error, so nothing beyond the unprojected impulses has been memorized by then. -/

/-- The blocks of the Hessian complete what the unprojected impulses do, if their joint projection
with the impulses fails. -/
theorem trace_of_joint_error {y : Vec K} (hy : m.valueAt v .unprojectedImpulses = .ok y)
    (h : m.stack.projectWithHessian y = .error e) :
    m.trace v .constraintsHessian = ⟨.error e, m.completedAt v .unprojectedImpulses⟩ := by
  have hbefore : (m.traceUnprojectedImpulses v).andThen m.traceJointly =
      ⟨.error e, m.completedAt v .unprojectedImpulses⟩ := by
    have hy : (m.traceUnprojectedImpulses v).outcome = .ok y := hy
    rw [Traced.andThen_of_ok _ hy, traceJointly_of_error h, List.append_nil]
    rfl
  change ((m.traceUnprojectedImpulses v).andThen m.traceJointly).completing _ = _
  rw [hbefore, Traced.completing_of_error _ rfl]

/-- Whatever needs the blocks of the Hessian fails with their joint projection, and memorizes no
more than the unprojected impulses do. -/
theorem runAt_of_joint_error (hm : m.Consistent) (hs : m.Coherent v s)
    (hc : c.projectsJointly = true) {y : Vec K} (hy : m.valueAt v .unprojectedImpulses = .ok y)
    (h : m.stack.projectWithHessian y = .error e) :
    (m.perform c).runAt s = (.error e, m.learn v (m.completedAt v .unprojectedImpulses) s) := by
  have htrace := trace_of_joint_error hy h
  have hblocks : m.evalConstraintsHessian.runAt s =
      (.error e, m.learn v (m.completedAt v .unprojectedImpulses) s) := by
    rw [(follows_constraintsHessian hm).runs s hs, htrace]
  unfold Command.projectsJointly at hc
  split at hc
  · exact hblocks
  · have hhessian : m.trace v .hessian = ⟨.error e, m.completedAt v .unprojectedImpulses⟩ := by
      change ((m.trace v .constraintsHessian).andThen _).completing _ = _
      rw [htrace, Traced.andThen_of_error _ rfl, Traced.completing_of_error _ rfl]
    exact ((follows_hessian hm).runs s hs).trans (by rw [hhessian])
  · exact Evaluation.runAt_bind_of_error _ hblocks
  · cases hc

/-! ## Failures -/

/-- A failure that leaves the state as it is. -/
theorem Unharmed.of_same (hm : m.Consistent) (hs : m.Standing s)
    (h : (m.perform c).runAt s = (.error e, s))
    (hown : ∀ q, c = .eval q → (s.memo.get q).valid = false)
    (hjoint : c.projectsJointly = true → ∀ y, (m.evalUnprojectedImpulses.runAt s).1 ≠ .ok y) :
    m.Unharmed s c e s where
  size := rfl
  velocities := rfl
  kept _ _ := rfl
  untouched _ _ := rfl
  fresh q hinvalid hvalid := absurd (hinvalid.symm.trans hvalid) (by decide)
  own := hown
  joint hc y _ hy _ := absurd hy (hjoint hc y)
  again cs hcs := by rw [hs.replyTo_performAll hm hcs, replyTo_of_runAt h]

/-- A failure at a state that agrees with its velocities. -/
theorem Coherent.unharmed (hm : m.Consistent) (hv : v.size = m.velocityCount)
    (hs : m.Coherent v s) (hc : c.given? = none) (h : (m.perform c).runAt s = (.error e, t)) :
    m.Unharmed s c e t := by
  obtain ⟨trace, htrace⟩ := exists_follows_perform (v := v) hm hc
  obtain ⟨houtcome, rfl⟩ := Prod.mk.inj ((htrace.runs s hs).symm.trans h)
  have ht : m.Coherent v (m.learn v trace.completed s) := hs.learn htrace.sound
  have hcell := get_learn_cases htrace.sound s
  refine ⟨rfl, rfl, fun q hvalid => ?_, fun q hinvalid => ?_, fun q hinvalid hvalid => ?_,
    fun q hq => ?_, fun hjoint y e' hy hproject => ?_, fun cs hcs => ?_⟩
  -- a cell that was up to date has not been learnt
  · refine (hcell q).resolve_right ?_
    rintro ⟨hinvalid, -⟩
    exact absurd (hinvalid.symm.trans hvalid) (by decide)
  -- a cell that is out of date has not been learnt, as learning would have made it valid
  · refine (hcell q).resolve_right ?_
    rintro ⟨-, x, -, hset⟩
    rw [hset] at hinvalid
    cases hinvalid
  · rcases hcell q with hsame | ⟨-, x, hx, hset⟩
    · rw [hsame, hinvalid] at hvalid
      cases hvalid
    · exact ⟨v, x, hs.velocities, (evalAt_eq rfl hv (follows_eval hm q)).trans hx, hset⟩
  · -- the outcome of the command is the value of the quantity, so it has none
    subst hq
    have hvalue := congrArg Prod.fst (((follows_eval hm q).runs s hs).symm.trans h)
    exact ht.invalid_of_error hvalue
  · rw [follows_unprojectedImpulses.runs s hs] at hy
    have hrun := runAt_of_joint_error hm hs hjoint hy hproject
    obtain ⟨he, hlearn⟩ := Prod.mk.inj (h.symm.trans hrun)
    refine ⟨Except.error.inj he, ?_⟩
    rw [hlearn]
    exact get_learn_of_notMem (Traced.Below.notMem (below_of_lt (by decide))) s
  · rw [(Standing.set hv ht).replyTo_performAll hm hcs, replyTo_of_coherent hm ht hs,
      replyTo_of_runAt h]

/-- **Failures.** At a state that a caller can bring about, a command that fails does no harm. A
state for another number of velocities, whatever it holds, is refused and left as it is. -/
theorem failure_harmless (hm : m.Consistent) (hs : m.Reachable s)
    (h : (m.perform c).runAt s = (.error e, t)) :
    m.Unharmed s c e t ∧
      ∀ r b, r.size ≠ (m.velocityCount : Int) →
        (m.perform b).runAt r = (.error (.stateSize r.size m.velocityCount), r) := by
  refine ⟨?_, fun r b hr => perform_foreign hr b⟩
  have hstanding := hs.standing hm
  cases hc : c.given? with
  | some g =>
    obtain rfl := Command.eq_setVelocities hc
    have hkeeps : (m.replyTo s (.setVelocities g)).replaces = false := by
      rw [replyTo_of_runAt h]
      rfl
    -- refused velocities leave the state alone
    obtain rfl : s = t := (after_setVelocities hkeeps).symm.trans (after_of_runAt h)
    exact .of_same hm hstanding h (fun q hq => by cases hq) (fun hjoint => by cases hjoint)
  | none =>
    cases hstanding with
    | foreign hsize hempty =>
      obtain ⟨-, rfl⟩ := Prod.mk.inj ((perform_foreign hsize c).symm.trans h)
      refine .of_same hm (.foreign hsize hempty) h (fun q _ => hempty q) fun _ y hy => ?_
      rw [show m.evalUnprojectedImpulses.runAt s = _ from
        perform_foreign hsize (.eval .unprojectedImpulses)] at hy
      cases hy
    | unset =>
      obtain ⟨-, rfl⟩ := Prod.mk.inj ((perform_of_error velocitiesOf_makeState hc).symm.trans h)
      refine .of_same hm .unset h (fun q _ => valid_empty _ q) fun _ y hy => ?_
      rw [show m.evalUnprojectedImpulses.runAt m.makeState = _ from
        eval_of_error velocitiesOf_makeState .unprojectedImpulses] at hy
      cases hy
    | set hv hs => exact hs.unharmed hm hv hc h

/-- The second constraint withholds its Jacobian after the momentum has been evaluated. -/
theorem failure_harmless_sample :
    ∃ p m s t, ContactProblem.withheldSample? = .ok p ∧ build? p = .ok m ∧ m.Reachable s ∧
      (s.memo.get .momentum).valid = true ∧
      m.Unharmed s (.eval .hessian) (.projectionJacobian 1 1) t := by
  let v : Given ℚ := .tensor (Vec.mk .double [3]).toTensor
  obtain ⟨p, hp, h⟩ := Outcome.exists_of_check (x := ContactProblem.withheldSample?)
    (P := fun p => (build? p).toOption.any fun m =>
      let s := m.after (m.after m.makeState (.setVelocities v)) (.eval .momentum)
      (m.stack.members.all fun c => !c.projection.isRule) && (s.memo.get .momentum).valid &&
        match ((m.eval .hessian).runAt s).1 with
        | .error (.projectionJacobian 1 1) => true
        | _ => false) (by decide +kernel)
  obtain ⟨m, hm, h⟩ := Outcome.exists_of_check h
  simp only [Bool.and_eq_true] at h
  obtain ⟨⟨hnamed, hvalid⟩, hfails⟩ := h
  have hreachable : m.Reachable
      (m.after (m.after m.makeState (.setVelocities v)) (.eval .momentum)) :=
    .performed (.performed (.made _) _) _
  refine ⟨p, m, _, _, hp, hm, hreachable, hvalid,
    (failure_harmless (consistent_of_named hnamed) hreachable (c := .eval .hessian)
      (Prod.ext ?_ rfl)).1⟩
  split at hfails
  · assumption
  · cases hfails

end Model

end ConvexContact
