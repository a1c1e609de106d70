import ConvexContact.Proofs.Evaluation.Transcript

/-!
# Evaluation in any order

Between two replacements of the velocities it does not matter in which order a model is asked. At a
state that a caller can bring about

* the reply to a command is the same before and after any other command that replaces no velocities
  (`Model.Standing.replyTo_after`);
* two commands that set no velocities leave the same state in either order
  (`Model.Standing.after_comm`).

Both hold of commands that fail, and that have memorized something before they did. From these two
facts about two commands the runs follow by induction: on the list of commands for replies, on the
permutation for states. Main statement: `Model.order_irrelevant`.
-/

namespace ConvexContact

namespace Model

variable {K : Type} [Arith K] {m : Model K} {v : Vec K} {s t : ModelState K (Quantity.Value K)}
  {b c : Command K}

/-! ## Two commands

At a coherent state a command has a trace, and what two traces complete is learnt in either order
with the same result. Where the state is not coherent, a command that sets no velocities changes
nothing. -/

/-- A reply depends on the velocities only. -/
theorem replyTo_of_coherent (hm : m.Consistent) (hs : m.Coherent v s) (ht : m.Coherent v t)
    (c : Command K) : m.replyTo s c = m.replyTo t c := by
  cases hc : c.given? with
  | some g =>
    obtain rfl := Command.eq_setVelocities hc
    cases hg : g.velocities m.velocityCount with
    | error e =>
      rw [replyTo_of_runAt (c := .setVelocities g) (runAt_setVelocities_of_error hs.size hg),
        replyTo_of_runAt (c := .setVelocities g) (runAt_setVelocities_of_error ht.size hg)]
    | ok w =>
      rw [replyTo_of_runAt (c := .setVelocities g) (runAt_setVelocities_of_ok hs.size hg),
        replyTo_of_runAt (c := .setVelocities g) (runAt_setVelocities_of_ok ht.size hg)]
  | none =>
    obtain ⟨trace, htrace⟩ := exists_follows_perform hm hc
    rw [replyTo_of_runAt (htrace.runs _ hs), replyTo_of_runAt (htrace.runs _ ht)]

/-- **Answers.** A command that replaces no velocities does not change the reply to any other. -/
theorem Standing.replyTo_after (hm : m.Consistent) (h : m.Standing s)
    (hc : (m.replyTo s c).replaces = false) (b : Command K) :
    m.replyTo (m.after s c) b = m.replyTo s b := by
  cases hgiven : c.given? with
  | some g =>
    obtain rfl := Command.eq_setVelocities hgiven
    rw [after_setVelocities hc]
  | none =>
    cases h with
    | foreign hsize hempty => rw [after_of_runAt (perform_foreign hsize c)]
    | unset => rw [after_of_runAt (perform_of_error velocitiesOf_makeState hgiven)]
    | set hv hs =>
      obtain ⟨trace, htrace⟩ := exists_follows_perform hm hgiven
      rw [after_of_runAt (htrace.runs _ hs)]
      exact replyTo_of_coherent hm (hs.learn htrace.sound) hs b

/-- **States.** Two commands that set no velocities leave the same state in either order. -/
theorem Standing.after_comm (hm : m.Consistent) (h : m.Standing s) (hb : b.given? = none)
    (hc : c.given? = none) : m.after (m.after s b) c = m.after (m.after s c) b := by
  cases h with
  | foreign hsize hempty =>
    -- nothing happens to a state of another size
    have hkeep : ∀ d, m.after s d = s := fun d => after_of_runAt (perform_foreign hsize d)
    simp only [hkeep]
  | unset =>
    have hkeep : ∀ d : Command K, d.given? = none → m.after m.makeState d = m.makeState :=
      fun d hd => after_of_runAt (perform_of_error velocitiesOf_makeState hd)
    rw [hkeep b hb, hkeep c hc, hkeep b hb]
  | @set s v hv hs =>
    obtain ⟨traceb, htraceb⟩ := exists_follows_perform (v := v) hm hb
    obtain ⟨tracec, htracec⟩ := exists_follows_perform (v := v) hm hc
    rw [after_of_runAt (htraceb.runs _ hs), after_of_runAt (htracec.runs _ hs),
      after_of_runAt (htracec.runs _ (hs.learn htraceb.sound)),
      after_of_runAt (htraceb.runs _ (hs.learn htracec.sound)), ← learn_append, ← learn_append]
    -- either order learns what both traces complete, and learning is a matter of sets
    exact learn_congr (fun q => by simp only [List.mem_append, or_comm]) s

/-! ## Runs -/

/-- After commands none of which has replaced the velocities, the reply to a command is the one it
would have got before. -/
theorem Standing.replyTo_performAll (hm : m.Consistent) (h : m.Standing s) {cs : List (Command K)}
    (hcs : ∀ x ∈ (m.performAll s cs).1, x.replaces = false) (b : Command K) :
    m.replyTo (m.performAll s cs).2 b = m.replyTo s b := by
  induction cs generalizing s with
  | nil => rfl
  | cons c cs ih =>
    obtain ⟨hc, hrest⟩ := List.forall_mem_cons.mp hcs
    exact (ih (h.after hm c) hrest).trans (h.replyTo_after hm hc b)

/-- Each of several commands that set no velocities gets the reply it would get as the only one. -/
theorem Standing.replies_eq (hm : m.Consistent) (h : m.Standing s) {cs : List (Command K)}
    (hcs : ∀ c ∈ cs, c.given? = none) : (m.performAll s cs).1 = cs.map (m.replyTo s) := by
  induction cs generalizing s with
  | nil => rfl
  | cons c cs ih =>
    obtain ⟨hc, hrest⟩ := List.forall_mem_cons.mp hcs
    have hreplaces := Reply.replaces_of_given?_eq_none (x := m.replyTo s c) hc
    rw [performAll_cons, ih (h.after hm c) hrest, List.map_cons]
    exact congrArg _ (List.map_congr_left fun b _ => h.replyTo_after hm hreplaces b)

/-- Commands that set no velocities leave the same state in any order. -/
theorem Standing.performAll_perm (hm : m.Consistent) (h : m.Standing s) {cs cs' : List (Command K)}
    (hperm : cs.Perm cs') (hcs : ∀ c ∈ cs, c.given? = none) :
    (m.performAll s cs).2 = (m.performAll s cs').2 := by
  induction hperm generalizing s with
  | nil => rfl
  | cons c _ ih => exact ih (h.after hm c) (List.forall_mem_cons.mp hcs).2
  | swap b c cs =>
    obtain ⟨hb, hc⟩ := List.forall_mem_cons.mp hcs
    have hcomm := h.after_comm hm hb (List.forall_mem_cons.mp hc).1
    simp only [performAll_cons, hcomm]
  | trans hfirst _ ih ih' =>
    exact (ih h hcs).trans (ih' h fun c hc => hcs c (hfirst.mem_iff.mpr hc))

/-- **Order.** At a state that a caller can bring about, let commands that set no velocities be
performed in two orders. In both, every command gets the reply that it would get as the first one,
be it a value or an error, and the states that are left are the same: velocities, memorized values,
what is up to date, and how often each quantity has been computed. -/
theorem order_irrelevant (hm : m.Consistent) (hs : m.Reachable s) {cs cs' : List (Command K)}
    (hperm : cs.Perm cs') (hcs : ∀ c ∈ cs, c.given? = none) :
    (m.performAll s cs).1 = cs.map (m.replyTo s) ∧
      (m.performAll s cs').1 = cs'.map (m.replyTo s) ∧
      (m.performAll s cs).2 = (m.performAll s cs').2 := by
  have h := hs.standing hm
  exact ⟨h.replies_eq hm hcs, h.replies_eq hm fun c hc => hcs c (hperm.mem_iff.mpr hc),
    h.performAll_perm hm hperm hcs⟩

end Model

namespace ContactProblem

/-- One clique that two constraints push at; the second one withholds its Jacobian. -/
def withheldSample? : Except (Error ℚ) (ContactProblem ℚ) := do
  let p ← build? ⟨.double, 1 / 100⟩ [.tensor (.ofSlabs .double [1] [[4]])]
    (.tensor (Vec.mk .double [1]).toTensor)
  let law : Law ℚ :=
    { bias := (Term.fixed (.tensor (Vec.mk .double [0]).toTensor)).side
      regularization := (Term.fixed (.tensor (Vec.mk .double [1]).toTensor)).side }
  let push (P : Projection ℚ) := Constraint.build? law P (.tensor (Vec.mk .double [0]).toTensor) 0
    (.tensor (.ofSlabs .double [1] [[1]])) none none
  p.addAll [← push .nonneg, ← push .withoutJacobian]

end ContactProblem

namespace Model

/-- Requests that fail, among others that do not. -/
def sampleRefusals : List (Command ℚ) :=
  [.eval .hessian, .eval .cost, .multiplyHessian (.tensor (Vec.mk .double []).toTensor),
    .eval .impulses]

/-- Four requests in both orders, where two of them fail and the blocks fail half way. -/
theorem order_irrelevant_sample :
    ∃ p m s, ContactProblem.withheldSample? = .ok p ∧ build? p = .ok m ∧ m.Reachable s ∧
      ((m.eval .hessian).runAt s).1 = .error (.projectionJacobian 1 1) ∧
      (m.performAll s sampleRefusals).1 = sampleRefusals.map (m.replyTo s) ∧
      (m.performAll s sampleRefusals.reverse).1 = sampleRefusals.reverse.map (m.replyTo s) ∧
      (m.performAll s sampleRefusals).2 = (m.performAll s sampleRefusals.reverse).2 := by
  let v : Given ℚ := .tensor (Vec.mk .double [3]).toTensor
  obtain ⟨p, hp, h⟩ := Outcome.exists_of_check (x := ContactProblem.withheldSample?)
    (P := fun p => (build? p).toOption.any fun m =>
      (m.stack.members.all fun c => !c.projection.isRule) &&
        match ((m.eval .hessian).runAt (m.after m.makeState (.setVelocities v))).1 with
        | .error (.projectionJacobian 1 1) => true
        | _ => false) (by decide +kernel)
  obtain ⟨m, hm, h⟩ := Outcome.exists_of_check h
  obtain ⟨hnamed, hfails⟩ := Bool.and_eq_true_iff.mp h
  have hreachable : m.Reachable (m.after m.makeState (.setVelocities v)) :=
    .performed (.made _) _
  refine ⟨p, m, _, hp, hm, hreachable, ?_,
    order_irrelevant (consistent_of_named hnamed) hreachable (List.reverse_perm _).symm (by decide)⟩
  split at hfails
  · assumption
  · cases hfails

end Model

end ConvexContact
