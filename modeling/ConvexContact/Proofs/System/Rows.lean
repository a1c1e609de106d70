import ConvexContact.Proofs.Arithmetic.MachineOrder
import ConvexContact.Proofs.Evaluation.Session
import ConvexContact.System.LineSearch

/-!
# Rows of a line search

The rows of a line search are computed on one state. Setting the velocities puts every quantity out
of date, so a row follows from its sample alone (`LineSearch.runAt_row`), and the rows are those
that states of their own give (`LineSearch.runAt_rows`). Of rows whose costs can be compared, the
search ends with the first one of least cost (`LineSearch.isFirstLeast_of_least`).

Proof shape: `Model.Answers` is what a row needs to know of an evaluation, and composes by
`Answers.bind`. Comparing costs needs two laws of an order (`Ordered`), which hold in exact
arithmetic and for machine numbers that are numbers; both are cases of places in a linear order
(`Ordered.of_places`).
-/

namespace ConvexContact

variable {K : Type}

/-! ## Evaluations that have a value -/

namespace Model

variable [Arith K] {α β : Type} {m : Model K} {v : Vec K}

/-- At all states coherent with the velocities `v` an evaluation answers with `x`. -/
def Answers (m : Model K) (v : Vec K) (e : Evaluation K α) (x : α) : Prop :=
  ∃ t, m.Follows v e t ∧ t.outcome = .ok x

/-- Where two steps in a row answer, the first one answers with its outcome, and the second one goes
on from a state that is coherent too. -/
theorem Follows.exists_of_bind {e : Evaluation K α} {t : Traced K α} {f : α → Evaluation K β}
    {s s' : ModelState K (Quantity.Value K)} {y : β} (he : m.Follows v e t) (hs : m.Coherent v s)
    (h : (e >>= f).runAt s = (.ok y, s')) :
    ∃ a s'', t.outcome = .ok a ∧ m.Coherent v s'' ∧ (f a).runAt s'' = (.ok y, s') := by
  obtain ⟨a, s'', hrun, hrest⟩ := Evaluation.runAt_bind_eq_ok h
  rw [he.runs s hs] at hrun
  obtain ⟨ha, rfl⟩ := Prod.mk.inj hrun
  exact ⟨a, _, ha, hs.learn he.sound, hrest⟩

/-- Steps in a row answer as the last one does, if each of them answers. -/
theorem Answers.bind {e : Evaluation K α} {f : α → Evaluation K β} {x : α} {y : β}
    (he : m.Answers v e x) (hf : m.Answers v (f x) y) : m.Answers v (e >>= f) y := by
  obtain ⟨t, ht, hx⟩ := he
  obtain ⟨t', ht', hy⟩ := hf
  refine ⟨t.andThen fun _ => t', ht.bind fun a ha => ?_, ?_⟩
  · obtain rfl := Except.ok.inj (hx.symm.trans ha)
    exact ht'
  · rw [Traced.outcome_andThen, hx]
    exact hy

/-- What needs no state answers at all states. -/
theorem answers_lift {o : Except (Error K) α} {x : α} (h : o = .ok x) :
    m.Answers v (Evaluation.lift o) x :=
  ⟨_, follows_lift o, h⟩

/-- A quantity that has a value answers with it. -/
theorem answers_eval (hm : m.Consistent) {q : Quantity} {x : Quantity.Value K q}
    (h : m.valueAt v q = .ok x) : m.Answers v (m.eval q) x :=
  ⟨_, follows_eval hm q, h⟩

/-- A model can be summarized where there are impulses, a gradient and a cost. -/
theorem exists_answers_summarize (hm : m.Consistent) {γ g : Vec K} {x : Scalar K}
    (hγ : m.valueAt v .impulses = .ok γ) (hg : m.valueAt v .costGradient = .ok g)
    (hx : m.valueAt v .cost = .ok x) :
    ∃ summary, m.Answers v m.summarize summary ∧ summary.total = x := by
  have hparts := hx
  rw [valueAt_cost] at hparts
  obtain ⟨momentum, hmomentum, hparts⟩ := Outcome.bind_eq_ok.mp hparts
  obtain ⟨regularizer, hregularizer, -⟩ := Outcome.bind_eq_ok.mp hparts
  refine ⟨_, (answers_eval hm hγ).bind ((answers_eval hm hg).bind
    ((answers_eval hm hmomentum).bind ((answers_eval hm hregularizer).bind
      ((answers_eval hm hx).bind (answers_lift rfl))))), ?_⟩
  rfl

/-- The total of a summary is the cost. -/
theorem cost_of_summarize {s s' : ModelState K (Quantity.Value K)} {summary : Summary K}
    (hs : m.Coherent v s) (h : m.summarize.runAt s = (.ok summary, s')) :
    m.valueAt v .cost = .ok summary.total := by
  obtain ⟨γ, s₁, -, hs₁, h⟩ := follows_impulses.exists_of_bind hs h
  obtain ⟨g, s₂, -, hs₂, h⟩ := follows_costGradient.exists_of_bind hs₁ h
  obtain ⟨momentum, s₃, -, hs₃, h⟩ := follows_momentumCost.exists_of_bind hs₂ h
  obtain ⟨regularizer, s₄, -, hs₄, h⟩ := follows_regularizerCost.exists_of_bind hs₃ h
  obtain ⟨total, s₅, htotal, -, h⟩ := follows_cost.exists_of_bind hs₄ h
  rw [← Except.ok.inj (Prod.mk.inj h).1]
  exact htotal

/-- The product answers where the blocks of the Hessian do. -/
theorem answers_multiplyHessian (hm : m.Consistent) {G : List (Mat K)} {w q : Vec K}
    (hG : m.valueAt v .constraintsHessian = .ok G) (hq : m.multiplyHessianOf G w = .ok q) :
    m.Answers v (m.multiplyHessian (.tensor w.toTensor)) q := by
  refine (answers_eval hm hG).bind ((answers_lift rfl).bind (answers_lift ?_))
  rw [multiplyHessianTensor, Vec.ofTensor?_toTensor]
  exact hq

end Model

namespace LineSearch

/-! ## Rows on one state

By induction on the samples. Each row begins by setting the velocities, which makes the state
coherent with them whatever was evaluated before. -/

section Rows

variable [Arith K] {m : Model K}

/-- The row of a sample on a state that nothing has been asked of. -/
def alone (m : Model K) (d : Vec K) (σ : K) : Except (Error K) (Row K) :=
  ((row m d σ).run m.makeState).1

/-- What a row asks of the model once the velocities have been set. -/
def readings (m : Model K) (d : Vec K) (σ : K) : Evaluation K (Row K) := do
  let summary ← m.summarize
  let gradient ← m.evalCostGradient
  let product ← m.multiplyHessian (.tensor d.toTensor)
  return ⟨σ, summary, gradient.dot d, d.dot product⟩

/-- What a row asks for can be followed from all coherent states. -/
theorem exists_follows_readings (hm : m.Consistent) (v d : Vec K) (σ : K) :
    ∃ t, m.Follows v (readings m d σ) t := by
  apply Model.exists_follows_bind (Model.exists_follows_perform hm (c := .summarize) rfl)
  intro summary
  apply Model.exists_follows_bind (Model.exists_follows_perform hm (c := .eval .costGradient) rfl)
  intro gradient
  apply Model.exists_follows_bind
    (Model.exists_follows_perform hm (c := .multiplyHessian (.tensor d.toTensor)) rfl)
  exact fun product => ⟨_, Model.follows_pure _⟩

/-- **Step.** What a row is does not depend on the state it is computed on, and it leaves a state of
the same size. -/
theorem runAt_row (hm : m.Consistent) (d : Vec K) (σ : K)
    {t : ModelState K (Quantity.Value K)} (ht : t.size = m.velocityCount) :
    ∃ t', (row m d σ).runAt t = (alone m d σ, t') ∧ t'.size = m.velocityCount := by
  have hrow : row m d σ = (do
      m.setVelocities (.tensor (m.vStar.add (d.scale σ)).toTensor)
      readings m d σ) := rfl
  have halone : alone m d σ = ((row m d σ).runAt m.makeState).1 := rfl
  rw [halone, hrow]
  -- velocities of another size are refused, and then both states stay as they are
  cases hv : (Given.tensor (m.vStar.add (d.scale σ)).toTensor).velocities m.velocityCount with
  | error e =>
    rw [Evaluation.runAt_bind_of_error _ (Model.runAt_setVelocities_of_error ht hv),
      Evaluation.runAt_bind_of_error _ (Model.runAt_setVelocities_of_error rfl hv)]
    exact ⟨t, rfl, ht⟩
  | ok v =>
    obtain ⟨T, hT⟩ := exists_follows_readings hm v d σ
    rw [Evaluation.runAt_bind_of_ok _ (Model.runAt_setVelocities_of_ok ht hv),
      Evaluation.runAt_bind_of_ok _ (Model.runAt_setVelocities_of_ok rfl hv),
      hT.runs _ (Model.coherent_replace ht v), hT.runs _ (Model.coherent_replace rfl v)]
    exact ⟨_, rfl, (Model.size_learn _ _).trans ht⟩

/-- Where there are readings, there is a row. -/
theorem alone_of_answers {d : Vec K} {σ : K} {r : Row K}
    (hsize : (m.vStar.add (d.scale σ)).size = m.velocityCount)
    (hr : m.Answers (m.vStar.add (d.scale σ)) (readings m d σ) r) : alone m d σ = .ok r := by
  obtain ⟨t, ht, hr⟩ := hr
  have hset := Model.runAt_setVelocities_of_ok (s := m.makeState) rfl
    (Given.velocities_toTensor hsize)
  have hrow : alone m d σ = ((do
      m.setVelocities (.tensor (m.vStar.add (d.scale σ)).toTensor)
      readings m d σ : Evaluation K (Row K)).runAt m.makeState).1 := rfl
  rw [hrow, Evaluation.runAt_bind_of_ok _ hset,
    ht.runs _ (Model.coherent_replace rfl (m.vStar.add (d.scale σ))), hr]

/-- A row is that of its sample. -/
theorem s_of_alone {d : Vec K} {σ : K} {r : Row K} (h : alone m d σ = .ok r) : r.s = σ := by
  have hrun : (row m d σ).runAt m.makeState = (.ok r, ((row m d σ).runAt m.makeState).2) :=
    Prod.ext h rfl
  obtain ⟨_, t₁, -, hrun⟩ := Evaluation.runAt_bind_eq_ok hrun
  obtain ⟨summary, t₂, -, hrun⟩ := Evaluation.runAt_bind_eq_ok hrun
  obtain ⟨gradient, t₃, -, hrun⟩ := Evaluation.runAt_bind_eq_ok hrun
  obtain ⟨product, t₄, -, hrun⟩ := Evaluation.runAt_bind_eq_ok hrun
  rw [← Except.ok.inj (Prod.mk.inj hrun).1]

/-- The cost of a row is that of the model at some velocities. -/
theorem exists_cost_of_alone {d : Vec K} {σ : K} {r : Row K} (h : alone m d σ = .ok r) :
    ∃ v, m.valueAt v .cost = .ok r.summary.total := by
  have hrun : (row m d σ).runAt m.makeState = (.ok r, ((row m d σ).runAt m.makeState).2) :=
    Prod.ext h rfl
  obtain ⟨_, s₁, hset, hrun⟩ := Evaluation.runAt_bind_eq_ok hrun
  obtain ⟨summary, s₂, hsummary, hrun⟩ := Evaluation.runAt_bind_eq_ok hrun
  obtain ⟨gradient, s₃, -, hrun⟩ := Evaluation.runAt_bind_eq_ok hrun
  obtain ⟨product, s₄, -, hrun⟩ := Evaluation.runAt_bind_eq_ok hrun
  have hr := Except.ok.inj (Prod.mk.inj hrun).1
  rw [Model.runAt_setVelocities rfl] at hset
  split at hset
  case h_2 => cases hset
  case h_1 v _ =>
    obtain ⟨-, rfl⟩ := Prod.mk.inj hset
    refine ⟨v, ?_⟩
    rw [Model.cost_of_summarize (Model.coherent_replace rfl v) hsummary, ← hr]

/-- **Run.** The rows on one state are those on states of their own, up to the first failure. -/
theorem runAt_rows (hm : m.Consistent) (d : Vec K) (points : List K)
    {t : ModelState K (Quantity.Value K)} (ht : t.size = m.velocityCount) :
    ((rows m d points).runAt t).1 = points.mapM (alone m d) := by
  induction points generalizing t with
  | nil => rfl
  | cons σ points ih =>
    obtain ⟨t', hrow, ht'⟩ := runAt_row hm d σ ht
    have hrest := ih ht'
    rw [rows] at hrest ⊢
    rw [List.mapM_cons, List.mapM_cons]
    cases halone : alone m d σ with
    | error e =>
      rw [halone] at hrow
      rw [Evaluation.runAt_bind_of_error _ hrow]
      rfl
    | ok r =>
      rw [halone] at hrow
      rw [Evaluation.runAt_bind_of_ok _ hrow, Outcome.bind_of_ok _ rfl, ← hrest,
        Evaluation.runAt_bind]
      rcases (points.mapM (row m d)).runAt t' with ⟨e | rs, t''⟩ <;> rfl

end Rows

/-! ## The row of least cost

By induction on the rows that have not been compared yet. The invariant is that the best row so far
is the first least one of those that have. -/

section Least

variable [Arith K] {rs : List (Row K)} {best : Row K}

/-- The cost of a row. -/
def Row.cost (r : Row K) : K := r.summary.total.value

/-- Costs that can be compared with each other, as all can but those that are no numbers: less is
never so both ways, and what is less than another cost is less than a third one, or the third one is
less than the other. -/
structure Ordered (rs : List (Row K)) : Prop where
  asymm : ∀ a ∈ rs, ∀ b ∈ rs, Arith.lt a.cost b.cost = true → Arith.lt b.cost a.cost = false
  splits : ∀ a ∈ rs, ∀ b ∈ rs, ∀ c ∈ rs, Arith.lt a.cost b.cost = true →
    Arith.lt a.cost c.cost = true ∨ Arith.lt c.cost b.cost = true

/-- A row that costs less than all rows before it, and not more than any row after it. -/
def IsFirstLeast (rs : List (Row K)) (best : Row K) : Prop :=
  ∃ before after, rs = before ++ best :: after ∧
    (∀ r ∈ before, Arith.lt best.cost r.cost = true) ∧
    ∀ r ∈ after, Arith.lt r.cost best.cost = false

/-- Part of what can be compared can be compared. -/
theorem Ordered.of_append {rs' : List (Row K)} (h : Ordered (rs ++ rs')) : Ordered rs :=
  ⟨fun a ha b hb => h.asymm a (List.mem_append_left _ ha) b (List.mem_append_left _ hb),
    fun a ha b hb c hc => h.splits a (List.mem_append_left _ ha) b (List.mem_append_left _ hb) c
      (List.mem_append_left _ hc)⟩

/-- **Step.** One more row is compared with the best one so far. -/
theorem IsFirstLeast.concat (h : IsFirstLeast rs best) {r : Row K} (hr : Ordered (rs ++ [r])) :
    IsFirstLeast (rs ++ [r]) (if Arith.lt r.cost best.cost then r else best) := by
  obtain ⟨before, after, rfl, hbefore, hafter⟩ := h
  have hlast : r ∈ before ++ best :: after ++ [r] := by simp
  have hbest : best ∈ before ++ best :: after ++ [r] := by simp
  split
  case isTrue hless =>
    -- what is less than the best row is less than all rows that are not less than it
    have hall : ∀ x ∈ before ++ best :: after, Arith.lt x.cost best.cost = false →
        Arith.lt r.cost x.cost = true := by
      intro x hx hnot
      have hx' : x ∈ before ++ best :: after ++ [r] := List.mem_append_left _ hx
      refine (hr.splits r hlast best hbest x hx' hless).resolve_right fun hxbest => ?_
      rw [hnot] at hxbest
      cases hxbest
    refine ⟨before ++ best :: after, [], rfl, fun x hx => hall x hx ?_, by simp⟩
    rcases List.mem_append.mp hx with hmem | hmem
    · have hx' : x ∈ before ++ best :: after ++ [r] := List.mem_append_left _ hx
      exact hr.asymm best hbest x hx' (hbefore x hmem)
    · rcases List.mem_cons.mp hmem with rfl | hmem
      · cases hself : Arith.lt x.cost x.cost with
        | false => rfl
        | true => exact hself.symm.trans (hr.asymm x hbest x hbest hself)
      · exact hafter x hmem
  case isFalse hnot =>
    -- a row that costs as much comes too late
    refine ⟨before, after ++ [r], by simp, hbefore, fun x hx => ?_⟩
    rcases List.mem_append.mp hx with hmem | hmem
    · exact hafter x hmem
    · rw [List.mem_singleton.mp hmem]
      exact Bool.eq_false_iff.mpr hnot

/-- **Run.** So are the rows that are left, one after the other. -/
theorem IsFirstLeast.foldl {rest : List (Row K)} (h : IsFirstLeast rs best)
    (hr : Ordered (rs ++ rest)) :
    IsFirstLeast (rs ++ rest) (rest.foldl (fun best r =>
      if Arith.lt r.summary.total.value best.summary.total.value then r else best) best) := by
  induction rest generalizing rs best with
  | nil =>
    rw [List.append_nil]
    exact h
  | cons r rest ih =>
    rw [List.append_cons] at hr ⊢
    exact ih (h.concat hr.of_append) hr

/-- Some row is found to be the best one if there are any. -/
theorem exists_least (h : rs ≠ []) : ∃ best, least rs = some best := by
  obtain ⟨r, rest, rfl⟩ := List.exists_cons_of_ne_nil h
  exact ⟨_, rfl⟩

/-- **Least row.** The fold starts with the first row, the best one of itself. -/
theorem isFirstLeast_of_least (hr : Ordered rs) (h : least rs = some best) :
    IsFirstLeast rs best := by
  cases rs with
  | nil => cases h
  | cons r rest =>
    obtain rfl := Option.some.inj h
    have hfirst : IsFirstLeast [r] r := ⟨[], [], rfl, by simp, by simp⟩
    exact hfirst.foldl hr

end Least

/-- Costs that are compared as their places in a linear order are can be compared. -/
theorem Ordered.of_places [Arith K] {α : Type} [LinearOrder α] {rs : List (Row K)}
    (place : Row K → α)
    (h : ∀ a ∈ rs, ∀ b ∈ rs, Arith.lt a.cost b.cost = true ↔ place a < place b) : Ordered rs where
  asymm a ha b hb hab := by
    rw [← Bool.not_eq_true, h b hb a ha]
    exact ((h a ha b hb).mp hab).not_gt
  splits a ha b hb c hc hab := by
    rw [h a ha c hc, h c hc b hb]
    exact (lt_or_ge (place a) (place c)).imp_right fun hca => hca.trans_lt ((h a ha b hb).mp hab)

/-- Exact costs can be compared, -/
theorem ordered_exact [ExactField K] (rs : List (Row K)) : Ordered rs :=
  .of_places Row.cost fun _ _ _ _ => Arith.lt_eq_true_iff

/-- and so can machine numbers, unless there is one among them that is no number. -/
theorem ordered_of_fractions {rs : List (Row Number)}
    (h : ∀ r ∈ rs, ∃ x, r.cost = .float x ∧ x.isNaN = false) : Ordered rs := by
  refine .of_places (fun r => machineRank r.cost.toFloat.toModel.unpack) fun a ha b hb => ?_
  obtain ⟨x, hx, hxn⟩ := h a ha
  obtain ⟨y, hy, hyn⟩ := h b hb
  rw [hx, hy]
  exact Number.lt_float_iff hxn hyn

end LineSearch

/-! ## Costs of machine numbers

A cost is stored in a format of fractions, as half of a number is one. So any two costs are
comparable unless one of them is no number. -/

/-- What is stored in a floating format is a fraction. -/
theorem Number.exists_cast_eq {f : Format} (hf : f.isFloating = true) (x : Number) :
    ∃ y, Arith.cast f x = Number.float y := by
  cases f with
  | boolean | integer => cases hf
  | single => cases x <;> exact ⟨_, rfl⟩
  | double => exact ⟨_, rfl⟩

/-- The cost of a model is a fraction, since half of a number is one. -/
theorem Model.exists_cost_eq {m : Model Number} {v : Vec Number} {x : Scalar Number}
    (h : m.valueAt v .cost = .ok x) : ∃ y, x.value = .float y := by
  rw [valueAt_cost] at h
  obtain ⟨momentum, -, h⟩ := Outcome.bind_eq_ok.mp h
  obtain ⟨regularizer, hregularizer, h⟩ := Outcome.bind_eq_ok.mp h
  rw [valueAt_regularizerCost] at hregularizer
  obtain ⟨γ, -, hregularizer⟩ := Outcome.bind_eq_ok.mp hregularizer
  rw [← Except.ok.inj h, ← Except.ok.inj hregularizer]
  exact Number.exists_cast_eq (Format.isFloating_join_real _ _) _

/-- Rows whose costs are numbers can be compared by them. -/
theorem LineSearch.ordered_of_alone {m : Model Number} {d : Vec Number}
    {rs : List (LineSearch.Row Number)} (hrows : ∀ r ∈ rs, ∃ σ, LineSearch.alone m d σ = .ok r)
    (hnumbers : ∀ r ∈ rs, r.cost.toFloat.isNaN = false) : LineSearch.Ordered rs := by
  refine LineSearch.ordered_of_fractions fun r hr => ?_
  obtain ⟨σ, hσ⟩ := hrows r hr
  obtain ⟨v, hv⟩ := LineSearch.exists_cost_of_alone hσ
  obtain ⟨x, hx⟩ := Model.exists_cost_eq hv
  have hnumber := hnumbers r hr
  have hcost : r.cost = .float x := hx
  rw [hcost] at hnumber
  exact ⟨x, hcost, hnumber⟩

end ConvexContact
