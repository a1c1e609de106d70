import Mathlib.Data.Set.Lattice
import Mathlib.Logic.Relation
import ConvexContact.Proofs.Evaluation.Transcript

/-!
# What an evaluation records

Which quantities are brought up to date can be told from the requests alone. `Quantity.needs` lists
what a quantity is computed from or together with, and `Quantity.closure` is all that it needs in
the end. `ModelState.Records` says that two states differ in that a set of quantities has been
brought up to date: each of them by one computation, unless it was up to date already.

An evaluation that succeeds records the closure of what is asked for (`Model.Brings`). Nothing is
assumed of the projections here, since what is said is that values are computed, and not which ones.

Proof shape: closures are sets of reachable quantities, so that being closed is transitivity. The
needs are acyclic by `Quantity.rank`, which is why a computation never stores the quantity it is
made for (`Quantity.notMem_needed`). Records compose (`ModelState.Records.trans`), and a hit records
a closure only at a state in order, where what a valid cell needs is valid as well
(`Model.Brings.memoized`).
-/

namespace ConvexContact

variable {K α β : Type}

/-! ## What a quantity needs

The direct needs are a list, and all needs are what can be reached from a quantity by direct ones.
Closures are sets, since the same need is met along several ways. -/

namespace Quantity

/-- What a quantity is computed from. The blocks of the Hessian are computed together with the
impulses. -/
def needs : Quantity → List Quantity
  | constraintVelocities | momentum => []
  | momentumGain => [momentum]
  | momentumCost => [momentumGain]
  | unprojectedImpulses => [constraintVelocities]
  | impulses => [unprojectedImpulses]
  | constraintsHessian => [unprojectedImpulses, impulses]
  | regularizerCost => [impulses]
  | cost => [momentumCost, regularizerCost]
  | costGradient => [momentumGain, impulses]
  | hessian => [constraintsHessian]

/-- A quantity with all that it needs, and all that these need. -/
def closure (q : Quantity) : Set Quantity :=
  {r | Relation.ReflTransGen (fun a b => b ∈ a.needs) q r}

/-- A quantity needs itself and what its direct needs need, from which closures are unfolded. -/
theorem closure_eq (q : Quantity) : q.closure = insert q (⋃ d ∈ q.needs, d.closure) := by
  ext r
  simp only [closure, Set.mem_ofPred_eq, Set.mem_insert_iff, Set.mem_iUnion, exists_prop]
  rw [Relation.ReflTransGen.cases_head_iff, eq_comm]

example : cost.closure = {cost, regularizerCost, impulses, unprojectedImpulses,
    constraintVelocities, momentumCost, momentumGain, momentum} := by
  simp [closure_eq cost, closure_eq momentumCost, closure_eq momentumGain, closure_eq momentum,
    closure_eq regularizerCost, closure_eq impulses, closure_eq unprojectedImpulses,
    closure_eq constraintVelocities, needs]

/-- Needs are of lower rank, so they have no cycles. -/
theorem rank_lt_of_mem_needs {q d : Quantity} (h : d ∈ q.needs) : d.rank < q.rank := by
  revert h
  cases q <;> cases d <;> decide

/-- Whatever a quantity needs in the end is of no higher rank. -/
theorem rank_le_of_mem_closure {q r : Quantity} (h : r ∈ q.closure) : r.rank ≤ q.rank := by
  induction h with
  | refl => exact Nat.le_refl _
  | tail _ hneeds ih => exact (Nat.le_of_lt (rank_lt_of_mem_needs hneeds)).trans ih

/-- No quantity needs itself. -/
theorem notMem_needed (q : Quantity) : q ∉ ⋃ d ∈ q.needs, d.closure := by
  intro h
  obtain ⟨d, hd, hq⟩ := Set.mem_iUnion₂.mp h
  exact Nat.lt_irrefl _ ((rank_le_of_mem_closure hq).trans_lt (rank_lt_of_mem_needs hd))

/-- A set of quantities with all that they need. -/
def Closed (D : Set Quantity) : Prop := ∀ q ∈ D, q.closure ⊆ D

theorem closed_empty : Closed ∅ := fun _ h => absurd h (Set.notMem_empty _)

theorem closed_closure (q : Quantity) : Closed q.closure :=
  fun _ hr _ hr' => Relation.ReflTransGen.trans hr hr'

theorem Closed.union {D E : Set Quantity} (hD : Closed D) (hE : Closed E) : Closed (D ∪ E) := by
  rintro q (hq | hq)
  · exact (hD q hq).trans Set.subset_union_left
  · exact (hE q hq).trans Set.subset_union_right

/-- What several quantities need is closed. -/
theorem closed_biUnion (qs : List Quantity) : Closed (⋃ q ∈ qs, q.closure) := by
  intro r hr r' hr'
  obtain ⟨q, hq, hr⟩ := Set.mem_iUnion₂.mp hr
  exact Set.mem_iUnion₂.mpr ⟨q, hq, closed_closure q r hr hr'⟩

end Quantity

/-! ## What is recorded

A relation between two states, without the evaluation in between. It says of a quantity outside of
the set that its cell is the same one, and of a quantity of the set that it is up to date
afterwards. -/

namespace ModelState

open Quantity

variable {F : Quantity → Type} {D E : Set Quantity} {s t u : ModelState K F}

/-- State `t` differs from `s` in that the quantities of a set have been brought up to date, those
by one computation each that were not. -/
structure Records (D : Set Quantity) (s t : ModelState K F) : Prop where
  size : t.size = s.size
  velocities : t.velocities = s.velocities
  kept : ∀ q, q ∉ D ∨ (s.memo.get q).valid = true → t.memo.get q = s.memo.get q
  stored : ∀ q ∈ D, (s.memo.get q).valid = false → ∃ x, t.memo.get q = (s.memo.get q).set x

/-- Where a set is up to date already, recording it changes nothing. -/
theorem Records.of_valid (h : ∀ q ∈ D, (s.memo.get q).valid = true) : Records D s s :=
  ⟨rfl, rfl, fun _ _ => rfl, fun q hq hvalid => absurd (h q hq) (by simp [hvalid])⟩

theorem Records.refl (s : ModelState K F) : Records ∅ s s :=
  .of_valid fun _ h => absurd h (Set.notMem_empty _)

/-- One cell that is out of date is stored. -/
theorem Records.store {q : Quantity} (h : (s.memo.get q).valid = false) (x : F q) :
    Records {q} s (s.store q x) := by
  refine ⟨rfl, rfl, fun r hr => ?_, fun r hr _ => ?_⟩
  · have hne : r ≠ q := by
      rintro rfl
      simp [h] at hr
    simp [ModelState.store, MemoTable.set, MemoTable.get_put_of_ne, hne]
  · obtain rfl := Set.mem_singleton_iff.mp hr
    exact ⟨x, by simp [ModelState.store, MemoTable.set]⟩

/-- What is up to date afterwards was before, or has been recorded. -/
theorem Records.valid_iff (h : Records D s t) (q : Quantity) :
    (t.memo.get q).valid = true ↔ (s.memo.get q).valid = true ∨ q ∈ D := by
  by_cases hq : q ∈ D
  · cases hvalid : (s.memo.get q).valid with
    | true => simp [h.kept q (Or.inr hvalid), hvalid]
    | false =>
      obtain ⟨x, hx⟩ := h.stored q hq hvalid
      simp [hx, MemoCell.set, hq]
  · simp [h.kept q (Or.inl hq), hq]

/-- A quantity has been computed once more, unless it was up to date or has not been recorded. -/
theorem Records.updates_eq (h : Records D s t) (q : Quantity) :
    (t.memo.get q).updates =
      (s.memo.get q).updates +
        if (t.memo.get q).valid = true ∧ (s.memo.get q).valid = false then 1 else 0 := by
  cases hvalid : (s.memo.get q).valid with
  | true => simp [h.kept q (Or.inr hvalid)]
  | false =>
    by_cases hq : q ∈ D
    · obtain ⟨x, hx⟩ := h.stored q hq hvalid
      simp [hx, MemoCell.set]
    · simp [h.kept q (Or.inl hq), hvalid]

/-- One after the other. -/
theorem Records.trans (h : Records D s t) (h' : Records E t u) : Records (D ∪ E) s u := by
  refine ⟨h'.size.trans h.size, h'.velocities.trans h.velocities, fun q hq => ?_,
    fun q hq hvalid => ?_⟩
  · have hfirst : t.memo.get q = s.memo.get q := h.kept q (hq.imp_left fun hq hD => hq (Or.inl hD))
    refine (h'.kept q (hq.imp (fun hq hE => hq (Or.inr hE)) fun hvalid => ?_)).trans hfirst
    rw [hfirst, hvalid]
  -- stored by the first step and kept by the second, or the other way round
  · by_cases hD : q ∈ D
    · obtain ⟨x, hx⟩ := h.stored q hD hvalid
      exact ⟨x, (h'.kept q (Or.inr (by rw [hx]; rfl))).trans hx⟩
    · have hfirst := h.kept q (Or.inl hD)
      obtain ⟨x, hx⟩ := h'.stored q (hq.resolve_left hD) (by rw [hfirst, hvalid])
      exact ⟨x, by rw [hx, hfirst]⟩

/-- A state where what is up to date has a value, and has all that it needs up to date too. -/
structure Orderly (s : ModelState K F) : Prop where
  filled : ∀ q, (s.memo.get q).valid = true → ∃ x, (s.memo.get q).value = some x
  closed : Closed {q | (s.memo.get q).valid = true}

theorem Orderly.of_invalid (h : ∀ q, (s.memo.get q).valid = false) : Orderly s :=
  ⟨fun q hq => by simp [h] at hq, fun q hq => by simp [h] at hq⟩

/-- Recording sets that are closed keeps states in order. -/
theorem Orderly.records (hs : Orderly s) (h : Records D s t) (hD : Closed D) : Orderly t := by
  refine ⟨fun q hq => ?_, ?_⟩
  · cases hvalid : (s.memo.get q).valid with
    | true =>
      rw [h.kept q (Or.inr hvalid)]
      exact hs.filled q hvalid
    | false =>
      have hmem : q ∈ D := ((h.valid_iff q).mp hq).resolve_left (by simp [hvalid])
      obtain ⟨x, hx⟩ := h.stored q hmem hvalid
      exact ⟨x, by rw [hx]; rfl⟩
  · have hset : {q | (t.memo.get q).valid = true} = {q | (s.memo.get q).valid = true} ∪ D :=
      Set.ext h.valid_iff
    rw [hset]
    exact hs.closed.union hD

end ModelState

/-! ## Evaluations that succeed

`Brings` is proved along the way an evaluation is built, like `Follows` is, but for any projections.
An evaluation that fails is not described, as it may stop anywhere. -/

namespace Model

open Quantity ModelState

/-- An evaluation that succeeds at a state in order records a set of quantities. -/
def Brings (e : Evaluation K α) (D : Set Quantity) : Prop :=
  ∀ s t x, Orderly s → e.runAt s = (.ok x, t) → Records D s t

/-- A step that only reports an outcome records nothing. -/
theorem brings_lift (x : Except (Error K) α) : Brings (Evaluation.lift x) ∅ := by
  intro s t a _ hrun
  rw [Evaluation.runAt_lift] at hrun
  obtain ⟨-, rfl⟩ := Prod.mk.inj hrun
  exact .refl s

theorem brings_pure (x : α) : Brings (pure x : Evaluation K α) ∅ := brings_lift (.ok x)

/-- The second step starts at a state in order, since what the first one records is closed. -/
theorem Brings.bind {e : Evaluation K α} {f : α → Evaluation K β} {D E : Set Quantity}
    (he : Brings e D) (hD : Closed D) (hf : ∀ a, Brings (f a) E) : Brings (e >>= f) (D ∪ E) := by
  intro s t b hs hrun
  obtain ⟨a, u, hfirst, hsecond⟩ := Evaluation.runAt_bind_eq_ok hrun
  have hrecords := he s u a hs hfirst
  exact hrecords.trans (hf a u t b (hs.records hrecords hD) hsecond)

variable {m : Model K}

/-- A memorized quantity is read, or else computed and stored. -/
theorem memoized_eq_ok {q : Quantity} {compute : Vec K → Evaluation K (Quantity.Value K q)}
    {s t : ModelState K (Quantity.Value K)} {x : Quantity.Value K q}
    (h : (m.memoized q compute).runAt s = (.ok x, t)) :
    ((s.memo.get q).current? = some x ∧ t = s) ∨
      (s.memo.get q).current? = none ∧
        ∃ v u, (compute v).runAt s = (.ok x, u) ∧ t = u.store q x := by
  obtain ⟨v, s', hv, h⟩ := Evaluation.runAt_bind_eq_ok h
  obtain ⟨-, rfl⟩ : _ ∧ s = s' := Prod.mk.inj hv
  rw [Evaluation.runAt_bind_of_ok _ (Evaluation.runAt_get s)] at h
  cases hcell : (s.memo.get q).current? with
  | some y =>
    rw [hcell] at h
    obtain ⟨hy, rfl⟩ := Prod.mk.inj h
    exact Or.inl ⟨congrArg some (Except.ok.inj hy), rfl⟩
  | none =>
    rw [hcell] at h
    obtain ⟨y, u, hy, h⟩ := Evaluation.runAt_bind_eq_ok h
    obtain ⟨hx, rfl⟩ := Prod.mk.inj h
    obtain rfl := Except.ok.inj hx
    exact Or.inr ⟨rfl, v, u, hy, rfl⟩

/-- A memorized quantity brings what it needs, and itself. -/
theorem Brings.memoized {q : Quantity} {compute : Vec K → Evaluation K (Quantity.Value K q)}
    {D : Set Quantity} (h : ∀ v, Brings (compute v) D) (hD : D = ⋃ d ∈ q.needs, d.closure) :
    Brings (m.memoized q compute) q.closure := by
  intro s t x hs hrun
  rcases memoized_eq_ok hrun with ⟨hcell, rfl⟩ | ⟨hcell, v, u, hcompute, rfl⟩
  · -- a hit: in a state in order all that the quantity needs is up to date already
    have hvalid : (t.memo.get q).valid = true := by
      by_contra hinvalid
      simp [MemoCell.current?, hinvalid] at hcell
    exact .of_valid fun r hr => hs.closed q hvalid hr
  · have hinvalid : (s.memo.get q).valid = false := by
      by_contra hvalid
      obtain ⟨y, hy⟩ := hs.filled q (by simpa using hvalid)
      simp [MemoCell.current?, hy, hvalid] at hcell
    have hrecords := h v s u x hs hcompute
    -- nothing that the quantity needs has stored the quantity itself
    have hsame : u.memo.get q = s.memo.get q := by
      refine hrecords.kept q (Or.inl ?_)
      rw [hD]
      exact notMem_needed q
    rw [closure_eq, ← hD, Set.insert_eq, Set.union_comm]
    exact hrecords.trans (.store (by rw [hsame, hinvalid]) x)

end Model

end ConvexContact
