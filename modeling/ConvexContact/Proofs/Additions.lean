import Mathlib.Algebra.Order.Field.Basic
import ConvexContact.Proofs.Coupling.Arrangement
import ConvexContact.Proofs.Coupling.History

/-!
# Additions in place

A problem takes over the constraint that it is handed. Once every clique has passed its checks, the
constraint is converted where it is, and from then on the problem refers to it: `Handover.take` is
this, step by step, on a problem and a constraint that can both change. On values it is
`ContactProblem.add` (`Handover.run_take`); a conversion that began before all checks have passed
would show there.

What callers ask of a problem is a list of `Request`s, some of which name constraints that the
problem holds already. Every call is recorded with what it found and what it left (`Exchange`). One
call does what it has to (`Exchange.Proper`), and any number of them keep what a problem promises
about its constraints (`ContactProblem.Promises`). Main statement:
`ContactProblem.settled_of_exchanges`.

Proof shape: whether a call is rejected depends on one predicate, `ContactProblem.Misfits`, so a
call has two equations, `exchange_of_fits` and `exchange_of_misfits`. Every fact about a run is an
induction over the requests that splits into the same three cases: no constraint is found, it
misfits, or it is stored. What the stored constraints satisfy is not proved call by call. It follows
at the end from the well-formedness of the problem that is left, and the graph from adding its
constraints once more.
-/

namespace ConvexContact

variable {K : Type}

/-! ## Calls in place

In place a constraint is converted first and then referred to, and the caller who handed it over
sees the conversion. Both come behind all checks. -/

/-- A constraint that is handed to a problem. -/
structure Handover (K : Type) where
  problem : ContactProblem K
  constraint : Constraint K

/-- A call with what it found and what it left. -/
structure Exchange (K : Type) where
  before : Handover K
  answer : Except (Error K) Nat
  after : Handover K

/-- What a caller asks a problem to add: a constraint of the caller's own, or once more the one at a
position of the problem. -/
inductive Request (K : Type) where
  | new (c : Constraint K)
  | again (position : Int)

/-- The constraint that is asked for. There may be none at the position that is named, and then
there is nothing to hand over. -/
def ContactProblem.requested? (p : ContactProblem K) : Request K → Option (Constraint K)
  | .new c => some c
  | .again position => (p.constraintAt position).toOption

namespace Handover

section Take

variable [Arith K]

/-- Converts the constraint to the format of the problem. -/
def convert (s : Handover K) : Handover K :=
  { s with constraint := s.constraint.cast s.problem.format }

/-- Makes the problem refer to the constraint as it is. -/
def refer (s : Handover K) : Handover K :=
  { s with problem :=
      { s.problem with
        constraints := s.problem.constraints ++ [s.constraint]
        equationCount := s.problem.equationCount + s.constraint.equations } }

/-- Adds the constraint in place, and answers with its index. -/
def take : ExceptT (Error K) (StateM (Handover K)) Nat := do
  let s ← get
  s.constraint.blocks.forM fun b => ExceptT.mk (pure (s.problem.checkBlock b))
  modify convert
  modify refer
  return (← get).problem.constraints.length - 1

/-- The call that hands the constraint over. -/
def exchange (s : Handover K) : Exchange K :=
  ⟨s, (take.run.run s).1, (take.run.run s).2⟩

end Take

/-- **Refinement.** An addition in place is the addition on values: when it is accepted, the problem
has the constraint as it has become; otherwise everything is as it was. -/
theorem run_take [Arith K] (p : ContactProblem K) (c : Constraint K) :
    take.run.run ⟨p, c⟩ =
      match p.add c with
      | .ok (q, i) => (.ok i, ⟨q, c.cast p.format⟩)
      | .error e => (.error e, ⟨p, c⟩) := by
  have hrefer : (convert ⟨p, c⟩).refer = ⟨p.store c, c.cast p.format⟩ := by
    simp [convert, refer, ContactProblem.store]
  have hlast : (p.store c).constraints.length - 1 = p.constraints.length := by
    simp [ContactProblem.store]
  rw [take, ContactProblem.add]
  simp only [Outcome.run_bind, Outcome.run_get, Outcome.run_checks, Outcome.run_modify]
  -- the conversion comes behind all of the checks, so a failed check leaves both as they are
  cases c.blocks.forM p.checkBlock with
  | error e => rfl
  | ok u =>
    simp only [hrefer]
    rw [hlast]
    rfl

end Handover

/-! ## What a problem promises

`Misfits` is the negation of all checks, said of the constraint and the sizes of the problem only.
So whether a call is rejected does not depend on what else the problem holds. -/

/-- A constraint as the graph of its problem files it. -/
def Constraint.filing (c : Constraint K) : Filing where
  pair := .normalized c.first.clique (c.second.map fun b => (b.clique : Int))
  equations := c.equations

namespace ContactProblem

/-- One of the cliques of the constraint is out of range, or its block has not as many columns as
the clique has velocities. -/
def Misfits (p : ContactProblem K) (c : Constraint K) : Prop :=
  ∃ b ∈ c.blocks, p.cliqueCount ≤ b.clique ∨ b.jacobian.cols ≠ p.sizes.getD b.clique 0

instance (p : ContactProblem K) (c : Constraint K) : Decidable (p.Misfits c) :=
  inferInstanceAs (Decidable (∃ b ∈ c.blocks, _))

/-- What a problem promises about a constraint that it holds. -/
structure Promises (p : ContactProblem K) (c : Constraint K) : Prop where
  equations_pos : 1 ≤ c.equations
  arity : c.cliques.length = 1 ∨ c.cliques.length = 2
  nodup : c.cliques.Nodup
  range : ∀ k ∈ c.cliques, k < p.cliqueCount
  /-- one Jacobian for each clique, of the height of the constraint and the width of the clique -/
  jacobians : List.Forall₂
    (fun k J => J.rows = c.equations ∧ p.sizes[k]? = some J.cols ∧ J.format = p.format)
    c.cliques c.jacobians
  format : c.g.format = p.format

variable {p : ContactProblem K} {c : Constraint K}

/-- The blocks of a constraint pass their checks unless it misfits. -/
theorem not_misfits_iff : ¬ p.Misfits c ↔ ∀ b ∈ c.blocks, p.checkBlock b = .ok () := by
  have hblock : ∀ b : CliqueBlock K, p.checkBlock b = .ok () ↔
      ¬ (p.cliqueCount ≤ b.clique ∨ b.jacobian.cols ≠ p.sizes.getD b.clique 0) := by
    intro b
    have hlength : p.sizes.length = p.cliqueCount := List.length_map _
    rw [checkBlock_eq_ok_iff, List.getD_eq_getElem?_getD]
    cases hsize : p.sizes[b.clique]? with
    | none =>
      have hle : p.cliqueCount ≤ b.clique := hlength ▸ List.getElem?_eq_none_iff.mp hsize
      simp [hle]
    | some n =>
      have hlt : b.clique < p.cliqueCount := hlength ▸ (List.getElem?_eq_some_iff.mp hsize).1
      simp [hlt, eq_comm]
  simp only [Misfits, hblock, not_exists, not_and]

/-- Both checks of a block fail with an unusable value, never with another kind of error. -/
theorem kind_of_checkBlock {b : CliqueBlock K} {e : Error K} (h : p.checkBlock b = .error e) :
    e.kind = .value := by
  unfold checkBlock at h
  split at h
  · cases h
    rfl
  · split at h <;> cases h
    rfl

/-- What well-formedness says about one constraint. -/
theorem WellFormed.promises (hp : p.WellFormed) (hc : c ∈ p.constraints) : p.Promises c where
  equations_pos := (hp.constraint c hc).equations_pos
  arity := by cases h : c.second <;> simp [Constraint.cliques, Constraint.blocks, h]
  nodup := (hp.constraint c hc).nodup
  range _ hk := hp.lt_of_mem_cliques hc hk
  jacobians := by
    rw [Constraint.cliques, Constraint.jacobians, List.forall₂_map_left_iff,
      List.forall₂_map_right_iff, List.forall₂_same]
    intro b hb
    exact ⟨(hp.constraint c hc).rows b hb, hp.width c hc b hb,
      ((hp.constraint c hc).format b hb).trans (hp.constraint_format c hc)⟩
  format := hp.constraint_format c hc

/-- A constraint that the problem holds can be added once more. Its checks have passed before, and
nothing that they look at has changed since. -/
theorem WellFormed.not_misfits (hp : p.WellFormed) (hc : c ∈ p.constraints) : ¬ p.Misfits c :=
  not_misfits_iff.mpr fun b hb => checkBlock_eq_ok_iff.mpr (hp.width c hc b hb)

/-- The graph files a constraint of the problem as it is. -/
theorem WellFormed.filing? (hp : p.WellFormed) (hc : c ∈ p.constraints) :
    (Call.mk (.list (c.cliques.map Int.ofNat)) c.equations).filing? p.cliqueCount =
      some c.filing := by
  have hpos : (0 : Int) < c.equations := Int.ofNat_lt.mpr (hp.constraint c hc).equations_pos
  have hrange : ∀ b ∈ c.blocks, (b.clique : Int) < p.cliqueCount := fun b hb =>
    Int.ofNat_lt.mpr (hp.lt_of_mem_cliques hc (List.mem_map_of_mem hb))
  have hfirst := hrange c.first List.mem_cons_self
  have hpair : (CliqueArgument.list (c.cliques.map Int.ofNat)).pair? = some c.filing.pair := by
    cases hsecond : c.second <;>
      simp [Constraint.cliques, Constraint.blocks, Constraint.filing, CliqueArgument.pair?, hsecond]
  -- both entries of the pair are cliques of the constraint
  have hin : (0 ≤ c.filing.pair.first ∧ c.filing.pair.first < p.cliqueCount) ∧
      0 ≤ c.filing.pair.second ∧ c.filing.pair.second < p.cliqueCount := by
    cases hsecond : c.second with
    | none =>
      simp only [Constraint.filing, hsecond, Option.map_none, CliquePair.normalized_self]
      omega
    | some b =>
      have hother := hrange b (by simp [Constraint.blocks, hsecond])
      simp only [Constraint.filing, hsecond, Option.map_some, CliquePair.normalized,
        Option.getD_some]
      omega
  rw [Call.filing?, hpair, Option.bind_some, if_pos ⟨hin, hpos⟩]
  rfl

/-- **Run.** The graph of a problem is there, and groups the constraints as they are filed. -/
theorem WellFormed.exists_groups (hp : p.WellFormed) : ∃ g, p.graph = .ok g ∧
    g.cliqueCount = p.cliqueCount ∧
    g.equationCount = total (p.constraints.map (·.equations)) ∧
    g.Groups (p.constraints.map Constraint.filing) := by
  refine Outcome.exists_foldlM (b := ClusterGraph.blank p.cliqueCount)
    (fun done g => g.cliqueCount = p.cliqueCount ∧
      g.equationCount = total (done.map (·.equations)) ∧ g.Groups (done.map Constraint.filing))
    ⟨rfl, rfl, ClusterGraph.groups_blank _⟩ ?_
  rintro done c g ⟨rest, hsplit⟩ ⟨hcount, hequations, hgroups⟩
  have hfiling := hp.filing? (c := c) (by simp [← hsplit])
  rw [← hcount] at hfiling
  refine ⟨g.join c.filing.pair c.equations, ?_, hcount, ?_, ?_⟩
  · rw [ClusterGraph.add_of_filing hfiling]
    rfl
  · rw [List.map_append, total_append, Nat.cast_add, ← hequations]
    simp [ClusterGraph.join]
  · rw [List.map_append]
    exact hgroups.join c.filing

end ContactProblem

/-! ## One call -/

variable [Arith K]

/-- What is promised about a call: it is rejected just when the constraint misfits, and then nothing
has changed; otherwise the constraint is converted, and stored behind the others as it has
become. -/
structure Exchange.Proper (x : Exchange K) : Prop where
  rejected_iff : (∃ e, x.answer = .error e) ↔ x.before.problem.Misfits x.before.constraint
  rejected : ∀ e, x.answer = .error e → e.kind = .value ∧ x.after = x.before
  accepted : ∀ i, x.answer = .ok i →
    i = x.before.problem.constraints.length ∧
      x.after.constraint = x.before.constraint.cast x.before.problem.format ∧
      x.after.problem = { x.before.problem with
        constraints := x.before.problem.constraints ++ [x.after.constraint]
        equationCount := x.before.problem.equationCount + x.before.constraint.equations }

variable {p : ContactProblem K} {c : Constraint K}

namespace ContactProblem

/-- What fits is stored behind the others. -/
theorem add_of_fits (h : ¬ p.Misfits c) : p.add c = .ok (p.store c, p.constraints.length) := by
  rw [add, Outcome.bind_of_ok _ (Outcome.forM_eq_ok.mpr (not_misfits_iff.mp h))]
  rfl

/-- What misfits is rejected, for the value that it has. -/
theorem exists_error_of_misfits (h : p.Misfits c) :
    ∃ e, p.add c = .error e ∧ e.kind = .value := by
  cases hchecks : c.blocks.forM p.checkBlock with
  | ok u => exact absurd h (not_misfits_iff.mpr (Outcome.forM_eq_ok.mp hchecks))
  | error e =>
    obtain ⟨b, -, hb⟩ := Outcome.exists_of_forM_error hchecks
    exact ⟨e, by rw [add, hchecks]; rfl, kind_of_checkBlock hb⟩

end ContactProblem

namespace Handover

/-- A call with a constraint that fits, in full. -/
theorem exchange_of_fits (h : ¬ p.Misfits c) : (Handover.mk p c).exchange =
    ⟨⟨p, c⟩, .ok p.constraints.length, ⟨p.store c, c.cast p.format⟩⟩ := by
  rw [exchange, run_take, ContactProblem.add_of_fits h]

/-- A call with a constraint that misfits, in full: what it found is what it left. -/
theorem exchange_of_misfits (h : p.Misfits c) :
    ∃ e, e.kind = .value ∧ (Handover.mk p c).exchange = ⟨⟨p, c⟩, .error e, ⟨p, c⟩⟩ := by
  obtain ⟨e, he, hkind⟩ := ContactProblem.exists_error_of_misfits h
  exact ⟨e, hkind, by rw [exchange, run_take, he]⟩

/-- **Step.** Every call is proper. -/
theorem proper_exchange (s : Handover K) : s.exchange.Proper := by
  obtain ⟨p, c⟩ := s
  by_cases hc : p.Misfits c
  -- rejected: an unusable value, and nothing has moved
  · obtain ⟨e, hkind, hx⟩ := exchange_of_misfits hc
    rw [hx]
    refine ⟨iff_of_true ⟨e, rfl⟩ hc, ?_, nofun⟩
    rintro _ ⟨⟩
    exact ⟨hkind, rfl⟩
  -- accepted: the index and what is stored are read off the equation
  · rw [exchange_of_fits hc]
    refine ⟨iff_of_false nofun hc, nofun, ?_⟩
    rintro _ ⟨⟩
    exact ⟨rfl, rfl, rfl⟩

end Handover

/-! ## Any number of calls

By induction on the requests, each of which finds no constraint, one that misfits, or one that is
stored. Only in the last case does the next request meet another problem. -/

/-- What was accepted, as it has become. -/
def Exchange.accepted (xs : List (Exchange K)) : List (Constraint K) :=
  (xs.filter (·.answer.isOk)).map (·.after.constraint)

namespace ContactProblem

/-- The calls that are made for requests, and the problem they leave. Where no constraint is found,
there is no call. -/
def exchanges (p : ContactProblem K) : List (Request K) → List (Exchange K) × ContactProblem K
  | [] => ([], p)
  | r :: rs =>
    match p.requested? r with
    | none => p.exchanges rs
    | some c =>
      let x := (Handover.mk p c).exchange
      (x :: (x.after.problem.exchanges rs).1, (x.after.problem.exchanges rs).2)

/-- Every constraint of a constructed problem has been constructed itself, and converted at most. -/
theorem Constructed.constraint (hp : p.Constructed) : ∀ c ∈ p.constraints, c.Constructed := by
  induction hp with
  | build h =>
    rw [(builtFrom h).constraints]
    exact fun c hc => absurd hc List.not_mem_nil
  | @add p q d i _ hd h ih =>
    obtain ⟨⟨⟩, -, h⟩ := Outcome.bind_eq_ok.mp h
    obtain ⟨rfl, -⟩ := Prod.mk.inj (Outcome.pure_eq_ok.mp h)
    intro c hc
    rcases List.mem_append.mp hc with hc | hc
    · exact ih c hc
    · rw [List.mem_singleton.mp hc]
      exact hd.cast p.format

/-- What is asked for can be met, when all that is new can. -/
theorem Constructed.requested (hp : p.Constructed) {r : Request K}
    (hr : ∀ c, r = .new c → c.Constructed) (h : p.requested? r = some c) : c.Constructed := by
  cases r with
  | new d =>
    obtain rfl := Option.some.inj h
    exact hr d rfl
  | again position =>
    have hat : p.constraintAt position = .ok c := by
      cases hat : p.constraintAt position with
      | error e => simp [requested?, hat, Except.toOption] at h
      | ok d => simpa [requested?, hat, Except.toOption] using h
    unfold constraintAt at hat
    split at hat
    · rename_i d hd
      obtain rfl := Except.ok.inj hat
      obtain ⟨k, -, hk⟩ := Option.bind_eq_some_iff.mp hd
      exact hp.constraint d (List.mem_of_getElem? hk)
    · cases hat

/-- The first of several calls, when its constraint fits: the others meet the problem that stores
it. -/
theorem exchanges_of_fits {r : Request K} (hr : p.requested? r = some c) (h : ¬ p.Misfits c)
    (rs : List (Request K)) : p.exchanges (r :: rs) =
      (⟨⟨p, c⟩, .ok p.constraints.length, ⟨p.store c, c.cast p.format⟩⟩ ::
        ((p.store c).exchanges rs).1, ((p.store c).exchanges rs).2) := by
  rw [exchanges, hr]
  simp only [Handover.exchange_of_fits h]

/-- The first of several calls, when its constraint misfits: the others meet the same problem. -/
theorem exchanges_of_misfits {r : Request K} (hr : p.requested? r = some c) (h : p.Misfits c)
    (rs : List (Request K)) : ∃ e, p.exchanges (r :: rs) =
      (⟨⟨p, c⟩, .error e, ⟨p, c⟩⟩ :: (p.exchanges rs).1, (p.exchanges rs).2) := by
  obtain ⟨e, -, hx⟩ := Handover.exchange_of_misfits h
  refine ⟨e, ?_⟩
  rw [exchanges, hr]
  simp only [hx]

/-- **Run.** What was accepted stands behind what was there, and calls that are accepted answer with
consecutive indices. -/
theorem constraints_exchanges (p : ContactProblem K) (rs : List (Request K)) :
    (p.exchanges rs).2.constraints = p.constraints ++ Exchange.accepted (p.exchanges rs).1 ∧
      (p.exchanges rs).1.filterMap (·.answer.toOption) =
        List.range' p.constraints.length (Exchange.accepted (p.exchanges rs).1).length := by
  induction rs generalizing p with
  | nil => exact ⟨(List.append_nil _).symm, rfl⟩
  | cons r rs ih =>
    cases hr : p.requested? r with
    | none =>
      rw [exchanges, hr]
      exact ih p
    | some c =>
      by_cases hc : p.Misfits c
      · obtain ⟨e, he⟩ := exchanges_of_misfits hr hc rs
        rw [he]
        exact ih p
      -- the others count on from the constraint that has been stored
      · obtain ⟨hconstraints, hanswers⟩ := ih (p.store c)
        have hstored : (p.store c).constraints = p.constraints ++ [c.cast p.format] := rfl
        rw [hstored, List.append_assoc] at hconstraints
        rw [hstored, List.length_append] at hanswers
        rw [exchanges_of_fits hr hc]
        refine ⟨hconstraints, ?_⟩
        exact (congrArg (p.constraints.length :: ·) hanswers).trans List.range'_succ.symm

/-- **Run.** Every index that was answered is that of the constraint, as it has become. -/
theorem getElem?_of_exchanges {p : ContactProblem K} {rs : List (Request K)} {x : Exchange K}
    (hx : x ∈ (p.exchanges rs).1) {i : Nat} (hi : x.answer = .ok i) :
    (p.exchanges rs).2.constraints[i]? = some x.after.constraint := by
  induction rs generalizing p with
  | nil => cases hx
  | cons r rs ih =>
    cases hr : p.requested? r with
    | none =>
      rw [exchanges, hr] at hx ⊢
      exact ih hx
    | some c =>
      by_cases hc : p.Misfits c
      · obtain ⟨e, he⟩ := exchanges_of_misfits hr hc rs
        rw [he] at hx ⊢
        rcases List.mem_cons.mp hx with rfl | hx
        · cases hi
        · exact ih hx
      · rw [exchanges_of_fits hr hc] at hx ⊢
        rcases List.mem_cons.mp hx with rfl | hx
        -- the index was the length then, and the later calls only append
        · obtain rfl := Except.ok.inj hi
          have hstored : (p.store c).constraints = p.constraints ++ [c.cast p.format] := rfl
          rw [(constraints_exchanges _ rs).1, hstored, List.append_assoc]
          simp
        · exact ih hx

/-- **Run.** Calls leave a problem that can be met, and find ones that can. -/
theorem Constructed.exchanges (hp : p.Constructed) {rs : List (Request K)}
    (hrs : ∀ c, .new c ∈ rs → c.Constructed) :
    (p.exchanges rs).2.Constructed ∧
      ∀ x ∈ (p.exchanges rs).1, x.before.problem.Constructed ∧ x.Proper := by
  induction rs generalizing p with
  | nil => exact ⟨hp, by simp [ContactProblem.exchanges]⟩
  | cons r rs ih =>
    have hrest : ∀ c, .new c ∈ rs → c.Constructed := fun c hc => hrs c (List.mem_cons_of_mem _ hc)
    rw [ContactProblem.exchanges]
    cases hr : p.requested? r with
    | none => exact ih hp hrest
    | some c =>
      have hc := hp.requested (fun d hd => hrs d (by simp [hd])) hr
      have hafter : (Handover.mk p c).exchange.after.problem.Constructed := by
        by_cases hfits : p.Misfits c
        · obtain ⟨e, -, hx⟩ := Handover.exchange_of_misfits hfits
          rw [hx]
          exact hp
        · rw [Handover.exchange_of_fits hfits]
          exact hp.add hc (add_of_fits hfits)
      obtain ⟨hq, hproper⟩ := ih hafter hrest
      exact ⟨hq, List.forall_mem_cons.mpr ⟨⟨hp, Handover.proper_exchange _⟩, hproper⟩⟩

/-- What calls `xs`, made one after the other on a problem `p`, leave of it. -/
structure Settled (p : ContactProblem K) (xs : List (Exchange K)) (q : ContactProblem K) :
    Prop where
  proper : ∀ x ∈ xs, x.Proper
  /-- a constraint that is stored already is accepted once more -/
  again : ∀ x ∈ xs, x.before.constraint ∈ x.before.problem.constraints → x.answer.isOk = true
  /-- accepted calls answer with consecutive indices -/
  indices : xs.filterMap (·.answer.toOption) =
    List.range' p.constraints.length (Exchange.accepted xs).length
  constraints : q.constraints = p.constraints ++ Exchange.accepted xs
  /-- what is found at an index is what was added -/
  found : ∀ x ∈ xs, ∀ i, x.answer = .ok i → q.constraintAt i = .ok x.after.constraint
  promises : ∀ c ∈ q.constraints, q.Promises c
  equationCount : q.equationCount = total (q.constraints.map (·.equations))
  graph : ∃ g, q.graph = .ok g ∧ g.cliqueCount = q.cliqueCount ∧
    g.equationCount = q.equationCount ∧ g.Groups (q.constraints.map Constraint.filing)

/-- **A problem keeps its promises.** Of any calls that are made one after the other, each is
rejected just when a clique of its constraint is out of range or a Jacobian has not the width of its
clique. A rejected call reports an unusable value, and leaves the problem and the constraint as they
were; an accepted one converts the constraint and stores it behind the others, and a constraint that
is stored already is always accepted. When all calls have been made,

* every stored constraint couples one or two different cliques of the problem, with a Jacobian of
  the right height and width for each, at least one equation, and everything in the format of the
  problem;
* what was accepted stands behind what was there, at the indices that were answered, which are
  consecutive, and these constraints account for all equations;
* there is a graph, which groups exactly these constraints at their indices. -/
theorem settled_of_exchanges (hp : p.Constructed) {rs : List (Request K)}
    (hrs : ∀ c, .new c ∈ rs → c.Constructed) :
    p.Settled (p.exchanges rs).1 (p.exchanges rs).2 := by
  obtain ⟨hq, hcalls⟩ := hp.exchanges hrs
  obtain ⟨hconstraints, hanswers⟩ := p.constraints_exchanges rs
  obtain ⟨g, hg, hcliques, hequations, hgroups⟩ := hq.wellFormed.exists_groups
  exact {
    proper := fun x hx => (hcalls x hx).2
    again := by
      intro x hx hmem
      obtain ⟨hbefore, hproper⟩ := hcalls x hx
      cases hanswer : x.answer with
      | ok i => rfl
      | error e =>
        exact absurd (hproper.rejected_iff.mp ⟨e, hanswer⟩) (hbefore.wellFormed.not_misfits hmem)
    indices := hanswers
    constraints := hconstraints
    found := fun x hx i hi => constraintAt_of_getElem? (getElem?_of_exchanges hx hi)
    promises := fun c hc => hq.wellFormed.promises hc
    equationCount := hq.equationCount_eq
    graph := ⟨g, hg, hcliques, by rw [hequations, hq.equationCount_eq], hgroups⟩ }

/-- A problem with three cliques that holds a constraint already, and three constraints to add: one
with a Jacobian that is too wide, one of two equations in another format, and one of a clique that
is not there. -/
def requestsSample? :
    Except (Error ℚ) (ContactProblem ℚ × Constraint ℚ × Constraint ℚ × Constraint ℚ) := do
  let p ← sample?
  let law : Law ℚ :=
    { bias := (Term.fixed (.tensor (Vec.mk .double [1]).toTensor)).side
      regularization := (Term.fixed (.tensor (Vec.mk .double [2]).toTensor)).side }
  let g (n : Nat) : Given ℚ := .tensor (Vec.mk .single (List.replicate n 0)).toTensor
  let wide ← Constraint.build? law .nonneg (g 1) 0 (.tensor (.ofSlabs .double [1] [[1]])) (some 1)
    (some (.tensor (.ofSlabs .double [2] [[1, 2]])))
  let pair ← Constraint.build? law .zero (g 2) 1 (.tensor (.ofSlabs .double [1] [[3], [4]]))
    (some 0) (some (.tensor (.ofSlabs .double [1] [[5], [6]])))
  let stranger ← Constraint.build? law .nonneg (g 1) 2 (.tensor (.ofSlabs .double [2] [[1, 2]]))
    (some 3) (some (.tensor (.ofSlabs .double [1] [[1]])))
  return (p, wide, pair, stranger)

/-- Six requests, of which the first and the fourth misfit and the last names no constraint. Both
ways of naming the first constraint again are accepted, from the front and from the end. -/
theorem settled_of_exchanges_sample :
    ∃ p wide pair stranger, requestsSample? = .ok (p, wide, pair, stranger) ∧
      let rs := [.new wide, .new pair, .again 0, .new stranger, .again (-1), .again 9]
      (p.exchanges rs).1.map (·.answer.toOption) = [none, some 1, some 2, none, some 3] ∧
        p.Settled (p.exchanges rs).1 (p.exchanges rs).2 := by
  obtain ⟨⟨p, wide, pair, stranger⟩, h, hanswers⟩ := Outcome.exists_of_check
    (x := requestsSample?)
    (P := fun (p, wide, pair, stranger) =>
      (p.exchanges [.new wide, .new pair, .again 0, .new stranger, .again (-1), .again 9]).1.map
        (·.answer.toOption) == [none, some 1, some 2, none, some 3]) (by decide +kernel)
  refine ⟨p, wide, pair, stranger, h, by simpa using hanswers, settled_of_exchanges ?_ ?_⟩
  all_goals
    obtain ⟨p', hp, h⟩ := Outcome.bind_eq_ok.mp h
    obtain ⟨wide', hwide, h⟩ := Outcome.bind_eq_ok.mp h
    obtain ⟨pair', hpair, h⟩ := Outcome.bind_eq_ok.mp h
    obtain ⟨stranger', hstranger, h⟩ := Outcome.bind_eq_ok.mp h
    cases Outcome.pure_eq_ok.mp h
  · exact constructed_sample hp
  · simp only [List.mem_cons, List.not_mem_nil, Request.new.injEq, reduceCtorEq, or_false, false_or]
    rintro c (rfl | rfl | rfl)
    · exact .build hwide
    · exact .build hpair
    · exact .build hstranger

end ContactProblem

end ConvexContact
