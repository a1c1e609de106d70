import ConvexContact.Proofs.Evaluation.Transcript
import ConvexContact.Proofs.Linear.GridOrder
import ConvexContact.Proofs.Model.Construction

/-!
# The order in which cliques are named

A constraint on two cliques names one of them first. `Constraint.exchange` names the other one
first, each with its own Jacobian, and `ContactProblem.exchange` does so for the constraints at
chosen places. More generally, `ContactProblem.Renames` relates problems whose constraints have the
same blocks in another order.

The order does survive in what a model stores: in the names that its stack keeps, and in the order
of the blocks within the rows of the Jacobian. In exact arithmetic nothing that is asked of a model
depends on it. The graph only reads unordered pairs, the Delassus estimates and the rows of a
product are sums, and every block still stands at its place.

Proof shape: `Renames` is stated for constraints, problems and stacks, and carried from each to the
next. `Renames.exists_build` is the only place where a construction is followed; `eval_with_stack`
and `perform_with_stack` compare models that differ in their stacks alone.

Main statement: `Model.naming_order_is_irrelevant`.
-/

namespace ConvexContact

variable {K : Type}

/-! ## Constraints -/

namespace Constraint

/-- The same constraint with its cliques named the other way round, if there are two. -/
def exchange (c : Constraint K) : Constraint K :=
  match c.second with
  | none => c
  | some b => { c with first := b, second := some c.first }

/-- A constraint that names its cliques, with their blocks, in another order. -/
structure Renames (c c' : Constraint K) : Prop where
  g : c'.g = c.g
  law : c'.law = c.law
  projection : c'.projection = c.projection
  blocks : c'.blocks.Perm c.blocks

/-- Blocks may stay in their order. -/
theorem Renames.refl (c : Constraint K) : c.Renames c := ⟨rfl, rfl, rfl, List.Perm.refl _⟩

/-- Exchanging two cliques exchanges two blocks. -/
theorem renames_exchange (c : Constraint K) : c.Renames c.exchange := by
  -- a constraint on one clique has nothing to exchange
  cases hsecond : c.second with
  | none =>
    have hself : c.exchange = c := by simp only [exchange, hsecond]
    rw [hself]
    exact Renames.refl c
  | some b =>
    have hswap : c.exchange = { c with first := b, second := some c.first } := by
      simp only [exchange, hsecond]
    rw [hswap]
    refine ⟨rfl, rfl, rfl, ?_⟩
    simp only [blocks, hsecond, Option.toList_some]
    exact List.Perm.swap _ _ _

/-- Whether a constraint is chosen or not, its blocks are the same. -/
theorem renames_exchange_if (c : Constraint K) (b : Bool) :
    c.Renames (if b then c.exchange else c) := by
  split
  · exact c.renames_exchange
  · exact Renames.refl c

namespace Renames

variable {c c' : Constraint K}

/-- The equations are counted by the constraint function, which stays. -/
theorem equations (h : c.Renames c') : c'.equations = c.equations := by
  rw [Constraint.equations, Constraint.equations, h.g]

/-- Cliques are reordered with their blocks. -/
theorem cliques (h : c.Renames c') : c'.cliques.Perm c.cliques := h.blocks.map _

/-- The checks look at each block by itself, so they are passed in any order. -/
theorem wellFormed (h : c.Renames c') (hc : c.WellFormed) : c'.WellFormed where
  equations_pos := by
    rw [h.equations]
    exact hc.equations_pos
  rows b hb := by
    rw [h.equations]
    exact hc.rows b (h.blocks.mem_iff.mp hb)
  format b hb := by
    rw [h.g]
    exact hc.format b (h.blocks.mem_iff.mp hb)
  nodup := h.cliques.nodup_iff.mpr hc.nodup

variable [Arith K]

/-- The law is asked for the same. -/
theorem lawOf_eq (h : c.Renames c') (step : K) (w : Tensor K) (i : Nat) :
    Stack.lawOf step w i c' = Stack.lawOf step w i c := by
  have hside : ∀ (role : VectorRole) (answer : Given K),
      c'.checkSide role answer = c.checkSide role answer := by
    intro role answer
    rw [checkSide, checkSide, h.g, h.equations]
  have hbias : ∀ wi, c'.bias step wi = c.bias step wi := by
    intro wi
    simp only [bias, h.law, h.g, hside]
  have hregularization : ∀ wi, c'.regularization step wi = c.regularization step wi := by
    intro wi
    simp only [regularization, h.law, h.g, hside]
  simp only [Stack.lawOf, hbias, hregularization]

end Renames

end Constraint

/-! ## Problems -/

/-- The pair of two cliques does not depend on which is named first. -/
theorem ClusterGraph.pairOf_perm {l l' : List Int} (h : l'.Perm l) :
    pairOf (K := K) (.list l') = pairOf (.list l) := by
  have hlength := h.length_eq
  match l, l' with
  | [], [] => rfl
  | [a], [b] =>
    obtain rfl : b = a := by simpa using h
    rfl
  | [a, b], [c, d] =>
    have hc : c = a ∨ c = b := by simpa using h.mem_iff.mp (List.mem_cons_self (a := c))
    have hd : d = a ∨ d = b := by simpa using h.mem_iff.mp (show d ∈ [c, d] by simp)
    have ha : a = c ∨ a = d := by simpa using h.mem_iff.mpr (List.mem_cons_self (a := a))
    have hb : b = c ∨ b = d := by simpa using h.mem_iff.mpr (show b ∈ [a, b] by simp)
    simp only [pairOf, CliquePair.normalized, Option.getD_some, Except.ok.injEq,
      CliquePair.mk.injEq]
    omega
  | _ :: _ :: _ :: _, _ :: _ :: _ :: _ =>
    simp only [pairOf, hlength]

namespace ContactProblem

/-- The same problem, with the cliques of the constraints at the places in `S` named the other way
round. -/
def exchange (p : ContactProblem K) (S : Nat → Bool) : ContactProblem K :=
  { p with constraints := p.constraints.zipIdx.map fun (c, i) => if S i then c.exchange else c }

/-- A problem whose constraints name their cliques in another order. -/
structure Renames (p p' : ContactProblem K) : Prop where
  timeStep : p'.timeStep = p.timeStep
  vStar : p'.vStar = p.vStar
  dynamics : p'.dynamics = p.dynamics
  constraints : List.Forall₂ Constraint.Renames p.constraints p'.constraints
  equationCount : p'.equationCount = p.equationCount

/-- Choosing constraints whose cliques are exchanged renames the problem. -/
theorem renames_exchange (p : ContactProblem K) (S : Nat → Bool) : p.Renames (p.exchange S) := by
  refine ⟨rfl, rfl, rfl, ?_, rfl⟩
  change List.Forall₂ _ p.constraints (p.constraints.zipIdx.map _)
  rw [List.forall₂_map_right_iff]
  refine (forall₂_zipIdx rfl ?_).flip
  intro k c c' hc hc'
  obtain rfl := Option.some.inj (hc.symm.trans hc')
  exact c.renames_exchange_if (S k)

namespace Renames

variable {p p' : ContactProblem K} {g : ClusterGraph} {q : PartialPermutation}

/-- A problem takes its format from the velocities of free motion, -/
theorem format (h : p.Renames p') : p'.format = p.format := by
  rw [ContactProblem.format, ContactProblem.format, h.vStar]

/-- and its sizes from the dynamics. -/
theorem sizes (h : p.Renames p') : p'.sizes = p.sizes := by
  rw [ContactProblem.sizes, ContactProblem.sizes, h.dynamics]

/-- Constraints keep their equations and their places. -/
theorem map_equations (h : p.Renames p') :
    p'.constraints.map (·.equations) = p.constraints.map (·.equations) :=
  map_eq_of_forall₂ h.constraints fun _ _ hc => hc.equations

/-- Without constraints there is nothing to name. -/
theorem eq_of_no_constraints (h : p.Renames p') (hnone : p.constraints = []) : p' = p := by
  have hnone' : p'.constraints = [] := by
    have hall := h.constraints
    rw [hnone] at hall
    exact List.forall₂_nil_left_iff.mp hall
  obtain ⟨hstep, hvStar, hdynamics, -, hcount⟩ := h
  cases p
  cases p'
  simp_all

/-- What is checked of constraints is checked of each block. -/
theorem wellFormed (h : p.Renames p') (hp : p.WellFormed) : p'.WellFormed := by
  have hconstraint : ∀ c' ∈ p'.constraints, ∃ c ∈ p.constraints, c.Renames c' :=
    fun c' hc' => exists_of_forall₂ h.constraints.flip hc'
  refine ⟨?_, ?_, ?_, ?_, ?_, ?_⟩
  · rw [h.dynamics]
    exact hp.square
  · rw [h.dynamics, h.format]
    exact hp.dynamics_format
  · rw [h.vStar, velocityCount, h.sizes]
    exact hp.size_vStar
  · intro c' hc'
    obtain ⟨c, hc, hcc'⟩ := hconstraint c' hc'
    exact hcc'.wellFormed (hp.constraint c hc)
  · intro c' hc'
    obtain ⟨c, hc, hcc'⟩ := hconstraint c' hc'
    rw [hcc'.g, h.format]
    exact hp.constraint_format c hc
  · intro c' hc' b hb
    obtain ⟨c, hc, hcc'⟩ := hconstraint c' hc'
    rw [h.sizes]
    exact hp.width c hc b (hcc'.blocks.mem_iff.mp hb)

/-! ## Arrangements -/

/-- The graph is the same. -/
theorem graph_eq (h : p.Renames p') : p'.graph = p.graph := by
  rw [graph, graph, cliqueCount, cliqueCount, h.dynamics]
  refine (Outcome.foldlM_congr (h.constraints.imp fun c c' hcc' g => ?_) _).symm
  have hpair := ClusterGraph.pairOf_perm (K := K) (hcc'.cliques.map Int.ofNat)
  have hadd : ∀ l : List Int, g.add (K := K) (.list l) c.equations =
      (do
        let p ← ClusterGraph.pairOf (.list l)
        g.checkClique p.first
        g.checkClique p.second
        return p : Except (Error K) CliquePair) >>= fun p =>
          if (c.equations : Int) ≤ 0 then .error (.equationCount c.equations)
          else return (g.join p c.equations, g.constraintCount) := fun _ => rfl
  rw [hcc'.equations, hadd, hadd, hpair]

/-- So an arrangement of the one is an arrangement of the other. -/
theorem arranged (h : p.Renames p') (ha : p.Arranged g q) : p'.Arranged g q :=
  ⟨h.graph_eq.trans ha.graph, ha.cliques⟩

/-- The constraints in the order of the clusters. -/
theorem forall₂_pick (h : p.Renames p') (g : ClusterGraph) : List.Forall₂ Constraint.Renames
    (pick p.constraints g.places) (pick p'.constraints g.places) :=
  forall₂_pick_pick h.constraints g.places

end Renames

end ContactProblem

/-! ## Placed blocks

Naming its cliques in another order moves the blocks of a constraint within its row. Within a column
nothing moves, as a constraint has one block for each clique. -/

/-- Of a list whose entries have different keys, a rearrangement has the same entries for a key. -/
theorem filter_eq_of_perm {α : Type} {l l' : List α} {key : α → Nat} (h : l'.Perm l)
    (hnodup : (l.map key).Nodup) (k : Nat) :
    l'.filter (fun x => key x = k) = l.filter fun x => key x = k := by
  have hfilter := h.filter fun x => key x = k
  generalize hl : l.filter (fun x => key x = k) = found at hfilter ⊢
  -- none or one entry has the key; two of them would have equal keys in different places
  match found with
  | [] => exact hfilter.eq_nil
  | [x] => exact List.perm_singleton.mp hfilter
  | x :: y :: rest =>
    exfalso
    have hsub : ([x, y].map key).Sublist (l.map key) := by
      have hfound : (x :: y :: rest).Sublist l := hl ▸ List.filter_sublist
      exact (((List.nil_sublist rest).cons_cons y |>.cons_cons x).trans hfound).map key
    have hkey : ∀ z ∈ [x, y], key z = k := by
      intro z hz
      have hz : z ∈ l.filter fun x => key x = k := by
        rw [hl]
        exact List.mem_append_left rest hz
      simpa using (List.mem_filter.mp hz).2
    have hne := hsub.nodup hnodup
    simp [hkey x, hkey y] at hne

/-- The placed blocks of constraints that name their cliques in another order are rearranged within
each constraint. -/
theorem placed_perm {cs cs' : List (Constraint K)} (h : List.Forall₂ Constraint.Renames cs cs')
    (q : PartialPermutation) : (placed q cs').Perm (placed q cs) := by
  rw [placed, placed]
  have hzip := forall₂_zipIdx_zipIdx h 0
  generalize cs.zipIdx = xs at hzip ⊢
  generalize cs'.zipIdx = ys at hzip ⊢
  -- constraint by constraint, since blocks never leave their row
  induction hzip with
  | nil => exact List.Perm.refl _
  | @cons x y xs ys hxy _ ih =>
    obtain ⟨c, i⟩ := x
    obtain ⟨c', i'⟩ := y
    obtain ⟨hcc', rfl⟩ := hxy
    exact (hcc'.blocks.map _).append ih

/-- Within a column they are not rearranged. -/
theorem filter_col_placed {cs cs' : List (Constraint K)}
    (h : List.Forall₂ Constraint.Renames cs cs') {q : PartialPermutation}
    (hcs : ∀ c ∈ cs, ∀ i, ((c.blocks.map (placeOf q i)).map PlacedBlock.col).Nodup) (j : Nat) :
    (placed q cs').filter (fun t => t.col = j) = (placed q cs).filter fun t => t.col = j := by
  rw [placed, placed]
  have hzip := forall₂_zipIdx_zipIdx h 0
  have hmem : ∀ x ∈ cs.zipIdx, x.1 ∈ cs := fun x hx => List.fst_mem_of_mem_zipIdx hx
  generalize cs.zipIdx = xs at hzip hmem ⊢
  generalize cs'.zipIdx = ys at hzip ⊢
  induction hzip with
  | nil => rfl
  | @cons x y xs ys hxy _ ih =>
    obtain ⟨c, i⟩ := x
    obtain ⟨c', i'⟩ := y
    obtain ⟨hcc', rfl⟩ := hxy
    have hfirst := filter_eq_of_perm (hcc'.blocks.map (placeOf q i))
      (hcs c (hmem (c, i) (by simp)) i) j
    rw [List.flatMap_cons, List.flatMap_cons, List.filter_append, List.filter_append,
      ih fun z hz => hmem z (List.mem_cons_of_mem _ hz)]
    exact congrArg (· ++ _) hfirst

/-! ## Stacks

The Jacobians of the two stacks list the same blocks in another order under the rows, and the names
of the cliques are left out of the relation. Nothing that is computed from a stack looks at
either. -/

/-- A stack of the same system, with the cliques of its members named in another order. -/
structure Stack.Renames (s s' : Stack K) : Prop where
  members : List.Forall₂ (fun c c' => c'.equations = c.equations ∧ c'.projection = c.projection)
    s.members s'.members
  J : s.J.Reorders s'.J
  R : s'.R = s.R
  vHat : s'.vHat = s.vHat
  Rinv : s'.Rinv = s.Rinv

namespace Stack.Renames

variable [Arith K] {s s' : Stack K}

/-- Unprojected impulses are made from sizes, regularization and bias. -/
theorem unproject_eq (h : s.Renames s') (vc : Vec K) : s'.unproject vc = s.unproject vc := by
  rw [unproject, unproject, equations, equations, BlockGrid.rows, BlockGrid.rows, h.J.heights,
    h.Rinv, h.vHat]

/-- The names of its cliques do not enter the impulses of a constraint. -/
theorem projectMembers_eq (h : s.Renames s') (y : Vec K) (wanted : Bool) :
    (s'.members.zipIdx.mapM fun (c, i) => s'.projectMember y wanted i c) =
      s.members.zipIdx.mapM fun (c, i) => s.projectMember y wanted i c := by
  refine (Outcome.mapM_congr ((forall₂_zipIdx_zipIdx h.members 0).imp ?_)).symm
  rintro ⟨c, i⟩ ⟨c', i'⟩ ⟨hcc', rfl⟩
  obtain ⟨hequations, hprojection⟩ :
    c'.equations = c.equations ∧ c'.projection = c.projection := hcc'
  simp only [projectMember, hequations, hprojection, h.J.heights, h.R, h.Rinv]

/-- Impulses and their blocks come member by member. -/
theorem projectAll_eq (h : s.Renames s') (y : Vec K) (wanted : Bool) :
    s'.projectAll y wanted = s.projectAll y wanted := by
  rw [projectAll, projectAll, equations, equations, BlockGrid.rows, BlockGrid.rows, h.J.heights,
    h.projectMembers_eq]

omit [Arith K] in
/-- Stacks have as many members. -/
theorem size_eq (h : s.Renames s') : s'.size = s.size := h.members.length_eq.symm

end Stack.Renames

namespace ContactProblem

section Estimates

variable [ExactField K] {p p' : ContactProblem K}

/-- A Delassus estimate is the length of a sum, which does not depend on the order. -/
theorem Renames.computedEstimate_eq (h : p.Renames p') {c c' : Constraint K} (hc : c.Renames c') :
    p'.computedEstimate c' = p.computedEstimate c := by
  have hcompliance : p'.compliance = p.compliance := by
    funext b
    rw [compliance, compliance, h.dynamics, h.format]
  have hsum : c'.blocks.foldl (fun W b => W.add (p'.compliance b))
        (Mat.zeros p'.format c'.equations c'.equations) =
      c.blocks.foldl (fun W b => W.add (p.compliance b))
        (Mat.zeros p.format c.equations c.equations) := by
    rw [hcompliance, h.format, hc.equations]
    exact hc.blocks.foldl_eq' (fun b _ d _ W => Mat.add_right_comm W _ _) _
  rw [computedEstimate, computedEstimate, hsum, hc.equations]

/-- Estimates are collected in the order of the constraints, which stays. -/
theorem Renames.computedEstimates_eq (h : p.Renames p') {cs cs' : List (Constraint K)}
    (hcs : List.Forall₂ Constraint.Renames cs cs') :
    p'.computedEstimates cs' = p.computedEstimates cs := by
  have hvalues : (cs'.map fun c => (p'.computedEstimate c).value) =
      cs.map fun c => (p.computedEstimate c).value :=
    map_eq_of_forall₂ hcs fun c c' hc => congrArg _ (h.computedEstimate_eq hc)
  rw [computedEstimates, computedEstimates, hvalues, h.format]

/-- The Delassus estimates are the same, in the same order. -/
theorem Renames.estimateAll_eq (h : p.Renames p') (hp : p.WellFormed)
    (hf : p.format.isFloating = true) {g : ClusterGraph} {q : PartialPermutation}
    (ha : p.Arranged g q) {Ls : List (CholeskyFactor K)}
    (hLs : q.inverse.mapM p.factorAt = .ok Ls) :
    Model.estimateAll p' g q Ls = Model.estimateAll p g q Ls := by
  have hf' : p'.format.isFloating = true := by
    rw [h.format]
    exact hf
  have hfactors : p'.factorAt = p.factorAt := by
    funext c
    rw [factorAt, factorAt, h.dynamics]
  have hLs' : q.inverse.mapM p'.factorAt = .ok Ls := by
    rw [hfactors]
    exact hLs
  rw [(h.arranged ha).estimateAll_eq (h.wellFormed hp) hf' hLs', ha.estimateAll_eq hp hf hLs,
    h.computedEstimates_eq (h.forall₂_pick g)]

end Estimates

variable [Arith K] {p p' : ContactProblem K} {g : ClusterGraph} {q : PartialPermutation}

omit [Arith K] in
/-- The cliques that a constraint names stand in different columns. -/
theorem Arranged.nodup_cols (hp : p.WellFormed) (h : p.Arranged g q) {c : Constraint K}
    (hc : c ∈ pick p.constraints g.places) (i : Nat) :
    ((c.blocks.map (placeOf q i)).map PlacedBlock.col).Nodup := by
  obtain ⟨k, hk⟩ := List.mem_iff_getElem?.mp hc
  have hrow := h.scattered hp k
  rw [filter_row_placed hk, List.map_map] at hrow
  rw [List.map_map]
  exact hrow

/-- The laws of the constraints in their order are asked for the same. -/
theorem Renames.mapM_lawOf_eq (h : p.Renames p') (w : Tensor K) {cs cs' : List (Constraint K)}
    (hcs : List.Forall₂ Constraint.Renames cs cs') :
    (cs'.zipIdx.mapM fun (c, i) => Stack.lawOf p'.timeStep w i c) =
      cs.zipIdx.mapM fun (c, i) => Stack.lawOf p.timeStep w i c := by
  rw [h.timeStep]
  refine (Outcome.mapM_congr ((forall₂_zipIdx_zipIdx hcs 0).imp ?_)).symm
  rintro ⟨c, i⟩ ⟨c', i'⟩ ⟨hcc', rfl⟩
  exact (hcc'.lawOf_eq _ _ _).symm

/-- **Stacks.** For the same estimates the stack of the other problem is the same system. -/
theorem Renames.exists_stack (h : p.Renames p') (hp : p.WellFormed) (ha : p.Arranged g q)
    {w : Tensor K} {s : Stack K} (hs : Stack.build? p w = .ok s) :
    ∃ s', Stack.build? p' w = .ok s' ∧ s.Renames s' ∧
      s.J.Lists (placed q (pick p.constraints g.places)) := by
  have ha' := h.arranged ha
  have hpick := h.forall₂_pick g
  obtain ⟨laws, hparts⟩ := ha.exists_parts hs
  -- the Jacobian is assembled anew, all else is computed from what is equal
  obtain ⟨J', hJ'⟩ := ha'.exists_assemble (h.wellFormed hp)
  obtain ⟨hheights, hwidths, hformat, hlists⟩ := Stack.assemble_eq_ok hJ'
  have hcount : Stack.estimateCount w = (.ok g.order.length : Except (Error K) Nat) := by
    rw [Stack.build?, Outcome.bind_of_ok _ ha.graph, Outcome.bind_of_ok _ ha.cliques] at hs
    obtain ⟨n, hn, hs⟩ := Outcome.bind_eq_ok.mp hs
    rw [hn]
    by_cases hlength : n = g.order.length
    · rw [hlength]
    · rw [if_pos hlength] at hs
      cases hs
  have hlaws := h.mapM_lawOf_eq w hpick
  rw [hparts.mapM_lawOf] at hlaws
  have hbuild : Stack.build? p' w = .ok
      { members := List.zipWith (fun i c => ⟨i.toNat, c.cliques, c.equations, c.projection⟩)
          g.order (pick p'.constraints g.places)
        J := J'
        R := s.R
        vHat := s.vHat
        Rinv := s.Rinv } := by
    rw [Stack.build?, Outcome.bind_of_ok _ ha'.graph, Outcome.bind_of_ok _ ha'.cliques]
    dsimp only
    rw [Outcome.bind_of_ok _ hcount, if_neg (not_not.mpr rfl),
      Outcome.bind_of_ok _ ha'.mapM_constraintAt, Outcome.bind_of_ok _ ha'.mapM_sizeAt,
      Outcome.bind_of_ok _ hJ', Outcome.bind_of_ok _ hlaws, hparts.Rinv, hparts.R, hparts.vHat,
      h.format]
    rfl
  refine ⟨_, hbuild, ⟨?_, ?_, rfl, rfl, rfl⟩, hparts.lists⟩
  · rw [hparts.members, ClusterGraph.places, List.zipWith_map_left]
    exact forall₂_zipWith hpick (fun _ _ _ hcc' => ⟨hcc'.equations, hcc'.projection⟩) _
  · refine hparts.lists.reorders hlists ?_ ?_ ?_ (ha.scattered hp) (placed_perm hpick q)
      (filter_col_placed hpick fun c hc i => ha.nodup_cols hp hc i)
    · rw [hformat, hparts.format_eq, h.format]
    · rw [hheights, hparts.heights_eq]
      exact map_eq_of_forall₂ hpick fun _ _ hcc' => hcc'.equations
    · rw [hwidths, hparts.widths_eq, h.sizes]

end ContactProblem

/-! ## Models

Models that differ in their stacks only. Each quantity is compared at the one step where it asks the
stack. -/

namespace Model

section WithStack

variable [Arith K] {m : Model K} {s' : Stack K}

/-- Where the products with the Jacobian are the same, a model answers in the same way from the
stack with other names. -/
theorem eval_with_stack (h : m.stack.Renames s')
    (hmultiply : ∀ x, s'.J.multiply x = m.stack.J.multiply x) (q : Quantity) :
    Model.eval { m with stack := s' } q = m.eval q := by
  have hvelocities : evalConstraintVelocities { m with stack := s' } =
      m.evalConstraintVelocities :=
    congrArg (m.memoized _) (funext fun v => congrArg Evaluation.lift (hmultiply v))
  have hunprojected : evalUnprojectedImpulses { m with stack := s' } =
      m.evalUnprojectedImpulses := by
    refine congrArg (m.memoized _) (funext fun _ => ?_)
    simp only [hvelocities, h.unproject_eq]
  have himpulses : evalImpulses { m with stack := s' } = m.evalImpulses := by
    refine congrArg (m.memoized _) (funext fun _ => ?_)
    simp only [hunprojected, Stack.project, h.projectAll_eq]
  have hblocks : evalConstraintsHessian { m with stack := s' } = m.evalConstraintsHessian := by
    refine congrArg (m.memoized _) (funext fun _ => ?_)
    simp only [hunprojected, Stack.projectWithHessian, h.projectAll_eq]
  have hregularizer : evalRegularizerCost { m with stack := s' } = m.evalRegularizerCost := by
    refine congrArg (m.memoized _) (funext fun _ => ?_)
    simp only [himpulses, regularizerCostOf, h.R]
  -- five quantities are known already; the others are computed from them, and from the Jacobian
  cases q with
  | constraintVelocities => exact hvelocities
  | unprojectedImpulses => exact hunprojected
  | impulses => exact himpulses
  | constraintsHessian => exact hblocks
  | regularizerCost => exact hregularizer
  | momentum | momentumGain | momentumCost => rfl
  | cost =>
    refine congrArg (m.memoized _) (funext fun _ => ?_)
    rw [hregularizer]
    rfl
  | costGradient =>
    refine congrArg (m.memoized _) (funext fun _ => ?_)
    simp only [himpulses, gradientOf, h.J.transposeMultiply_eq]
    rfl
  | hessian =>
    refine congrArg (m.memoized _) (funext fun _ => ?_)
    simp only [hblocks, hessianOf, hessianBlock, hessianTerm, hessianFormat, h.J.block?]
    rfl

/-- The same holds of every other command. -/
theorem perform_with_stack (h : m.stack.Renames s')
    (hmultiply : ∀ x, s'.J.multiply x = m.stack.J.multiply x) (c : Command K) :
    Model.perform { m with stack := s' } c = m.perform c := by
  have heval := eval_with_stack h hmultiply
  cases c with
  | setVelocities v => rfl
  | velocities => rfl
  | eval q => exact heval q
  | multiplyHessian w =>
    have hproduct : multiplyHessianTensor { m with stack := s' } = m.multiplyHessianTensor := by
      funext G w
      simp only [multiplyHessianTensor, multiplyHessianOf, multiplyMembers, hmultiply,
        h.J.transposeMultiply_eq, h.J.heights, BlockGrid.cols, h.J.widths]
      rfl
    have hblocks := heval .constraintsHessian
    simp only [Model.eval] at hblocks
    simp only [perform, multiplyHessian, hblocks, hproduct]
  | summarize =>
    have hsizes : modelSizes { m with stack := s' } = m.modelSizes := by
      simp only [modelSizes, h.size_eq, Stack.equations, BlockGrid.rows, h.J.heights]
      rfl
    have himpulses := heval .impulses
    have hgradient := heval .costGradient
    have hmomentum := heval .momentumCost
    have hregularizer := heval .regularizerCost
    have hcost := heval .cost
    simp only [Model.eval] at himpulses hgradient hmomentum hregularizer hcost
    simp only [perform, summarize, himpulses, hgradient, hmomentum, hregularizer, hcost, hsizes]

end WithStack

end Model

/-- **Construction.** The model of the other problem is the same but for its stack. -/
theorem ContactProblem.Renames.exists_build [ExactField K] {p p' : ContactProblem K}
    (h : p.Renames p') (hp : p.WellFormed) (hne : p.constraints ≠ []) {m : Model K}
    (hm : Model.build? p = .ok m) :
    ∃ s', Model.build? p' = .ok { m with stack := s' } ∧ m.stack.Renames s' ∧
      ∀ x, s'.J.multiply x = m.stack.J.multiply x := by
  obtain ⟨Ls, hsteps⟩ := Model.exists_steps hm
  have hf := hsteps.floating hp fun hnone => absurd hnone hne
  have ha := hsteps.toArranged
  have ha' := h.arranged ha
  have hLs : m.cliques.inverse.mapM p.factorAt = .ok Ls := by
    rw [← ha.factorAll_eq, ← hsteps.dynamics_eq]
    exact hsteps.factors
  have hdelassus : Model.estimateAll p' m.graph m.cliques Ls = .ok m.delassus :=
    (h.estimateAll_eq hp hf ha hLs).trans hsteps.delassus
  have hvelocities : Model.numberVelocities p' m.cliques = .ok m.velocities := by
    rw [← hsteps.velocities, Model.numberVelocities, Model.numberVelocities, velocityCount,
      velocityCount, h.sizes]
  have himpulses : Model.numberImpulses p' m.graph = .ok m.impulses := by
    rw [← hsteps.impulses, Model.numberImpulses, Model.numberImpulses, h.map_equations]
  obtain ⟨w, hw, hvStar⟩ := hsteps.vStar
  have hpStar := hsteps.pStar
  rw [hvStar] at hpStar
  obtain ⟨s', hs', hrenames, hlists⟩ := h.exists_stack hp ha hsteps.stack
  have hformat : ∀ t ∈ placed m.cliques (pick p.constraints m.graph.places),
      t.block.format = p.format := by
    intro t ht
    obtain ⟨c, hc, b, hb, htb⟩ := hsteps.mem_placed ht
    rw [htb, (hp.constraint c hc).format b hb, hp.constraint_format c hc]
  refine ⟨s', ?_, hrenames,
    hrenames.J.multiply_eq hlists (Model.ne_boolean_of_floating hf) hformat⟩
  -- both constructions take the same steps
  rw [Model.build?, Outcome.bind_of_ok _ ha.graph, Outcome.bind_of_ok _ ha.cliques,
    Outcome.bind_of_ok _ hsteps.dynamics, Outcome.bind_of_ok _ hsteps.velocities,
    Outcome.bind_of_ok _ hsteps.impulses, Outcome.bind_of_ok _ hw, Outcome.bind_of_ok _ hpStar,
    Outcome.bind_of_ok _ hsteps.factors, Outcome.bind_of_ok _ hsteps.delassus,
    Outcome.bind_of_ok _ hsteps.stack] at hm
  have hfields := Outcome.pure_eq_ok.mp hm
  rw [Model.build?, Outcome.bind_of_ok _ ha'.graph, Outcome.bind_of_ok _ ha'.cliques, h.dynamics,
    Outcome.bind_of_ok _ hsteps.dynamics, Outcome.bind_of_ok _ hvelocities,
    Outcome.bind_of_ok _ himpulses, h.vStar, Outcome.bind_of_ok _ hw, h.format,
    Outcome.bind_of_ok _ hpStar, Outcome.bind_of_ok _ hsteps.factors,
    Outcome.bind_of_ok _ hdelassus, Outcome.bind_of_ok _ hs']
  refine congrArg Except.ok ?_
  conv_rhs => rw [← hfields]
  rw [h.timeStep, cliqueCount, velocityCount, h.dynamics, h.sizes]
  rfl

/-! ## Exchanged constraints are accepted -/

section Constructed

variable [Arith K]

/-- Storing a constraint in a format does not look at the order of its cliques. -/
theorem Constraint.exchange_cast (f : Format) (c : Constraint K) :
    (c.cast f).exchange = c.exchange.cast f := by
  cases hsecond : c.second <;> simp [exchange, cast, hsecond]

/-- A constraint can be built with its cliques named the other way round. -/
theorem Constraint.Constructed.exchange {c : Constraint K} (h : c.Constructed) :
    c.exchange.Constructed := by
  induction h with
  -- the construction is run again with its two blocks exchanged: both have passed the same checks
  | @build law projection g J₁ first second J₂ c h =>
    cases hsecond : c.second with
    | none =>
      have hself : c.exchange = c := by simp only [Constraint.exchange, hsecond]
      rw [hself]
      exact Constructed.build h
    | some b =>
      obtain ⟨v, hv, h⟩ := Outcome.bind_eq_ok.mp h
      obtain ⟨k, hk, h⟩ := Outcome.bind_eq_ok.mp h
      obtain ⟨A, hA, h⟩ := Outcome.bind_eq_ok.mp h
      obtain ⟨other, hother, h⟩ := Outcome.bind_eq_ok.mp h
      obtain rfl := Outcome.pure_eq_ok.mp h
      obtain rfl : other = some b := hsecond
      obtain ⟨l, J, rfl, rfl, hl, hne, hB⟩ := readSecond_eq_some hother
      have hfirst : readSecond v b.clique (some first) (some J₁) = .ok (some ⟨k, A⟩) := by
        rw [readSecond, Outcome.bind_of_ok _ hk, if_neg hne.symm, Outcome.bind_of_ok _ hA]
        rfl
      have hbuild : build? law projection g l J (some first) (some J₁) =
          .ok { g := v, law, projection, first := b, second := some ⟨k, A⟩ } := by
        rw [build?, Outcome.bind_of_ok _ hv, Outcome.bind_of_ok _ hl, Outcome.bind_of_ok _ hB,
          Outcome.bind_of_ok _ hfirst]
        rfl
      exact Constructed.build hbuild
  -- what was stored in a format can be exchanged before it is stored
  | @cast c f _ ih =>
    rw [exchange_cast]
    exact Constructed.cast f ih

/-- The constraint that is stored last is exchanged with the others. -/
theorem ContactProblem.exchange_store (p : ContactProblem K) (c : Constraint K) (S : Nat → Bool) :
    (p.store c).exchange S =
      (p.exchange S).store (if S p.constraints.length then c.exchange else c) := by
  have hlast : (if S p.constraints.length then c.exchange else c).cast p.format =
      if S p.constraints.length then (c.cast p.format).exchange else c.cast p.format := by
    rw [Constraint.exchange_cast, apply_ite (Constraint.cast p.format)]
  have hequations := (c.renames_exchange_if (S p.constraints.length)).equations
  simp only [store, exchange, List.zipIdx_append, List.map_append, List.zipIdx_singleton,
    List.map_singleton, Nat.zero_add, ← hlast, hequations]
  rfl

/-- A problem can be built with the cliques of some constraints named the other way round. -/
theorem ContactProblem.Constructed.exchange {p : ContactProblem K} (h : p.Constructed)
    (S : Nat → Bool) : (p.exchange S).Constructed := by
  induction h with
  -- a problem that was just built has no constraints to exchange
  | @build _ _ _ p h =>
    rw [(p.renames_exchange S).eq_of_no_constraints (builtFrom h).constraints]
    exact Constructed.build h
  | @add p q c i hp hc h ih =>
    obtain ⟨⟨⟩, hchecks, h⟩ := Outcome.bind_eq_ok.mp h
    obtain ⟨rfl, -⟩ := Prod.mk.inj (Outcome.pure_eq_ok.mp h)
    have hrenames := c.renames_exchange_if (S p.constraints.length)
    have hconstructed : (if S p.constraints.length then c.exchange else c).Constructed := by
      split
      · exact hc.exchange
      · exact hc
    -- blocks are checked one by one, so their order does not matter
    have hchecks' : (if S p.constraints.length then c.exchange else c).blocks.forM
        (p.exchange S).checkBlock = .ok () :=
      Outcome.forM_eq_ok.mpr fun b hb =>
        Outcome.forM_eq_ok.mp hchecks b (hrenames.blocks.mem_iff.mp hb)
    refine ih.add hconstructed (i := (p.exchange S).constraints.length) ?_
    rw [ContactProblem.add, Outcome.bind_of_ok _ hchecks', exchange_store]
    rfl

end Constructed

/-! ## Models of exchanged problems -/

namespace Model

/-- **Naming order.** In exact arithmetic, naming the cliques of any constraints the other way round
gives a problem whose model has the same clusters and numberings, the same Jacobian, regularization,
bias and Delassus estimates, and the same states, and that gives the same replies to all commands
and memorizes the same. -/
theorem naming_order_is_irrelevant [ExactField K] {p : ContactProblem K} {m : Model K}
    (hp : p.Constructed) (hm : build? p = .ok m) (S : Nat → Bool) :
    (p.exchange S).Constructed ∧
    ∃ m', build? (p.exchange S) = .ok m' ∧
      m'.graph = m.graph ∧ m'.cliques = m.cliques ∧ m'.velocities = m.velocities ∧
      m'.impulses = m.impulses ∧ m'.stack.J.toDense = m.stack.J.toDense ∧
      m'.stack.J.dense = m.stack.J.dense ∧ m'.stack.R = m.stack.R ∧
      m'.stack.vHat = m.stack.vHat ∧ m'.delassus = m.delassus ∧ m'.makeState = m.makeState ∧
      ∀ s cs, m'.performAll s cs = m.performAll s cs := by
  refine ⟨hp.exchange S, ?_⟩
  have hrenames := p.renames_exchange S
  -- without constraints the formats may hold no fractions, but there is nothing to exchange either
  by_cases hnone : p.constraints = []
  · rw [hrenames.eq_of_no_constraints hnone]
    exact ⟨m, hm, rfl, rfl, rfl, rfl, rfl, rfl, rfl, rfl, rfl, rfl, fun _ _ => rfl⟩
  · obtain ⟨s', hs', hstack, hmultiply⟩ := hrenames.exists_build hp.wellFormed hnone hm
    have hblocks := hstack.J.sameBlocks
    refine ⟨_, hs', rfl, rfl, rfl, rfl, hblocks.toDense_eq, hblocks.dense_eq, hstack.R,
      hstack.vHat, rfl, rfl, fun s cs => ?_⟩
    exact performAll_congr (fun c _ => perform_with_stack hstack hmultiply c) s

/-- Two of three couplings are named the other way round, and a constraint on a single clique is
chosen in vain. -/
theorem naming_order_is_irrelevant_sample :
    ∃ p m m', ContactProblem.interleavedSample? = .ok p ∧ build? p = .ok m ∧
      p.constraints.map Constraint.cliques = [[3], [3, 1], [3], [1, 3], [1, 3]] ∧
      (p.exchange (· < 4)).constraints.map Constraint.cliques = [[3], [1, 3], [3], [3, 1], [1, 3]] ∧
      build? (p.exchange (· < 4)) = .ok m' ∧ m'.stack.J.toDense = m.stack.J.toDense ∧
      m'.performAll m'.makeState Session.sampleCommands =
        m.performAll m.makeState Session.sampleCommands := by
  obtain ⟨p, hp, h⟩ := Outcome.exists_of_check (x := ContactProblem.interleavedSample?)
    (P := fun p => (p.constraints.map Constraint.cliques == [[3], [3, 1], [3], [1, 3], [1, 3]] &&
      (p.exchange (· < 4)).constraints.map Constraint.cliques ==
        [[3], [1, 3], [3], [3, 1], [1, 3]]) && (build? p).isOk) (by decide +kernel)
  simp only [Bool.and_eq_true, beq_iff_eq] at h
  obtain ⟨⟨hcliques, hexchanged⟩, hok⟩ := h
  cases hm : build? p with
  | error e =>
    rw [hm] at hok
    cases hok
  | ok m =>
    obtain ⟨-, m', hm', -, -, -, -, hJ, -, -, -, -, hstate, hrun⟩ :=
      naming_order_is_irrelevant (ContactProblem.constructed_interleavedSample hp) hm (· < 4)
    refine ⟨p, m, m', hp, hm, hcliques, hexchanged, hm', hJ, ?_⟩
    rw [hstate]
    exact hrun _ _

end Model

end ConvexContact
