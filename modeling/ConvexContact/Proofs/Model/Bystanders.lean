import ConvexContact.Proofs.Evaluation.Transcript
import ConvexContact.Proofs.Model.Construction

/-!
# Bystanders

Cliques that no constraint couples are bystanders. Their matrices may be anything, and so may their
velocities of free motion and even how many velocities they have: two problems that differ in
bystanders only (`ContactProblem.AgreesWhereCoupled`) have the same model, but for the places that
its velocities have among those of the whole problem.

These places do enter the construction, through what is gathered from the velocities of free motion.
They cancel out there, because what is gathered are the blocks of the coupled cliques
(`AgreesWhereCoupled.pick_vStar`). Nothing is assumed of the arithmetic.

Main statement: `Model.bystanders_do_not_interfere`.
-/

namespace ConvexContact

variable {K : Type}

namespace ContactProblem

/-- Problems that differ at most in the matrices, the velocities of free motion and the sizes of
cliques that no constraint couples. -/
structure AgreesWhereCoupled (p p' : ContactProblem K) : Prop where
  timeStep : p'.timeStep = p.timeStep
  format : p'.format = p.format
  cliqueCount : p'.cliqueCount = p.cliqueCount
  constraints : p'.constraints = p.constraints
  dynamics : ∀ con ∈ p.constraints, ∀ c ∈ con.cliques, p'.dynamics[c]? = p.dynamics[c]?
  vStar : ∀ con ∈ p.constraints, ∀ c ∈ con.cliques,
    p'.vStar.block p'.sizes c = p.vStar.block p.sizes c

namespace AgreesWhereCoupled

variable {p p' : ContactProblem K} {g : ClusterGraph} {q r r' : PartialPermutation}

/-- The problems are arranged in the same way. -/
theorem arranged (h : p.AgreesWhereCoupled p') (ha : p.Arranged g q) : p'.Arranged g q := by
  refine ⟨?_, ha.cliques⟩
  rw [← ha.graph, graph, graph, h.constraints, h.cliqueCount]

/-- The constraints are looked up alike. -/
theorem constraintAt_eq (h : p.AgreesWhereCoupled p') : p'.constraintAt = p.constraintAt := by
  funext i
  rw [constraintAt, constraintAt, h.constraints]

/-! ## What is read of the cliques -/

/-- The matrices of the cliques that take part are the same. -/
theorem pick_dynamics (h : p.AgreesWhereCoupled p') (ha : p.Arranged g q) :
    pick p'.dynamics q.inverse = pick p.dynamics q.inverse := by
  apply List.filterMap_congr
  intro c hc
  obtain ⟨con, hcon, hmem⟩ := ha.mem_cliques.mp hc
  exact h.dynamics con hcon c hmem

/-- The sizes of the cliques that take part are the same. -/
theorem mapM_sizeAt (h : p.AgreesWhereCoupled p') (ha : p.Arranged g q) :
    q.inverse.mapM (fun (c : Nat) => p'.sizeAt c) = q.inverse.mapM fun (c : Nat) => p.sizeAt c := by
  rw [ha.mapM_sizeAt, (h.arranged ha).mapM_sizeAt]
  refine congrArg _ (List.map_congr_left fun c hc => ?_)
  obtain ⟨con, hcon, hmem⟩ := ha.mem_cliques.mp hc
  rw [List.getD_eq_getElem?_getD, List.getD_eq_getElem?_getD, sizes, sizes, List.getElem?_map,
    List.getElem?_map, h.dynamics con hcon c hmem]

/-- The velocities of free motion that are gathered are the same, from wherever they come. -/
theorem pick_vStar (h : p.AgreesWhereCoupled p') (ha : p.Arranged g q)
    (hsize : p.vStar.size = p.velocityCount) (hsize' : p'.vStar.size = p'.velocityCount)
    (hr : r.NumbersBlocks p.sizes q.inverse) (hr' : r'.NumbersBlocks p'.sizes q.inverse) :
    pick p'.vStar.entries r'.inverse = pick p.vStar.entries r.inverse := by
  rw [hr.inverse, hr'.inverse, pick_flatMap_blockIndices hsize, pick_flatMap_blockIndices hsize']
  -- clique by clique, the velocities are those of the block
  refine List.flatMap_congr fun c hc => ?_
  obtain ⟨con, hcon, hmem⟩ := ha.mem_cliques.mp hc
  exact congrArg Vec.entries (h.vStar con hcon c hmem)

variable [Arith K]

/-! ## The construction

Every step reads the cliques that take part or the constraints. The exceptions are the places of the
velocities and how many there are in the whole problem, and these are left out of the comparison. -/

/-- The estimates read constraints and factors, and nothing of bystanders. -/
theorem estimateAll_eq (h : p.AgreesWhereCoupled p') (Ls : List (CholeskyFactor K)) :
    Model.estimateAll p' g q Ls = Model.estimateAll p g q Ls := by
  rw [Model.estimateAll, Model.estimateAll, h.constraintAt_eq, h.format]

/-- The stacks are the same. -/
theorem buildStack_eq (h : p.AgreesWhereCoupled p') (ha : p.Arranged g q) (w : Tensor K) :
    Stack.build? p' w = Stack.build? p w := by
  have ha' := h.arranged ha
  rw [Stack.build?, Outcome.bind_of_ok _ ha'.graph, Outcome.bind_of_ok _ ha'.cliques, Stack.build?,
    Outcome.bind_of_ok _ ha.graph, Outcome.bind_of_ok _ ha.cliques]
  simp only [h.constraintAt_eq, h.mapM_sizeAt ha, h.timeStep, h.format]

/-- **Construction.** The models are the same, but for the places of their velocities. -/
theorem build_eq (h : p.AgreesWhereCoupled p') (hp : p.WellFormed) (hp' : p'.WellFormed) :
    ∃ n r, Model.build? p' =
      (fun m => { m with fullVelocityCount := n, velocities := r }) <$> Model.build? p := by
  obtain ⟨g, q, ha⟩ := hp.exists_arranged
  have ha' := h.arranged ha
  obtain ⟨r, hr⟩ : ∃ r, Model.numberVelocities p q = .ok r :=
    PartialPermutation.exists_pushAll_blocks _ _
  obtain ⟨r', hr'⟩ : ∃ r, Model.numberVelocities p' q = .ok r :=
    PartialPermutation.exists_pushAll_blocks _ _
  -- what is gathered from the problems is the same, although they are gathered from different
  -- places
  have hdynamics : q.gather p.dynamics = (.ok (pick p.dynamics q.inverse) : Except (Error K) _) :=
    PartialPermutation.gather_eq_ok.mpr ⟨ha.cliques_spec.2.1.symm, rfl⟩
  have hdynamics' : q.gather p'.dynamics = (.ok (pick p.dynamics q.inverse) : Except (Error K) _) :=
    PartialPermutation.gather_eq_ok.mpr
      ⟨ha'.cliques_spec.2.1.symm, (h.pick_dynamics ha).symm⟩
  have hspec := ha.velocities_spec hr
  have hspec' := ha'.velocities_spec hr'
  have hvStar : r.gather p.vStar.entries =
      (.ok (pick p.vStar.entries r.inverse) : Except (Error K) _) :=
    PartialPermutation.gather_eq_ok.mpr ⟨hp.size_vStar.trans hspec.domainSize.symm, rfl⟩
  have hvStar' : r'.gather p'.vStar.entries =
      (.ok (pick p.vStar.entries r.inverse) : Except (Error K) _) :=
    PartialPermutation.gather_eq_ok.mpr ⟨hp'.size_vStar.trans hspec'.domainSize.symm,
      (h.pick_vStar ha hp.size_vStar hp'.size_vStar hspec hspec').symm⟩
  -- impulses are numbered by the constraints alone
  have himpulses : Model.numberImpulses p' g = Model.numberImpulses p g := by
    rw [Model.numberImpulses, Model.numberImpulses, h.constraints]
  refine ⟨p'.velocityCount, r', ?_⟩
  -- up to the impulses both constructions have what they need, and from there on they are one
  rw [Model.build?, Outcome.bind_of_ok _ ha'.graph, Outcome.bind_of_ok _ ha'.cliques,
    Outcome.bind_of_ok _ hdynamics', Outcome.bind_of_ok _ hr', himpulses, Model.build?,
    Outcome.bind_of_ok _ ha.graph, Outcome.bind_of_ok _ ha.cliques,
    Outcome.bind_of_ok _ hdynamics, Outcome.bind_of_ok _ hr]
  simp only [map_bind, map_pure, Outcome.bind_of_ok _ hvStar, Outcome.bind_of_ok _ hvStar',
    h.estimateAll_eq, h.buildStack_eq ha, h.timeStep, h.format, h.cliqueCount]

end AgreesWhereCoupled

end ContactProblem

namespace Model

variable [Arith K] {p p' : ContactProblem K}

/-- Nothing but a summary reads where velocities have their places in the whole problem. -/
theorem perform_with_velocities (m : Model K) (n : Nat) (r : PartialPermutation) {c : Command K}
    (hc : c ≠ .summarize) :
    Model.perform { m with fullVelocityCount := n, velocities := r } c = m.perform c := by
  cases c with
  | summarize => exact absurd rfl hc
  | eval q => cases q <;> rfl
  | _ => rfl

/-- **Bystanders.** Two problems that differ in cliques that no constraint couples either are both
refused, for the same cause, or have models that differ at most in where their velocities have their
places in the whole problem. These models have the same states, and give the same replies at them
and memorize the same, whatever is asked but a summary, which counts the velocities of the whole
problem. -/
theorem bystanders_do_not_interfere (hp : p.Constructed) (hp' : p'.Constructed)
    (h : p.AgreesWhereCoupled p') :
    (∃ e, build? p = .error e ∧ build? p' = .error e) ∨
    ∃ m m', build? p = .ok m ∧ build? p' = .ok m' ∧
      m' = { m with fullVelocityCount := m'.fullVelocityCount, velocities := m'.velocities } ∧
      m'.makeState = m.makeState ∧
      ∀ s cs, Command.summarize ∉ cs → m'.performAll s cs = m.performAll s cs := by
  obtain ⟨n, r, hbuild⟩ := h.build_eq hp.wellFormed hp'.wellFormed
  -- both are refused, or neither is
  cases hm : build? p with
  | error e =>
    rw [hm] at hbuild
    exact Or.inl ⟨e, rfl, hbuild⟩
  | ok m =>
    rw [hm] at hbuild
    refine Or.inr ⟨m, _, rfl, hbuild, rfl, rfl, fun s cs hcs => ?_⟩
    refine performAll_congr (fun c hc => perform_with_velocities m n r ?_) s
    rintro rfl
    exact hcs hc

end Model

/-! ## Two bystanders -/

namespace ContactProblem

/-- The constraint that couples the last of three cliques with the first. -/
def couplingSample? : Except (Error ℚ) (Constraint ℚ) :=
  let law : Law ℚ :=
    { bias := (Term.fixed (.tensor (Vec.mk .double [1]).toTensor)).side
      regularization := (Term.fixed (.tensor (Vec.mk .double [2]).toTensor)).side }
  Constraint.build? law .nonneg (.tensor (Vec.mk .double [0]).toTensor) 2
    (.tensor (.ofSlabs .double [2] [[1, -1]])) (some 0)
    (some (.tensor (.ofSlabs .double [1] [[1]])))

/-- Three cliques, of which the one in the middle is a bystander with matrix `A` and velocities `v`
of free motion. -/
def besideSample? (A : Tensor ℚ) (v : List ℚ) : Except (Error ℚ) (ContactProblem ℚ) := do
  let p ← build? ⟨.double, 1 / 100⟩
    [.tensor (.ofSlabs .double [1] [[4]]), .tensor A,
      .tensor (.ofSlabs .double [2] [[9, 0], [0, 9]])]
    (.tensor (Vec.mk .double ([1] ++ v ++ [2, 3])).toTensor)
  p.addAll [← couplingSample?]

/-- A sample that is made has the one constraint, whatever its bystander. -/
theorem besideSample_eq_ok {A : Tensor ℚ} {v : List ℚ} {p : ContactProblem ℚ}
    (h : besideSample? A v = .ok p) :
    p.Constructed ∧ ∃ c, couplingSample? = .ok c ∧ p.constraints = [c.cast p.format] := by
  obtain ⟨q, hq, h⟩ := Outcome.bind_eq_ok.mp h
  obtain ⟨c, hc, h⟩ := Outcome.bind_eq_ok.mp h
  refine ⟨(Constructed.build hq).addAll ?_ h, c, hc, ?_⟩
  · rintro d hd
    obtain rfl := List.mem_singleton.mp hd
    exact Constraint.Constructed.build hc
  · obtain ⟨q', hq', h⟩ := Outcome.foldlM_cons_eq_ok.mp h
    obtain ⟨⟨q'', i⟩, hadd, rfl⟩ := Outcome.map_eq_ok.mp hq'
    obtain ⟨⟨⟩, -, hadd⟩ := Outcome.bind_eq_ok.mp hadd
    obtain ⟨rfl, -⟩ := Prod.mk.inj (Outcome.pure_eq_ok.mp hadd)
    obtain rfl := Outcome.pure_eq_ok.mp h
    rw [store, (builtFrom hq).constraints]
    rfl

/-- Samples with different bystanders agree where it matters. -/
theorem agreesWhereCoupled_besideSample {A A' : Tensor ℚ} {v v' : List ℚ} {p p' : ContactProblem ℚ}
    (hp : besideSample? A v = .ok p) (hp' : besideSample? A' v' = .ok p')
    (hcommon : p'.timeStep = p.timeStep ∧ p'.format = p.format ∧ p'.cliqueCount = p.cliqueCount)
    (hcliques : (p.constraints.flatMap Constraint.cliques).all (fun c =>
      p'.dynamics[c]? = p.dynamics[c]? ∧ p'.vStar.block p'.sizes c = p.vStar.block p.sizes c) =
        true) : p.AgreesWhereCoupled p' := by
  obtain ⟨-, c, hc, hconstraints⟩ := besideSample_eq_ok hp
  obtain ⟨-, c', hc', hconstraints'⟩ := besideSample_eq_ok hp'
  obtain rfl := Except.ok.inj (hc.symm.trans hc')
  obtain ⟨hstep, hformat, hcount⟩ := hcommon
  have hmem : ∀ con ∈ p.constraints, ∀ c ∈ con.cliques, p'.dynamics[c]? = p.dynamics[c]? ∧
      p'.vStar.block p'.sizes c = p.vStar.block p.sizes c := by
    intro con hcon c hc
    exact of_decide_eq_true
      (List.all_eq_true.mp hcliques c (List.mem_flatMap.mpr ⟨con, hcon, hc⟩))
  refine ⟨hstep, hformat, hcount, ?_, fun con hcon c hc => (hmem con hcon c hc).1,
    fun con hcon c hc => (hmem con hcon c hc).2⟩
  rw [hconstraints, hconstraints', hformat]

end ContactProblem

namespace Model

/-- A bystander of one velocity, and one of two velocities whose matrix would be refused. -/
theorem bystanders_do_not_interfere_sample :
    ∃ p p' m m',
      ContactProblem.besideSample? (.ofSlabs .double [1] [[1]]) [5] = .ok p ∧
      ContactProblem.besideSample? (.ofSlabs .double [2] [[0, 1], [2, 0]]) [7, 8] = .ok p' ∧
      p.AgreesWhereCoupled p' ∧ p.sizes = [1, 1, 2] ∧ p'.sizes = [1, 2, 2] ∧
      p'.Refuses 1 (.asymmetric 1) ∧ build? p = .ok m ∧ build? p' = .ok m' ∧
      m'.performAll m'.makeState Session.sampleCommands =
        m.performAll m.makeState Session.sampleCommands := by
  obtain ⟨p, hp, h⟩ := Outcome.exists_of_check
    (x := ContactProblem.besideSample? (.ofSlabs .double [1] [[1]]) [5])
    (P := fun p => (ContactProblem.besideSample? (.ofSlabs .double [2] [[0, 1], [2, 0]])
      [7, 8]).toOption.any fun p' =>
        (decide (p'.timeStep = p.timeStep ∧ p'.format = p.format ∧
            p'.cliqueCount = p.cliqueCount) &&
          (p.constraints.flatMap Constraint.cliques).all (fun c =>
            p'.dynamics[c]? = p.dynamics[c]? ∧
              p'.vStar.block p'.sizes c = p.vStar.block p.sizes c)) &&
        (p.sizes == [1, 1, 2] && p'.sizes == [1, 2, 2] &&
          (p'.dynamics[1]?).any (fun A => !A.nearlySymmetric) && (build? p).isOk))
    (by decide +kernel)
  obtain ⟨p', hp', h⟩ := Outcome.exists_of_check h
  simp only [Bool.and_eq_true, beq_iff_eq, decide_eq_true_eq, Option.any_eq_true,
    Bool.not_eq_true'] at h
  obtain ⟨⟨hcommon, hcliques⟩, ⟨⟨hsizes, hsizes'⟩, A, hA, hasymmetric⟩, hok⟩ := h
  have hagrees := ContactProblem.agreesWhereCoupled_besideSample hp hp' hcommon hcliques
  have hcases := bystanders_do_not_interfere (ContactProblem.besideSample_eq_ok hp).1
    (ContactProblem.besideSample_eq_ok hp').1 hagrees
  rcases hcases with ⟨e, he, -⟩ | ⟨m, m', hm, hm', -, hstate, hrun⟩
  · rw [he] at hok
    cases hok
  · refine ⟨p, p', m, m', hp, hp', hagrees, hsizes, hsizes', .asymmetric hA hasymmetric, hm, hm',
      ?_⟩
    rw [hstate]
    exact hrun _ _ (by simp [Session.sampleCommands])

end Model

end ConvexContact
