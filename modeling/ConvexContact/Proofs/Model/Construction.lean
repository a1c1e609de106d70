import ConvexContact.Proofs.Model.Assembly

/-!
# When a model can be built

Building a model checks the dynamics matrices of the cliques that take part, in the order of their
numbers, and then asks the laws of the constraints, in the order of the clusters. What can go wrong
there is said of the problem alone:

* the matrix of a clique is refused (`ContactProblem.Refuses`): it is not symmetric within the
  tolerance, or one of its pivots is not positive;
* the law of a constraint fails (`ContactProblem.LawFails`): its regularization does, or else its
  bias.

Every other step of the construction succeeds for every problem that can be met. The graph takes the
constraints in, the numberings stay in their domains, products find fitting operands, and each
Jacobian block finds its place free and of its size.

Proof shape: the two loops that can fail are rewritten to loops over the problem, `factorAt` over
the cliques (`Arranged.factorAll_eq`) and `laws` over the constraints (`Arranged.mapM_lawOf`). In
`Arranged.build_eq_error` every other step is shown to succeed and drops out of the chain. What is
left is the general fact that a loop fails with the error of the first element that does
(`Outcome.mapM_eq_error`).

Main statement: `Model.build_eq_error_iff`. A model is refused exactly for the first refused matrix,
or without one for the first failing law.
-/

namespace ConvexContact

variable {K : Type} [Arith K]

namespace ContactProblem

/-! ## Defects of a problem

Each cause is a relation between a clique or a constraint and the error that is reported for it. The
construction does not occur in it, so a caller can tell from the problem what will go wrong. -/

/-- The dynamics matrix of clique `c` is refused for a cause. -/
inductive Refuses (p : ContactProblem K) (c : Nat) : Error K → Prop where
  | asymmetric {A : Mat K} (hA : p.dynamics[c]? = some A) (h : A.nearlySymmetric = false) :
      Refuses p c (.asymmetric c)
  | indefinite {A : Mat K} (hA : p.dynamics[c]? = some A) (hsymmetric : A.nearlySymmetric = true)
      (h : CholeskyFactor.ofMat? A = none) : Refuses p c (.indefinite c)

/-- The summand `J·A⁻¹·Jᵀ` that a block of a constraint adds to its Delassus operator, as it is
computed from the matrix of the clique; without a factor it is zero. -/
def compliance (p : ContactProblem K) (b : CliqueBlock K) : Mat K :=
  match (p.dynamics[b.clique]?).bind CholeskyFactor.ofMat? with
  | some L => b.jacobian.product (L.solveColumns b.jacobian.transpose)
  | none => Mat.zeros p.format b.jacobian.rows b.jacobian.rows

/-- The estimate `‖Σ J·A⁻¹·Jᵀ‖ / n` of a constraint as it is computed, with every result stored in
the format of the problem. -/
def computedEstimate (p : ContactProblem K) (c : Constraint K) : Scalar K :=
  let n := c.equations
  let length := (c.blocks.foldl (fun W b => W.add (p.compliance b)) (Mat.zeros p.format n n)).norm
  ⟨length.format, Arith.divIn length.format length.value (Arith.cast length.format (n : K))⟩

/-- The estimates of constraints, in their order. -/
def computedEstimates (p : ContactProblem K) (cs : List (Constraint K)) : Vec K :=
  ⟨p.format, cs.map fun c => (p.computedEstimate c).value⟩

/-- The regularization of a constraint, and then its bias, for its own estimate. -/
def laws (p : ContactProblem K) (c : Constraint K) : Except (Error K) (Vec K × Vec K) := do
  let w := Tensor.scalar p.format (p.computedEstimate c).value
  let R ← c.regularization p.timeStep w
  let vHat ← c.bias p.timeStep w
  return (R, vHat)

/-- The law of a constraint fails with an error: the regularization does, or the bias after it. -/
inductive LawFails (p : ContactProblem K) (c : Constraint K) (e : Error K) : Prop where
  | regularization
      (h : c.regularization p.timeStep (Tensor.scalar p.format (p.computedEstimate c).value) =
        .error e)
  | bias {R : Vec K}
      (hR : c.regularization p.timeStep (Tensor.scalar p.format (p.computedEstimate c).value) =
        .ok R)
      (h : c.bias p.timeStep (Tensor.scalar p.format (p.computedEstimate c).value) = .error e)

variable {p : ContactProblem K} {c : Nat} {e : Error K}

/-- A refused matrix is an unusable value. -/
theorem Refuses.kind_eq (h : p.Refuses c e) : e.kind = .value := by
  cases h with
  | asymmetric => rfl
  | indefinite => rfl

/-- Asking for both sides fails just where the law does. -/
theorem laws_eq_error {con : Constraint K} : p.laws con = .error e ↔ p.LawFails con e := by
  rw [laws, Outcome.bind_eq_error]
  constructor
  · rintro (h | ⟨R, hR, h⟩)
    · exact .regularization h
    · rcases Outcome.bind_eq_error.mp h with h | ⟨vHat, -, h⟩
      · exact .bias hR h
      · cases h
  · rintro (h | ⟨hR, h⟩)
    · exact Or.inl h
    · exact Or.inr ⟨_, hR, Outcome.bind_eq_error.mpr (Or.inl h)⟩

/-! ## Estimates -/

/-- There is an estimate for each constraint, -/
@[simp] theorem size_computedEstimates (p : ContactProblem K) (cs : List (Constraint K)) :
    (p.computedEstimates cs).size = cs.length :=
  List.length_map _

/-- at the place of the constraint. -/
theorem get_computedEstimates (p : ContactProblem K) {cs : List (Constraint K)} {k : Nat}
    {con : Constraint K} (hk : cs[k]? = some con) :
    (p.computedEstimates cs).get k = (p.computedEstimate con).value := by
  simp [computedEstimates, Vec.get, List.getD_eq_getElem?_getD, hk]

/-! ## Factors -/

/-- The factor of the dynamics matrix of a clique. -/
def factorAt (p : ContactProblem K) (c : Nat) : Except (Error K) (CholeskyFactor K) :=
  match p.dynamics[c]? with
  | some A => Model.factor c A
  | none => .error .outOfPosition

/-- A factor that was accepted is the factor of the matrix. -/
theorem factorAt_eq_ok {L : CholeskyFactor K} (h : p.factorAt c = .ok L) :
    (p.dynamics[c]?).bind CholeskyFactor.ofMat? = some L := by
  rw [factorAt] at h
  cases hA : p.dynamics[c]? with
  | none =>
    rw [hA] at h
    cases h
  | some A =>
    simp only [hA, Model.factor] at h
    rw [Option.bind_some]
    split at h
    · cases h
    · split at h
      · cases h
      · split at h
        · rename_i hofMat
          rw [hofMat, Except.ok.inj h]
        · cases h

/-- The matrix of a clique has no factor when it is refused. -/
theorem factorAt_eq_error (hp : p.WellFormed) (hf : p.format.isFloating = true)
    (hc : c < p.dynamics.length) : p.factorAt c = .error e ↔ p.Refuses c e := by
  have hA : p.dynamics[c]? = some p.dynamics[c] := List.getElem?_eq_getElem hc
  have hfloating : p.dynamics[c].format.isFloating = true := by
    rw [hp.dynamics_format _ (List.getElem_mem hc)]
    exact hf
  generalize p.dynamics[c] = A at hA hfloating
  -- spelled out with the one matrix that the clique has
  have hrefuses : p.Refuses c e ↔ (A.nearlySymmetric = false ∧ e = .asymmetric c) ∨
      A.nearlySymmetric = true ∧ CholeskyFactor.ofMat? A = none ∧ e = .indefinite c := by
    constructor
    · rintro (⟨hB, h⟩ | ⟨hB, hsymmetric, h⟩)
      · obtain rfl := Option.some.inj (hA.symm.trans hB)
        exact Or.inl ⟨h, rfl⟩
      · obtain rfl := Option.some.inj (hA.symm.trans hB)
        exact Or.inr ⟨hsymmetric, h, rfl⟩
    · rintro (⟨h, rfl⟩ | ⟨hsymmetric, h, rfl⟩)
      · exact .asymmetric hA h
      · exact .indefinite hA hsymmetric h
  rw [hrefuses, factorAt, hA]
  simp only [Model.factor, hfloating]
  cases A.nearlySymmetric <;> cases CholeskyFactor.ofMat? A <;> simp [eq_comm]

namespace Arranged

variable {g : ClusterGraph} {q : PartialPermutation} {Ls : List (CholeskyFactor K)}

/-- The matrices are factored clique by clique. -/
theorem factorAll_eq (h : p.Arranged g q) :
    Model.factorAll q (pick p.dynamics q.inverse) = q.inverse.mapM p.factorAt := by
  apply Outcome.mapM_congr
  apply forall₂_zipIdx (length_pick h.lt_of_mem_cliques)
  intro k A c hA hc
  rw [getElem?_pick h.lt_of_mem_cliques hc] at hA
  dsimp only
  rw [Outcome.bind_of_ok _ (PartialPermutation.domainIndex_eq_ok.mpr hc), factorAt, hA]

/-! ## Estimates of a model

The laws are asked for estimates that the construction computes from the numbers of the cliques.
They are those that the defects speak of, from the matrices of the problem, so both ask the same. -/

/-- A summand of a Delassus operator is computed with the matrix of its clique. -/
theorem compliance_eq (hp : p.WellFormed) (hf : p.format.isFloating = true) (h : p.Arranged g q)
    (hLs : q.inverse.mapM p.factorAt = .ok Ls) {con : Constraint K} (hcon : con ∈ p.constraints)
    {b : CliqueBlock K} (hb : b ∈ con.blocks) :
    Model.compliance q Ls b = .ok (p.compliance b) := by
  obtain ⟨k, hk, hkb⟩ := h.number?_of_mem hcon hb
  obtain ⟨L, hL, hfactor⟩ := Outcome.getElem?_of_mapM hLs hkb
  have hformat : b.jacobian.format ≠ .boolean := by
    rw [(hp.constraint con hcon).format b hb, hp.constraint_format con hcon]
    exact Model.ne_boolean_of_floating hf
  rw [Model.compliance, Outcome.bind_of_ok _ (PartialPermutation.permutedIndex_eq_ok.mpr hk),
    compliance, factorAt_eq_ok hfactor]
  simp only [hL]
  exact Mat.product?_of_fits rfl rfl hformat

/-- The estimate of a constraint is computed with the matrices of its cliques. -/
theorem computedEstimate_eq (hp : p.WellFormed) (hf : p.format.isFloating = true)
    (h : p.Arranged g q) (hLs : q.inverse.mapM p.factorAt = .ok Ls) {con : Constraint K}
    (hcon : con ∈ p.constraints) :
    Model.estimate p.format q Ls con = .ok (p.computedEstimate con) := by
  have hsum : con.blocks.foldlM (fun W b => do return W.add (← Model.compliance q Ls b))
      (Mat.zeros p.format con.equations con.equations) =
        (.ok (con.blocks.foldl (fun W b => W.add (p.compliance b))
          (Mat.zeros p.format con.equations con.equations)) : Except (Error K) _) := by
    apply Outcome.foldlM_of_forall
    intro b hb W
    rw [h.compliance_eq hp hf hLs hcon hb]
    rfl
  rw [Model.estimate, Outcome.bind_of_ok _ hsum]
  rfl

/-- The estimates are those of the constraints, in the order of the clusters. -/
theorem estimateAll_eq (hp : p.WellFormed) (hf : p.format.isFloating = true)
    (h : p.Arranged g q) (hLs : q.inverse.mapM p.factorAt = .ok Ls) :
    Model.estimateAll p g q Ls = .ok (p.computedEstimates (pick p.constraints g.places)) := by
  have hestimates : (pick p.constraints g.places).mapM (Model.estimate p.format q Ls) =
      .ok ((pick p.constraints g.places).map p.computedEstimate) :=
    Outcome.mapM_of_forall fun con hcon => h.computedEstimate_eq hp hf hLs
      ((pick_perm h.places_perm).mem_iff.mp hcon)
  rw [Model.estimateAll, Outcome.bind_of_ok _ h.mapM_constraintAt,
    Outcome.bind_of_ok _ hestimates, List.map_map]
  rfl

/-! ## Stacks -/

/-- The laws are asked for the estimates of their constraints. -/
theorem mapM_lawOf (p : ContactProblem K) (cs : List (Constraint K)) :
    cs.zipIdx.mapM (fun (con, i) =>
      Stack.lawOf p.timeStep (p.computedEstimates cs).toTensor i con) = cs.mapM p.laws := by
  apply Outcome.mapM_congr
  apply forall₂_zipIdx rfl
  intro k con con' hk hk'
  obtain rfl := Option.some.inj (hk.symm.trans hk')
  have hlt := (List.getElem?_eq_some_iff.mp hk).1
  have hestimate := Stack.estimateAt_toTensor (w := p.computedEstimates cs) (i := k) (by simpa)
  rw [p.get_computedEstimates hk] at hestimate
  exact Outcome.bind_of_ok _ hestimate

/-- A stack is refused when a law fails. -/
theorem buildStack_eq_error (hp : p.WellFormed) (h : p.Arranged g q) :
    Stack.build? p (p.computedEstimates (pick p.constraints g.places)).toTensor = .error e ↔
      (pick p.constraints g.places).mapM p.laws = .error e := by
  -- there are as many estimates as constraints, so the stack does not complain of them
  have hcount : Stack.estimateCount
      (p.computedEstimates (pick p.constraints g.places)).toTensor =
        (.ok g.order.length : Except (Error K) Nat) := by
    have hlength : g.places.length = g.order.length := List.length_map _
    simp [Stack.estimateCount, Vec.toTensor, Vec.shape, length_pick h.lt_of_mem_places, hlength]
  obtain ⟨J, hJ⟩ := h.exists_assemble hp
  rw [Stack.build?, Outcome.bind_of_ok _ h.graph, Outcome.bind_of_ok _ h.cliques]
  dsimp only
  rw [Outcome.bind_of_ok _ hcount, if_neg (not_not.mpr rfl),
    Outcome.bind_of_ok _ h.mapM_constraintAt, Outcome.bind_of_ok _ h.mapM_sizeAt,
    Outcome.bind_of_ok _ hJ, mapM_lawOf, Outcome.bind_eq_error]
  refine or_iff_left ?_
  rintro ⟨laws, -, h⟩
  cases h

/-! ## Models -/

/-- A model is refused when a matrix is, or when all matrices have factors and a law fails. -/
theorem build_eq_error (hp : p.WellFormed) (hf : p.format.isFloating = true)
    (h : p.Arranged g q) : Model.build? p = .error e ↔
      q.inverse.mapM p.factorAt = .error e ∨
        (∃ Ls, q.inverse.mapM p.factorAt = .ok Ls) ∧
          (pick p.constraints g.places).mapM p.laws = .error e := by
  obtain ⟨velocities, hvelocities⟩ : ∃ r, Model.numberVelocities p q = .ok r :=
    PartialPermutation.exists_pushAll_blocks _ _
  obtain ⟨impulses, himpulses⟩ : ∃ r, Model.numberImpulses p g = .ok r := by
    rw [Model.numberImpulses_eq]
    exact PartialPermutation.exists_pushAll_blocks _ _
  have hnumbers := h.velocities_spec hvelocities
  have hdynamics := (PartialPermutation.gather_eq_ok (K := K)).mpr
    ⟨h.cliques_spec.2.1.symm, Eq.refl (pick p.dynamics q.inverse)⟩
  have hvStar := (PartialPermutation.gather_eq_ok (K := K)).mpr
    ⟨hp.size_vStar.trans hnumbers.domainSize.symm,
      Eq.refl (pick p.vStar.entries velocities.inverse)⟩
  -- the velocities that are gathered fit the matrices that are
  have hlength : (pick p.vStar.entries velocities.inverse).length =
      total ((pick p.dynamics q.inverse).map (·.rows)) := by
    rw [length_pick, hnumbers.length_inverse, h.map_rows_pick]
    intro i hi
    have hlt := hnumbers.valid.lt_of_mem hi
    rw [hnumbers.domainSize] at hlt
    exact hlt.trans_eq hp.size_vStar.symm
  have hmem : ∀ A ∈ pick p.dynamics q.inverse, A ∈ p.dynamics := by
    intro A hA
    obtain ⟨c, -, hc⟩ := List.mem_filterMap.mp hA
    exact List.mem_of_getElem? hc
  obtain ⟨pStar, hpStar, -⟩ := Model.multiplyBlocks_of_fits (Reading.trivial K)
    (v := ⟨p.format, pick p.vStar.entries velocities.inverse⟩)
    (fun A hA => hp.square A (hmem A hA)) (fun A hA => hp.dynamics_format A (hmem A hA))
    (Model.ne_boolean_of_floating hf) hlength
  -- every step but the factors and the laws succeeds, and drops out
  rw [Model.build?, Outcome.bind_of_ok _ h.graph, Outcome.bind_of_ok _ h.cliques,
    Outcome.bind_of_ok _ hdynamics, Outcome.bind_of_ok _ hvelocities,
    Outcome.bind_of_ok _ himpulses, Outcome.bind_of_ok _ hvStar, Outcome.bind_of_ok _ hpStar,
    h.factorAll_eq, Outcome.bind_eq_error, ← exists_and_right]
  refine or_congr_right (exists_congr fun Ls => and_congr_right fun hLs => ?_)
  rw [Outcome.bind_of_ok _ (h.estimateAll_eq hp hf hLs), Outcome.bind_eq_error,
    h.buildStack_eq_error hp]
  refine or_iff_left ?_
  rintro ⟨stack, -, h⟩
  cases h

/-- The first refused matrix is the first without a factor. -/
theorem firstFails_refuses (hp : p.WellFormed) (hf : p.format.isFloating = true)
    (h : p.Arranged g q) : q.inverse.mapM p.factorAt = .error e ↔
      Outcome.FirstFails p.Refuses q.inverse e := by
  rw [Outcome.mapM_eq_error]
  exact Outcome.firstFails_congr fun c hc _ => factorAt_eq_error hp hf (h.lt_of_mem_cliques c hc)

/-- The first failing law is the first that is asked in vain. -/
theorem firstFails_laws (p : ContactProblem K) (cs : List (Constraint K)) :
    cs.mapM p.laws = .error e ↔ Outcome.FirstFails p.LawFails cs e := by
  rw [Outcome.mapM_eq_error]
  exact Outcome.firstFails_congr fun _ _ _ => laws_eq_error

end Arranged

end ContactProblem

/-- **Construction.** A problem in a format of fractions that can be met becomes a model, unless the
dynamics matrix of a clique that takes part is refused, or a law fails. With `q` numbering the
cliques that take part and `cs` listing the constraints in the order of the clusters:

* the error is that of the first refused matrix in the order of `q`, which is an unusable value and
  names the clique by its index in the problem;
* where no matrix is refused, it is that of the first failing law in the order of `cs`. -/
theorem Model.build_eq_error_iff {p : ContactProblem K} (hp : p.Constructed)
    (hf : p.format.isFloating = true) :
    ∃ g q cs, p.graph = .ok g ∧ g.numbering = (.ok q : Except (Error K) _) ∧
      g.order.mapM p.constraintAt = .ok cs ∧
      (∀ c, c ∈ q.inverse ↔ ∃ con ∈ p.constraints, c ∈ con.cliques) ∧
      (∀ e, build? p = .error e ↔
        (e.kind = .value ∧ Outcome.FirstFails p.Refuses q.inverse e) ∨
        (∀ c ∈ q.inverse, ∀ e', ¬ p.Refuses c e') ∧ Outcome.FirstFails p.LawFails cs e) ∧
      ((∃ m, build? p = .ok m) ↔
        (∀ c ∈ q.inverse, ∀ e, ¬ p.Refuses c e) ∧ ∀ con ∈ cs, ∀ e, ¬ p.LawFails con e) := by
  have hwf := hp.wellFormed
  obtain ⟨g, q, h⟩ := hwf.exists_arranged
  have hpass : (∃ Ls, q.inverse.mapM p.factorAt = .ok Ls) ↔
      ∀ c ∈ q.inverse, ∀ e, ¬ p.Refuses c e := by
    rw [Outcome.exists_ok_iff, ← Outcome.forall_not_firstFails]
    exact forall_congr' fun e => not_congr (h.firstFails_refuses hwf hf)
  have hkind : ∀ e, Outcome.FirstFails p.Refuses q.inverse e → e.kind = .value := by
    rintro e ⟨-, c, -, -, -, hc⟩
    exact hc.kind_eq
  have herror : ∀ e, build? p = .error e ↔
      (e.kind = .value ∧ Outcome.FirstFails p.Refuses q.inverse e) ∨
      (∀ c ∈ q.inverse, ∀ e', ¬ p.Refuses c e') ∧
        Outcome.FirstFails p.LawFails (pick p.constraints g.places) e := by
    intro e
    rw [h.build_eq_error hwf hf, h.firstFails_refuses hwf hf, hpass,
      ContactProblem.Arranged.firstFails_laws, and_iff_right_of_imp (hkind e)]
  refine ⟨g, q, pick p.constraints g.places, h.graph, h.cliques, h.mapM_constraintAt,
    fun c => h.mem_cliques, herror, ?_⟩
  rw [Outcome.exists_ok_iff]
  simp only [ne_eq, herror]
  constructor
  · intro hnone
    have hmatrices : ∀ c ∈ q.inverse, ∀ e, ¬ p.Refuses c e := Outcome.forall_not_firstFails.mp
      fun e he => hnone e (Or.inl ⟨hkind e he, he⟩)
    exact ⟨hmatrices, Outcome.forall_not_firstFails.mp
      fun e he => hnone e (Or.inr ⟨hmatrices, he⟩)⟩
  · rintro ⟨hmatrices, hlaws⟩ e (⟨-, he⟩ | ⟨-, he⟩)
    · exact Outcome.forall_not_firstFails.mpr hmatrices e he
    · exact Outcome.forall_not_firstFails.mpr hlaws e he

/-! ## A problem with several defects -/

namespace ContactProblem

/-- Three cliques with refused matrices: that of the first one is not symmetric, those of the others
are negative. A constraint couples the third clique, a later one whose regularization is negative
the first; nothing couples the second. -/
def defectiveSample? : Except (Error ℚ) (ContactProblem ℚ) :=
  let law (regularization : ℚ) : Law ℚ :=
    { bias := (Term.fixed (.tensor (Vec.mk .double [0]).toTensor)).side
      regularization := (Term.fixed (.tensor (Vec.mk .double [regularization]).toTensor)).side }
  let push := Constraint.build? (law 1) .nonneg (.tensor (Vec.mk .double [0]).toTensor) 2
    (.tensor (.ofSlabs .double [1] [[1]])) none none
  let free := Constraint.build? (law (-1)) .zero (.tensor (Vec.mk .double [0]).toTensor) 0
    (.tensor (.ofSlabs .double [2] [[1, 0]])) none none
  assemble? ⟨.double, 1 / 100⟩
    [.tensor (.ofSlabs .double [2] [[1, 1], [0, 1]]), .tensor (.ofSlabs .double [1] [[-1]]),
      .tensor (.ofSlabs .double [1] [[-4]])]
    (.tensor (Vec.mk .double [0, 0, 0, 0]).toTensor)
    [push, free]

theorem constructed_defectiveSample {p : ContactProblem ℚ} (h : defectiveSample? = .ok p) :
    p.Constructed :=
  constructed_of_assemble (by simp) h

end ContactProblem

/-- The clique that is coupled first is reported, under its index in the problem. -/
theorem Model.build_eq_error_iff_sample :
    ∃ p : ContactProblem ℚ, ContactProblem.defectiveSample? = .ok p ∧
      p.Refuses 0 (.asymmetric 0) ∧ p.Refuses 1 (.indefinite 1) ∧
        build? p = .error (.indefinite 2) := by
  let indefinite (A : Mat ℚ) : Bool := A.nearlySymmetric && (CholeskyFactor.ofMat? A).isNone
  obtain ⟨p, hp, h⟩ := Outcome.exists_of_check (x := ContactProblem.defectiveSample?)
    (P := fun p => p.format.isFloating &&
      (p.dynamics[0]?).any (fun A => !A.nearlySymmetric) && (p.dynamics[1]?).any indefinite &&
      (p.dynamics[2]?).any indefinite &&
      p.graph.toOption.any fun g => (g.numbering (K := ℚ)).toOption.any fun q =>
        q.inverse == [2, 0])
    (by decide +kernel)
  simp only [Bool.and_eq_true, Option.any_eq_true, Bool.not_eq_true', Option.isNone_iff_eq_none,
    beq_iff_eq, indefinite] at h
  obtain ⟨⟨⟨⟨hf, A, hA, hasymmetric⟩, B, hB, hBsymmetric, hBpivots⟩, C, hC, hCsymmetric,
    hCpivots⟩, g, hg, q, hq, hinverse⟩ := h
  obtain ⟨g', q', cs, hg', hq', -, -, herror, -⟩ :=
    build_eq_error_iff (ContactProblem.constructed_defectiveSample hp) hf
  rw [hg'] at hg
  obtain rfl := Option.some.inj hg
  rw [hq'] at hq
  obtain rfl := Option.some.inj hq
  refine ⟨p, hp, .asymmetric hA hasymmetric, .indefinite hB hBsymmetric hBpivots,
    (herror _).mpr (Or.inl ⟨rfl, [], 2, [0], hinverse, by simp, ?_⟩)⟩
  exact .indefinite hC hCsymmetric hCpivots

end ConvexContact
