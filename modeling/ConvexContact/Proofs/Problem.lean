import ConvexContact.Proofs.Arithmetic.Exact
import ConvexContact.Proofs.Outcome
import ConvexContact.Constraint.Spring
import ConvexContact.Problem

/-!
# Constructed problems

Constraints and problems are records, so not every value of their types can be met in a run.
`Constraint.Constructed` and `ContactProblem.Constructed` say how the ones that can be met come
about. What the checks of the constructions establish is collected in two invariants,
`Constraint.WellFormed` and `ContactProblem.WellFormed`: the Jacobians have the height of the
constraint and the widths of its cliques, a constraint names no clique twice, and everything a
problem stores is in its format.

Proof shape: each reader of a given value has an inversion that says what it has checked
(`format_of_readJacobian`, `readSecond_eq_some`, `builtFrom`). The invariants hold of what is built,
by these, and are kept by what is added; all other modules use the invariants and never look into a
construction.
-/

namespace ConvexContact

variable {K : Type} [Arith K]

/-! ## Formats -/

/-- What is stored in a format has it. -/
theorem Given.format_of_stored {f : Format} {g : Given K} {t : Tensor K}
    (h : g.stored f = .ok t) : t.format = f := by
  unfold stored at h
  split at h
  · rw [← Except.ok.inj h]
    cases g with
    | tensor t => rfl
    | nested t =>
      simp only [toFormat]
      split <;> rfl
  · cases h

/-! ## Constraints

A constraint may be built with one block or with two, and converted when it is added. What a check
has established about a block survives the conversion, since sizes and names are not touched. -/

namespace Constraint

/-- The constraints that a caller can get hold of: built, or taken from a problem that has stored
them in its format. -/
inductive Constructed : Constraint K → Prop where
  | build {law : Law K} {projection : Projection K} {g J₁ : Given K} {first : Int}
      {second : Option Int} {J₂ : Option (Given K)} {c : Constraint K}
      (h : build? law projection g first J₁ second J₂ = .ok c) : Constructed c
  | cast {c : Constraint K} (f : Format) (h : Constructed c) : Constructed (c.cast f)

/-- What the checks of a construction establish. -/
structure WellFormed (c : Constraint K) : Prop where
  equations_pos : 0 < c.equations
  rows : ∀ b ∈ c.blocks, b.jacobian.rows = c.equations
  format : ∀ b ∈ c.blocks, b.jacobian.format = c.g.format
  nodup : c.cliques.Nodup

omit [Arith K] in
/-- A Jacobian that is read has the height of the constraint and its format. -/
theorem format_of_readJacobian [Arith K] {f : Format} {height : Nat} {J : Given K} {A : Mat K}
    (h : readJacobian f height J = .ok A) : A.rows = height ∧ A.format = f := by
  obtain ⟨t, ht, h⟩ := Outcome.bind_eq_ok.mp h
  split at h
  · split at h
    · cases h
    · rename_i hrows
      rw [← Outcome.pure_eq_ok.mp h]
      exact ⟨not_not.mp hrows, Given.format_of_stored ht⟩
  · cases h

/-- A second block has passed the checks that it has to pass as the first one. -/
theorem readSecond_eq_some {v : Vec K} {k : Nat} {second : Option Int}
    {J₂ : Option (Given K)} {b : CliqueBlock K} (h : readSecond v k second J₂ = .ok (some b)) :
    ∃ l J, second = some l ∧ J₂ = some J ∧ readClique (K := K) l = .ok b.clique ∧ b.clique ≠ k ∧
      readJacobian v.format v.size J = .ok b.jacobian := by
  unfold readSecond at h
  split at h
  · cases h
  · obtain ⟨l, hl, h⟩ := Outcome.bind_eq_ok.mp h
    split at h
    · cases h
    · rename_i hne
      obtain ⟨B, hB, h⟩ := Outcome.bind_eq_ok.mp h
      obtain rfl := Option.some.inj (Outcome.pure_eq_ok.mp h)
      exact ⟨_, _, rfl, rfl, hl, hne, hB⟩
  · cases h

/-- Without a second block neither its clique nor its Jacobian has been named. -/
theorem readSecond_eq_none {v : Vec K} {k : Nat} {second : Option Int} {J₂ : Option (Given K)}
    (h : readSecond v k second J₂ = .ok none) : second = none ∧ J₂ = none := by
  unfold readSecond at h
  split at h
  · exact ⟨rfl, rfl⟩
  · obtain ⟨l, -, h⟩ := Outcome.bind_eq_ok.mp h
    split at h
    · cases h
    · obtain ⟨B, -, h⟩ := Outcome.bind_eq_ok.mp h
      cases Outcome.pure_eq_ok.mp h
  · cases h

/-- **Construction.** A constraint that is built is well-formed. -/
theorem wellFormed_of_build {law : Law K} {projection : Projection K} {g J₁ : Given K}
    {first : Int} {second : Option Int} {J₂ : Option (Given K)} {c : Constraint K}
    (h : build? law projection g first J₁ second J₂ = .ok c) : c.WellFormed := by
  obtain ⟨v, hv, h⟩ := Outcome.bind_eq_ok.mp h
  obtain ⟨first, -, h⟩ := Outcome.bind_eq_ok.mp h
  obtain ⟨A, hA, h⟩ := Outcome.bind_eq_ok.mp h
  obtain ⟨other, hother, h⟩ := Outcome.bind_eq_ok.mp h
  obtain rfl := Outcome.pure_eq_ok.mp h
  have hpos : 0 < v.size := by
    obtain ⟨v', -, hv⟩ := Outcome.bind_eq_ok.mp hv
    split at hv
    · cases hv
    · rename_i hne
      rw [← Outcome.pure_eq_ok.mp hv]
      exact Nat.pos_of_ne_zero hne
  obtain ⟨hrowsA, hformatA⟩ := format_of_readJacobian hA
  -- the second block, if there is one, was checked against the first
  have hsecond : ∀ b, other = some b →
      b.clique ≠ first ∧ b.jacobian.rows = v.size ∧ b.jacobian.format = v.format := by
    rintro b rfl
    obtain ⟨l, J, -, -, -, hne, hB⟩ := readSecond_eq_some hother
    exact ⟨hne, format_of_readJacobian hB⟩
  cases other with
  | none =>
    refine ⟨hpos, ?_, ?_, by simp [cliques, blocks]⟩
    · simpa [blocks, equations] using hrowsA
    · simpa [blocks] using hformatA
  | some b =>
    obtain ⟨hne, hrowsB, hformatB⟩ := hsecond b rfl
    refine ⟨hpos, ?_, ?_, by simpa [cliques, blocks] using fun h => hne h.symm⟩
    · simpa [blocks, equations] using ⟨hrowsA, hrowsB⟩
    · simpa [blocks] using ⟨hformatA, hformatB⟩

/-- Blocks are stored one by one, and there are as many as before. -/
theorem blocks_cast (f : Format) (c : Constraint K) :
    (c.cast f).blocks = c.blocks.map (castBlock f) := by
  cases h : c.second <;> simp [cast, blocks, h]

/-- Storing changes formats, but no sizes and no names. -/
theorem WellFormed.cast {c : Constraint K} (h : c.WellFormed) (f : Format) :
    (c.cast f).WellFormed where
  equations_pos := by
    rw [equations_cast]
    exact h.equations_pos
  rows b hb := by
    rw [blocks_cast] at hb
    obtain ⟨b', hb', rfl⟩ := List.mem_map.mp hb
    rw [equations_cast]
    exact h.rows b' hb'
  format b hb := by
    rw [blocks_cast] at hb
    obtain ⟨b', hb', rfl⟩ := List.mem_map.mp hb
    rfl
  nodup := by
    rw [cliques_cast]
    exact h.nodup

/-- Constraints that can be met are well-formed. -/
theorem Constructed.wellFormed {c : Constraint K} (h : c.Constructed) : c.WellFormed := by
  induction h with
  | build h => exact wellFormed_of_build h
  | cast f _ ih => exact ih.cast f

omit [Arith K] in
/-- A vector that is read has the format of the tensor. -/
theorem format_of_readVector {role : VectorRole} {t : Tensor K} {v : Vec K}
    (h : readVector role t = .ok v) : v.format = t.format := by
  rw [readVector] at h
  cases hv : Vec.ofTensor? t with
  | none =>
    rw [hv] at h
    cases h
  | some u =>
    rw [hv] at h
    obtain rfl := Except.ok.inj h
    unfold Vec.ofTensor? at hv
    split at hv
    · rw [← Option.some.inj hv]
    · cases hv

/-- What passes the check of a side of a law has one entry for each equation, in the format of the
constraint. -/
theorem of_checkSide {c : Constraint K} {role : VectorRole} {answer : Given K} {v : Vec K}
    (h : c.checkSide role answer = .ok v) : v.size = c.equations ∧ v.format = c.g.format := by
  obtain ⟨t, ht, h⟩ := Outcome.bind_eq_ok.mp h
  obtain ⟨w, hw, h⟩ := Outcome.bind_eq_ok.mp h
  split at h
  · cases h
  · rename_i hsize
    obtain rfl := Outcome.pure_eq_ok.mp h
    refine ⟨not_not.mp hsize, ?_⟩
    rw [format_of_readVector hw]
    exact Given.format_of_stored ht

/-- The regularization has one entry for each equation, in the format of the constraint, and each of
them is positive. -/
theorem of_regularization {c : Constraint K} {step : K} {w : Tensor K} {R : Vec K}
    (h : c.regularization step w = .ok R) :
    (R.size = c.equations ∧ R.format = c.g.format) ∧ ∀ x ∈ R.entries, Arith.lt 0 x = true := by
  obtain ⟨answer, -, h⟩ := Outcome.bind_eq_ok.mp h
  obtain ⟨R', hside, hsign⟩ := Outcome.bind_eq_ok.mp h
  split at hsign
  · rename_i hpos
    obtain rfl := Outcome.pure_eq_ok.mp hsign
    exact ⟨of_checkSide hside, List.all_eq_true.mp hpos⟩
  · cases hsign

/-- Springs are constraints among others. -/
theorem constructed_of_spring {clique : Int} {x : Given K} {k τ : Scalar K} {c : Constraint K}
    (h : Spring.build? clique x k τ = .ok c) : c.Constructed := by
  obtain ⟨-, -, h⟩ := Outcome.bind_eq_ok.mp h
  split at h
  · cases h
  obtain ⟨t, ht, h⟩ := Outcome.bind_eq_ok.mp h
  obtain ⟨c', hc', h⟩ := Outcome.bind_eq_ok.mp h
  obtain ⟨stiffness, -, h⟩ := Outcome.bind_eq_ok.mp h
  obtain ⟨relaxation, -, h⟩ := Outcome.bind_eq_ok.mp h
  obtain rfl := Outcome.pure_eq_ok.mp h
  obtain ⟨v, hv, hc'⟩ := Outcome.bind_eq_ok.mp hc'
  obtain ⟨first, hfirst, hc'⟩ := Outcome.bind_eq_ok.mp hc'
  obtain ⟨A, hA, hc'⟩ := Outcome.bind_eq_ok.mp hc'
  obtain ⟨other, hother, hc'⟩ := Outcome.bind_eq_ok.mp hc'
  obtain rfl := Outcome.pure_eq_ok.mp hc'
  -- the law takes no part in the checks
  have hbuild : build? (Spring.law stiffness relaxation) (.identityOn 3) x clique
      (.tensor (Mat.identity t.format 3).toTensor) none none =
      .ok ⟨v, ⟨first, A⟩, other, Spring.law stiffness relaxation, .identityOn 3⟩ := by
    rw [build?, hv, Outcome.bind_of_ok _ rfl, hfirst, Outcome.bind_of_ok _ rfl, hA,
      Outcome.bind_of_ok _ rfl, hother]
    rfl
  exact Constructed.build hbuild

end Constraint

/-! ## Problems

By the two ways to come by a problem: it has just been built and holds no constraints, or a
constraint has been added to one. -/

namespace ContactProblem

/-- The problems that a caller can get hold of: built without constraints, or with constraints added
one after the other. -/
inductive Constructed : ContactProblem K → Prop where
  | build {timeStep : Scalar K} {dynamics : List (Given K)} {vStar : Given K}
      {p : ContactProblem K} (h : build? timeStep dynamics vStar = .ok p) : Constructed p
  | add {p q : ContactProblem K} {c : Constraint K} {i : Nat} (hp : Constructed p)
      (hc : c.Constructed) (h : p.add c = .ok (q, i)) : Constructed q

/-- What the checks of a construction establish. -/
structure WellFormed (p : ContactProblem K) : Prop where
  square : ∀ A ∈ p.dynamics, A.cols = A.rows
  dynamics_format : ∀ A ∈ p.dynamics, A.format = p.format
  size_vStar : p.vStar.size = p.velocityCount
  constraint : ∀ c ∈ p.constraints, c.WellFormed
  constraint_format : ∀ c ∈ p.constraints, c.g.format = p.format
  width : ∀ c ∈ p.constraints, ∀ b ∈ c.blocks, p.sizes[b.clique]? = some b.jacobian.cols

omit [Arith K] in
/-- A clique of a constraint has as many velocities as its Jacobian has columns. -/
theorem WellFormed.getD_sizes {p : ContactProblem K} (hp : p.WellFormed) {c : Constraint K}
    (hc : c ∈ p.constraints) {b : CliqueBlock K} (hb : b ∈ c.blocks) :
    p.sizes.getD b.clique 0 = b.jacobian.cols := by
  rw [List.getD_eq_getElem?_getD, hp.width c hc b hb, Option.getD_some]

/-- What a problem that was just built has been made from: the checks have been passed, and there
are no constraints yet. -/
structure BuiltFrom (timeStep : Scalar K) (dynamics : List (Given K)) (vStar : Given K)
    (p : ContactProblem K) : Prop where
  timeStep_pos : Arith.lt 0 timeStep.value = true
  timeStep : timeStep.toDouble = .ok p.timeStep
  vStar : readFreeVelocities vStar = .ok p.vStar
  dynamics : (dynamics.zipIdx.mapM fun (A, c) => readDynamics p.format c A) = .ok p.dynamics
  size : p.velocityCount = p.vStar.size
  constraints : p.constraints = []
  equationCount : p.equationCount = 0

/-- A problem is built when all checks have been passed. -/
theorem builtFrom {timeStep : Scalar K} {dynamics : List (Given K)} {vStar : Given K}
    {p : ContactProblem K} (h : build? timeStep dynamics vStar = .ok p) :
    BuiltFrom timeStep dynamics vStar p := by
  unfold build? at h
  split at h
  · cases h
  rename_i hpos
  obtain ⟨v, hv, h⟩ := Outcome.bind_eq_ok.mp h
  obtain ⟨step, hstep, h⟩ := Outcome.bind_eq_ok.mp h
  obtain ⟨matrices, hmatrices, h⟩ := Outcome.bind_eq_ok.mp h
  dsimp only at h
  split at h
  · cases h
  rename_i hsize
  obtain rfl := Outcome.pure_eq_ok.mp h
  exact ⟨by simpa using hpos, hstep, hv, hmatrices, not_not.mp hsize, rfl, rfl⟩

/-- **Construction.** A problem that was just built is well-formed. -/
theorem wellFormed_of_build {timeStep : Scalar K} {dynamics : List (Given K)} {vStar : Given K}
    {p : ContactProblem K} (h : build? timeStep dynamics vStar = .ok p) : p.WellFormed := by
  have hfrom := builtFrom h
  -- a matrix that is no square is refused when it is read
  have hread : ∀ A ∈ p.dynamics, A.cols = A.rows ∧ A.format = p.format := by
    intro A hA
    obtain ⟨⟨given, c⟩, -, hAc⟩ := Outcome.mem_of_mapM hfrom.dynamics hA
    obtain ⟨t, ht, hAc⟩ := Outcome.bind_eq_ok.mp hAc
    split at hAc
    · split at hAc
      · rename_i hsquare
        rw [← Outcome.pure_eq_ok.mp hAc]
        exact ⟨hsquare.symm, Given.format_of_stored ht⟩
      · cases hAc
    · cases hAc
  exact {
    square := fun A hA => (hread A hA).1
    dynamics_format := fun A hA => (hread A hA).2
    size_vStar := hfrom.size.symm
    constraint := by simp [hfrom.constraints]
    constraint_format := by simp [hfrom.constraints]
    width := by simp [hfrom.constraints] }

/-- **Step.** A constraint that is taken in is stored in the format of the problem. -/
theorem WellFormed.add {p q : ContactProblem K} (hp : p.WellFormed) {c : Constraint K}
    (hc : c.WellFormed) {i : Nat} (h : p.add c = .ok (q, i)) : q.WellFormed := by
  obtain ⟨⟨⟩, hchecks, h⟩ := Outcome.bind_eq_ok.mp h
  obtain ⟨rfl, -⟩ := Prod.mk.inj (Outcome.pure_eq_ok.mp h)
  have hmem : ∀ d ∈ (p.store c).constraints, d ∈ p.constraints ∨ d = c.cast p.format := by
    intro d hd
    simpa [store] using hd
  refine ⟨hp.square, hp.dynamics_format, hp.size_vStar, ?_, ?_, ?_⟩
  · intro d hd
    rcases hmem d hd with hd | rfl
    · exact hp.constraint d hd
    · exact hc.cast p.format
  · intro d hd
    rcases hmem d hd with hd | rfl
    · exact hp.constraint_format d hd
    · rfl
  · intro d hd b hb
    rcases hmem d hd with hd | rfl
    · exact hp.width d hd b hb
    -- the width of the new blocks is what has just been checked
    · rw [Constraint.blocks_cast] at hb
      obtain ⟨b', hb', rfl⟩ := List.mem_map.mp hb
      exact checkBlock_eq_ok_iff.mp (Outcome.forM_eq_ok.mp hchecks b' hb')

/-- Constraints that are added one after the other. -/
theorem Constructed.addAll {p q : ContactProblem K} (hp : p.Constructed) {cs : List (Constraint K)}
    (hcs : ∀ c ∈ cs, c.Constructed) (h : p.addAll cs = .ok q) : q.Constructed := by
  induction cs generalizing p with
  | nil =>
    obtain rfl := Outcome.pure_eq_ok.mp h
    exact hp
  | cons c cs ih =>
    rw [ContactProblem.addAll, List.foldlM_cons] at h
    obtain ⟨p', hp', h⟩ := Outcome.bind_eq_ok.mp h
    obtain ⟨⟨p'', i⟩, hadd, rfl⟩ := Outcome.map_eq_ok.mp hp'
    exact ih (hp.add (hcs c (by simp)) hadd) (fun d hd => hcs d (List.mem_cons_of_mem _ hd)) h

/-- **Run.** Problems that can be met are well-formed. -/
theorem Constructed.wellFormed {p : ContactProblem K} (h : p.Constructed) : p.WellFormed := by
  induction h with
  | build h => exact wellFormed_of_build h
  | add _ hc h ih => exact ih.add hc.wellFormed h

/-- The equations are counted as constraints are added. -/
theorem Constructed.equationCount_eq {p : ContactProblem K} (h : p.Constructed) :
    p.equationCount = total (p.constraints.map (·.equations)) := by
  induction h with
  | build h =>
    rw [(builtFrom h).constraints, (builtFrom h).equationCount]
    rfl
  | add _ _ h ih =>
    obtain ⟨⟨⟩, -, h⟩ := Outcome.bind_eq_ok.mp h
    obtain ⟨rfl, -⟩ := Prod.mk.inj (Outcome.pure_eq_ok.mp h)
    simp [store, ih]

/-! ## Small problems

Problems on which the statements of later modules are evaluated. `assemble?` builds a problem and
adds constraints, so one lemma shows of all of them that they can be met. -/

/-- What a caller gets who makes a constraint: if it is not refused, it is a constraint. -/
def Made (x : Except (Error K) (Constraint K)) : Prop := ∀ c, x = .ok c → c.Constructed

/-- A constraint that is built has been made, -/
@[simp] theorem made_build {law : Law K} {projection : Projection K} {g J₁ : Given K} {first : Int}
    {second : Option Int} {J₂ : Option (Given K)} :
    Made (Constraint.build? law projection g first J₁ second J₂) :=
  fun _ => Constraint.Constructed.build

/-- and so has a spring. -/
@[simp] theorem made_spring {clique : Int} {x : Given K} {k τ : Scalar K} :
    Made (Spring.build? clique x k τ) :=
  fun _ => Constraint.constructed_of_spring

/-- A problem with constraints that are made for it, each of which may be refused. -/
def assemble? (timeStep : Scalar K) (dynamics : List (Given K)) (vStar : Given K)
    (constraints : List (Except (Error K) (Constraint K))) :
    Except (Error K) (ContactProblem K) := do
  let p ← build? timeStep dynamics vStar
  p.addAll (← constraints.mapM id)

/-- Problems that are assembled can be met, whatever they are assembled from. -/
theorem constructed_of_assemble {timeStep : Scalar K} {dynamics : List (Given K)} {vStar : Given K}
    {constraints : List (Except (Error K) (Constraint K))} {p : ContactProblem K}
    (hmade : ∀ x ∈ constraints, Made x)
    (h : assemble? timeStep dynamics vStar constraints = .ok p) : p.Constructed := by
  obtain ⟨q, hq, h⟩ := Outcome.bind_eq_ok.mp h
  obtain ⟨cs, hcs, h⟩ := Outcome.bind_eq_ok.mp h
  refine (Constructed.build hq).addAll (fun c hc => ?_) h
  obtain ⟨x, hx, hxc⟩ := Outcome.mem_of_mapM hcs hc
  exact hmade x hx c hxc

deriving instance DecidableEq for Vec, Mat

/-- Three cliques, of one, one and two velocities. A constraint that pushes couples the last with
the first; nothing couples the second. -/
def sample? : Except (Error ℚ) (ContactProblem ℚ) :=
  let law : Law ℚ :=
    { bias := (Term.fixed (.tensor (Vec.mk .double [1]).toTensor)).side
      regularization := (Term.fixed (.tensor (Vec.mk .double [2]).toTensor)).side }
  let c := Constraint.build? law .nonneg (.tensor (Vec.mk .double [0]).toTensor) 2
    (.tensor ⟨.double, [1, 2], [1, -1], rfl⟩) (some 0) (some (.tensor ⟨.double, [1, 1], [1], rfl⟩))
  assemble? ⟨.double, 1 / 100⟩
    [.tensor ⟨.double, [1, 1], [4], rfl⟩, .tensor ⟨.double, [1, 1], [1], rfl⟩,
      .tensor ⟨.double, [2, 2], [9, 0, 0, 9], rfl⟩]
    (.tensor (Vec.mk .double [1, 5, 2, 3]).toTensor)
    [c]

/-- This problem can be met. -/
theorem constructed_sample {p : ContactProblem ℚ} (h : sample? = .ok p) :
    p.Constructed :=
  constructed_of_assemble (by simp) h

/-- Two cliques, of two and three velocities. A constraint of two equations pulls at the first one
by a linear map that is not symmetric, one couples the two within bounds, and the second hangs on a
spring. -/
def mixedSample? : Except (Error ℚ) (ContactProblem ℚ) :=
  let law (bias regularization : List ℚ) : Law ℚ :=
    { bias := (Term.fixed (.tensor (Vec.mk .double bias).toTensor)).side
      regularization := (Term.fixed (.tensor (Vec.mk .double regularization).toTensor)).side }
  let pull := Constraint.build? (law [1, 0] [2, 3])
    (.linear (Mat.ofEntries .double 2 2 [1, 2, 0, 1])) (.tensor (Vec.mk .double [0, 0]).toTensor) 0
    (.tensor ⟨.double, [2, 2], [1, 0, 1, 1], rfl⟩) none none
  let coupling := Constraint.build? (law [0] [1 / 2]) (.box (-1) 1)
    (.tensor (Vec.mk .double [0]).toTensor) 1 (.tensor ⟨.double, [1, 3], [1, 0, -1], rfl⟩) (some 0)
    (some (.tensor ⟨.double, [1, 2], [0, 1], rfl⟩))
  let spring := Spring.build? 1 (.tensor (Vec.mk .double [1, 0, 0]).toTensor) ⟨.double, 100⟩
    ⟨.double, 1 / 10⟩
  assemble? ⟨.double, 1 / 100⟩
    [.tensor ⟨.double, [2, 2], [4, 0, 0, 1], rfl⟩,
      .tensor ⟨.double, [3, 3], [1, 0, 0, 0, 1, 0, 0, 0, 4], rfl⟩]
    (.tensor (Vec.mk .double [1, 5, 2, 3, 0]).toTensor)
    [pull, coupling, spring]

/-- This problem can be met. -/
theorem constructed_mixedSample {p : ContactProblem ℚ} (h : mixedSample? = .ok p) :
    p.Constructed :=
  constructed_of_assemble (by simp) h

/-- Four cliques, of one, two, one and one velocities, of which the second and the last take part.
Constraints on the last one alone alternate with constraints between the two, which name them in
either order; the last constraint comes twice. -/
def interleavedSample? : Except (Error ℚ) (ContactProblem ℚ) :=
  let law (bias regularization : List ℚ) : Law ℚ :=
    { bias := (Term.fixed (.tensor (Vec.mk .double bias).toTensor)).side
      regularization := (Term.fixed (.tensor (Vec.mk .double regularization).toTensor)).side }
  let g (n : Nat) : Given ℚ := .tensor (Vec.mk .double (List.replicate n 0)).toTensor
  let push := Constraint.build? (law [1] [2]) .nonneg (g 1) 3 (.tensor ⟨.double, [1, 1], [1], rfl⟩)
    none none
  let coupling := Constraint.build? (law [0, 2] [3, 4]) .identity (g 2) 3
    (.tensor ⟨.double, [2, 1], [5, 6], rfl⟩) (some 1)
    (some (.tensor ⟨.double, [2, 2], [1, 2, 3, 4], rfl⟩))
  let free := Constraint.build? (law [0, 0] [1, 1]) .zero (g 2) 3
    (.tensor ⟨.double, [2, 1], [7, 8], rfl⟩) none none
  let reversed := Constraint.build? (law [3] [5]) .nonneg (g 1) 1
    (.tensor ⟨.double, [1, 2], [1, -1], rfl⟩) (some 3) (some (.tensor ⟨.double, [1, 1], [2], rfl⟩))
  assemble? ⟨.double, 1 / 100⟩
    [.tensor ⟨.double, [1, 1], [1], rfl⟩, .tensor ⟨.double, [2, 2], [4, 0, 0, 1], rfl⟩,
      .tensor ⟨.double, [1, 1], [1], rfl⟩, .tensor ⟨.double, [1, 1], [9], rfl⟩]
    (.tensor (Vec.mk .double [1, 2, 3, 4, 5]).toTensor)
    [push, coupling, free, reversed, reversed]

/-- This problem can be met. -/
theorem constructed_interleavedSample {p : ContactProblem ℚ} (h : interleavedSample? = .ok p) :
    p.Constructed :=
  constructed_of_assemble (by simp) h

end ContactProblem

end ConvexContact
