import ConvexContact.Proofs.Linear.Multiple
import ConvexContact.Proofs.Model.Construction
import ConvexContact.System.SpringMass

/-!
# The contact problem of a spring-mass system

`SpringMass` holds the numbers of a system that can be simulated: a first mass, a stiffness and a
time step that are positive, and a time scale that is not negative. The contact problem of such a
system is known in every part (`SpringMass.Poses`): the velocities of free motion are those the
particles would have under gravity alone, the dynamics matrix of the first particle is its mass, and
the one constraint ties this particle with the law of a spring (`SpringMass.Ties`).

Proof shape: nothing is rounded in exact arithmetic, so every conversion of a number, a vector or a
matrix is an equation of the first section. With them each step of the construction is known to
succeed (`exists_spring`, `build_unbound`, `exists_add`), and `exists_problem` takes the steps in a
row.
-/

namespace ConvexContact

variable {K : Type}

/-! ## Exact numbers that are stored

The construction converts numbers, vectors and matrices between formats many times. In exact
arithmetic each conversion leaves them as they are, so it drops out by rewriting. -/

/-- A slice of enough entries has as many as are asked for. -/
theorem Vec.size_slice {v : Vec K} {n : Nat} (h : n ≤ v.size) : (v.slice 0 n).size = n := by
  have hlength : n ≤ v.entries.length := h
  simp [slice, size, ConvexContact.slice, hlength]

variable [ExactField K]

namespace Scalar

/-- Exact numbers can be stored in every format. -/
theorem asEntry_exact (x : Scalar K) : x.asEntry = .ok x := by
  simp [asEntry, isNarrow]

/-- They can be factors of a matrix, -/
theorem asFactor_exact (x : Scalar K) : x.asFactor = .ok x.value := by
  simp [asFactor, isNarrow]

/-- they are their own double precision, -/
theorem toDouble_exact (x : Scalar K) : x.toDouble = .ok x.value := by
  simp [toDouble]

/-- and are stored in a vector as they are. -/
theorem stored_exact (x : Scalar K) (f : Format) : x.stored f = .ok x.value := by
  rw [stored, asEntry_exact, Outcome.bind_of_ok _ rfl]
  simp

end Scalar

namespace Vec

/-- A slice from the beginning keeps its entries in place. -/
theorem get_slice {n i : Nat} (hi : i < n) (v : Vec K) : (v.slice 0 n).get i = v.get i := by
  simp [slice, get, ConvexContact.slice, List.getD_eq_getElem?_getD, hi]

/-- Copies of a number are the number. -/
theorem get_replicate (f : Format) {n i : Nat} (hi : i < n) (x : K) :
    (replicate f n x).get i = x := by
  simp [replicate, get, List.getD_eq_getElem?_getD, hi]

/-- Entry by entry, the sign is changed and the quotient taken. -/
theorem get_divideBy_neg {v : Vec K} {i : Nat} (hi : i < v.size) (x : K) :
    (v.neg.divideBy x).get i = -v.get i / x := by
  have hlength : i < v.entries.length := hi
  simp [divideBy, neg, map, get, List.getD_eq_getElem?_getD, hlength]

/-- Entry by entry, the product is taken. -/
theorem get_scale_exact {v : Vec K} {i : Nat} (hi : i < v.size) (x : K) :
    (v.scale x).get i = x * v.get i := by
  have hlength : i < v.entries.length := hi
  simp [scale, get, List.getD_eq_getElem?_getD, hlength]

/-- Exact vectors are stored as they are. -/
theorem get_cast_exact (f : Format) (v : Vec K) (i : Nat) : (v.cast f).get i = v.get i := by
  have hentries : v.entries.map (Arith.cast f) = v.entries :=
    (List.map_congr_left fun x _ => Arith.cast_exact f x).trans (List.map_id' _)
  rw [cast, get, hentries, get]

end Vec

/-- A matrix that is handed over. -/
theorem Mat.stored_toTensor (A : Mat K) (f : Format) :
    (Given.tensor A.toTensor).stored f = .ok (A.cast f).toTensor := by
  rw [Mat.toTensor_cast]
  rfl

/-- A Jacobian of the right height is read as it is. -/
theorem Constraint.readJacobian_toTensor (A : Mat K) (f : Format) :
    readJacobian f A.rows (.tensor A.toTensor) = .ok (A.cast f) := by
  rw [readJacobian, Outcome.bind_of_ok _ (A.stored_toTensor f)]
  change (if A.rows ≠ A.rows then _ else _) = _
  rw [if_neg (not_not.mpr rfl)]
  exact congrArg Except.ok (Mat.ofEntries_toTensor (A.cast f))

/-- A square dynamics matrix is read as it is. -/
theorem ContactProblem.readDynamics_toTensor {A : Mat K} (hA : A.rows = A.cols) (f : Format)
    (c : Nat) : readDynamics f c (.tensor A.toTensor) = .ok (A.cast f) := by
  rw [readDynamics, Outcome.bind_of_ok _ (A.stored_toTensor f)]
  change (if A.rows = A.cols then _ else _) = _
  rw [if_pos hA]
  exact congrArg Except.ok (Mat.ofEntries_toTensor (A.cast f))

/-- What a side of a law answers is read as it is, if it has an entry for each equation. -/
theorem Constraint.checkSide_toTensor {c : Constraint K} (role : VectorRole) {v : Vec K}
    (hv : v.size = c.equations) :
    c.checkSide role (.tensor v.toTensor) = .ok (v.cast c.g.format) := by
  have hstored : (Given.tensor v.toTensor).stored c.g.format =
      .ok (v.toTensor.cast c.g.format) := rfl
  have hread : readVector role (v.toTensor.cast c.g.format) = .ok (v.cast c.g.format) := rfl
  rw [checkSide, Outcome.bind_of_ok _ hstored, Outcome.bind_of_ok _ hread, Vec.size_cast,
    if_neg (not_not.mpr hv)]
  rfl

/-! ## Systems -/

/-- Where gravity acts: along an axis, or as a truth value says. -/
inductive GravityAxis where
  | along (i : Fin 3)
  | everywhere (b : Bool)

namespace GravityAxis

/-- The setting that makes it act there. -/
def setting : GravityAxis → AxisSetting K
  | along i => .index i
  | everywhere b => .everywhere b

/-- Whether it acts on the coordinate `k` of both particles, counted from zero to five. -/
def acts : GravityAxis → Nat → Bool
  | along i, k => k % 3 = i
  | everywhere true, _ => true
  | everywhere false, k => k = 3

/-- These settings pass the check of the axis, -/
theorem checkRange_setting (a : GravityAxis) : (a.setting : AxisSetting K).checkRange = .ok () := by
  cases a with
  | everywhere b => rfl
  | along i =>
    have hrange : ¬ (((i : Nat) : Int) < 0 ∨ 3 ≤ ((i : Nat) : Int)) := by omega
    exact if_neg hrange

omit [ExactField K] in
/-- and say of each coordinate whether gravity acts on it. -/
theorem acts_setting (a : GravityAxis) :
    (a.setting : AxisSetting K).acts = .ok ((List.range 6).map a.acts) := by
  cases a with
  | everywhere b => cases b <;> rfl
  | along i =>
    refine congrArg Except.ok (List.map_congr_left fun k _ => ?_)
    rw [acts, beq_eq_decide]
    exact decide_eq_decide.mpr Nat.cast_inj

/-- What is accepted as an axis is one of these. -/
theorem exists_of_setting {a : AxisSetting K} {bs : List Bool} (hrange : a.checkRange = .ok ())
    (hacts : a.acts = .ok bs) : ∃ b : GravityAxis, b.setting = a := by
  cases a with
  | fraction _ | other => cases hacts
  | everywhere b => exact ⟨.everywhere b, rfl⟩
  | index i =>
    have hi : ¬ (i < 0 ∨ 3 ≤ i) := fun h => by
      rw [AxisSetting.checkRange, if_pos h] at hrange
      cases hrange
    push Not at hi
    have hlt : i.toNat < 3 := by omega
    exact ⟨.along ⟨i.toNat, hlt⟩, congrArg AxisSetting.index (Int.toNat_of_nonneg hi.1)⟩

end GravityAxis

/-- The numbers of a spring-mass system that can be simulated. -/
structure SpringMass (K : Type) [ExactField K] where
  mass1 : Scalar K
  mass2 : Scalar K
  stiffness : Scalar K
  relaxation : Scalar K
  timeStep : Scalar K
  gravity : Scalar K
  axis : GravityAxis
  mass1_pos : 0 < mass1.value
  stiffness_pos : 0 < stiffness.value
  relaxation_nonneg : 0 ≤ relaxation.value
  timeStep_pos : 0 < timeStep.value

namespace SpringMass

/-- The settings that make a system. -/
def config (s : SpringMass K) : SpringMassConfig K where
  mass1 := .number s.mass1
  mass2 := .number s.mass2
  stiffness := .number s.stiffness
  relaxation := .number s.relaxation
  timeStep := .number s.timeStep
  gravity := .number s.gravity
  axis := s.axis.setting

/-- The velocity in coordinate `i` that a particle has after the time step under gravity alone. -/
def freeVelocity (s : SpringMass K) (v : Vec K) (i : Nat) : K :=
  v.get i - s.timeStep.value * if s.axis.acts i then s.gravity.value else 0

/-- The constraint that ties the first particle at positions `q`. -/
structure Ties (s : SpringMass K) (q : Vec K) (c : Constraint K) : Prop where
  constructed : c.Constructed
  size : c.g.size = 3
  position : ∀ i < 3, c.g.get i = q.get i
  clique : c.first.clique = 0
  jacobian : c.first.jacobian.IsMultiple 3 1
  second : c.second = none
  law : c.law = Spring.law s.stiffness.value s.relaxation.value
  projection : c.projection = .identityOn 3

/-- The contact problem of a system at positions `q` and velocities `v`. -/
structure Poses (s : SpringMass K) (q v : Vec K) (p : ContactProblem K) : Prop where
  constructed : p.Constructed
  floating : p.format.isFloating = true
  timeStep : p.timeStep = s.timeStep.value
  sizes : p.sizes = [3, 3]
  size : p.vStar.size = 6
  freeVelocity : ∀ i < 6, p.vStar.get i = s.freeVelocity v i
  dynamics : ∃ A, p.dynamics[0]? = some A ∧ A.IsMultiple 3 s.mass1.value
  constraint : ∃ c, p.constraints = [c] ∧ s.Ties q c

variable {s : SpringMass K} {q v : Vec K}

/-! ## The spring

The law of a spring does not look at the estimate, so bias and regularization are known once the
spring has been built. -/

/-- The spring of a system can be built. -/
theorem exists_spring (s : SpringMass K) {x : Vec K} (hx : x.size = 3) :
    ∃ c, s.config.spring x = .ok c ∧ s.Ties x c := by
  have hstiffness : Spring.checkStiffness s.stiffness = .ok () :=
    if_neg fun h => absurd (Arith.le_eq_true_iff.mp h) (not_le.mpr s.stiffness_pos)
  have hrelaxation : ¬ Arith.lt s.relaxation.value 0 = true := fun h =>
    absurd (Arith.lt_eq_true_iff.mp h) (not_lt.mpr s.relaxation_nonneg)
  have hfunction : Constraint.readFunction (.tensor x.toTensor) = .ok x := by
    have hread : Constraint.readVector .constraintFunction (Given.tensor x.toTensor).toTensor =
        .ok x := rfl
    rw [Constraint.readFunction, Outcome.bind_of_ok _ hread, hx]
    rfl
  have hjacobian : Constraint.readJacobian x.format x.size
      (.tensor (Mat.identity (K := K) x.format 3).toTensor) =
        .ok ((Mat.identity x.format 3).cast x.format) := by
    rw [hx]
    exact Constraint.readJacobian_toTensor (Mat.identity x.format 3) x.format
  -- the constraint is built without a law, which the spring puts in afterwards
  have hbuild : Constraint.build? Law.unspecified (.identityOn 3) (.tensor x.toTensor) 0
      (.tensor (Mat.identity x.format 3).toTensor) none none =
        .ok ⟨x, ⟨0, (Mat.identity x.format 3).cast x.format⟩, none, Law.unspecified,
          .identityOn 3⟩ := by
    rw [Constraint.build?, Outcome.bind_of_ok _ hfunction]
    have hclique : Constraint.readClique 0 = (.ok 0 : Except (Error K) Nat) := rfl
    rw [Outcome.bind_of_ok _ hclique, Outcome.bind_of_ok _ hjacobian]
    rfl
  have hspring : Spring.build? 0 (.tensor x.toTensor) s.stiffness s.relaxation =
      .ok ⟨x, ⟨0, (Mat.identity x.format 3).cast x.format⟩, none,
        Spring.law s.stiffness.value s.relaxation.value, .identityOn 3⟩ := by
    have htensor : (Given.tensor x.toTensor).asTensor = .ok x.toTensor := rfl
    rw [Spring.build?, Outcome.bind_of_ok _ hstiffness, if_neg hrelaxation,
      Outcome.bind_of_ok _ htensor]
    change (Constraint.build? _ _ _ _ (.tensor (Mat.identity x.format 3).toTensor) _ _ >>= _) = _
    rw [Outcome.bind_of_ok _ hbuild, Outcome.bind_of_ok _ (Scalar.toDouble_exact s.stiffness),
      Outcome.bind_of_ok _ (Scalar.toDouble_exact s.relaxation)]
    rfl
  have hstiffness' : s.config.stiffness.get = .ok s.stiffness := rfl
  have hrelaxation' : s.config.relaxation.get = .ok s.relaxation := rfl
  rw [SpringMassConfig.spring, Outcome.bind_of_ok _ hstiffness', Outcome.bind_of_ok _ hstiffness,
    Outcome.bind_of_ok _ hrelaxation', hspring]
  refine ⟨_, rfl, ?_⟩
  exact {
    constructed := Constraint.constructed_of_spring hspring
    size := hx
    position := fun _ _ => rfl
    clique := rfl
    jacobian := (Mat.IsMultiple.identity x.format 3).cast x.format
    second := rfl
    law := rfl
    projection := rfl }

/-- Only the position of the first particle counts. -/
theorem Ties.of_position {x : Vec K} {c : Constraint K} (h : s.Ties x c)
    (hx : ∀ i < 3, x.get i = q.get i) : s.Ties q c :=
  { h with position := fun i hi => (h.position i hi).trans (hx i hi) }

/-- A constraint ties the particle in whatever format it is stored. -/
theorem Ties.cast {c : Constraint K} (h : s.Ties q c) (f : Format) : s.Ties q (c.cast f) where
  constructed := h.constructed.cast f
  size := (Vec.size_cast f c.g).trans h.size
  position i hi := (Vec.get_cast_exact f c.g i).trans (h.position i hi)
  clique := h.clique
  jacobian := h.jacobian.cast f
  second := by
    rw [Constraint.cast, h.second]
    rfl
  law := h.law
  projection := h.projection

/-- The regularization that makes the impulses those of an implicit step. -/
def regularization (s : SpringMass K) : K :=
  1 / (s.timeStep.value * (s.timeStep.value + s.relaxation.value) * s.stiffness.value)

/-- The time over which the spring relaxes is positive, -/
theorem span_pos (s : SpringMass K) : 0 < s.timeStep.value + s.relaxation.value :=
  add_pos_of_pos_of_nonneg s.timeStep_pos s.relaxation_nonneg

/-- so is what the regularization divides by, -/
theorem compliance_pos (s : SpringMass K) :
    0 < s.timeStep.value * (s.timeStep.value + s.relaxation.value) * s.stiffness.value :=
  mul_pos (mul_pos s.timeStep_pos s.span_pos) s.stiffness_pos

/-- and so is the regularization. -/
theorem regularization_pos (s : SpringMass K) : 0 < s.regularization :=
  one_div_pos.mpr s.compliance_pos

/-- The spring is regularized alike in each coordinate, whatever the estimate. -/
theorem Ties.regularization_eq {c : Constraint K} (h : s.Ties q c) (w : Tensor K) :
    c.regularization s.timeStep.value w =
      .ok ((Vec.replicate c.g.format 3 s.regularization).cast c.g.format) := by
  have hdenominator : ¬ Arith.eq (s.timeStep.value * (s.timeStep.value + s.relaxation.value) *
      s.stiffness.value) 0 = true := by
    simp [Arith.eq, s.compliance_pos]
  have hlaw : c.law.regularization c.g s.timeStep.value w =
      .ok (.tensor (Vec.replicate c.g.format 3 s.regularization).toTensor) := by
    rw [h.law]
    refine (if_neg hdenominator).trans ?_
    rw [Outcome.bind_of_ok _ (Scalar.stored_exact _ _)]
    rfl
  have hsize : (Vec.replicate c.g.format 3 s.regularization).size = c.equations := by
    rw [Vec.size_replicate, Constraint.equations, h.size]
  rw [Constraint.regularization, Outcome.bind_of_ok _ hlaw,
    Outcome.bind_of_ok _ (Constraint.checkSide_toTensor _ hsize), if_pos]
  · rfl
  · simp [Vec.cast, Vec.replicate, s.regularization_pos]

/-- The bias pulls the particle back to the origin. -/
theorem Ties.bias_eq {c : Constraint K} (h : s.Ties q c) (hf : c.g.format.isFloating = true)
    (w : Tensor K) : c.bias s.timeStep.value w =
      .ok ((c.g.neg.divideBy (s.timeStep.value + s.relaxation.value)).cast c.g.format) := by
  have hopposite : c.g.opposite = .ok c.g.neg := by
    rw [Vec.opposite, Vec.neg?, if_neg (Model.ne_boolean_of_floating hf)]
  have hlaw : c.law.bias c.g s.timeStep.value w =
      .ok (.tensor (c.g.neg.divideBy (s.timeStep.value + s.relaxation.value)).toTensor) := by
    rw [h.law]
    change (c.g.opposite >>= _) = _
    rw [Outcome.bind_of_ok _ hopposite]
    rfl
  have hsize : (c.g.neg.divideBy (s.timeStep.value + s.relaxation.value)).size = c.equations := by
    simp [Vec.divideBy, Vec.neg, Vec.map, Vec.size, Constraint.equations]
  rw [Constraint.bias, Outcome.bind_of_ok _ hlaw, Constraint.checkSide_toTensor _ hsize]

/-! ## The problem

Construction step by step: free motion, the two particles, then the spring. Each step is shown to be
accepted and what it leaves is named. -/

/-- The acceleration of gravity on both particles. -/
def acceleration (s : SpringMass K) (f : Format) : Vec K :=
  ⟨f, (List.range 6).map fun i : Nat => if s.axis.acts i then s.gravity.value else 0⟩

/-- Gravity becomes an acceleration of all coordinates. -/
theorem pull_eq (s : SpringMass K) (f : Format) : s.config.pull f = .ok (s.acceleration f) := by
  have hget : s.config.gravity.get = .ok s.gravity := rfl
  have hacts : s.config.axis.acts = .ok ((List.range 6).map s.axis.acts) := s.axis.acts_setting
  rw [SpringMassConfig.pull, Outcome.bind_of_ok _ hget,
    Outcome.bind_of_ok _ (Scalar.asEntry_exact _),
    Outcome.bind_of_ok _ hacts, Outcome.bind_of_ok _ (Scalar.stored_exact _ _)]
  simp only [List.map_map, acceleration]
  rfl

/-- Free motion is motion under gravity alone. -/
theorem get_freeVelocity (s : SpringMass K) (f : Format) (hv : v.size = 6) {i : Nat} (hi : i < 6) :
    (v.sub ((s.acceleration f).scale s.timeStep.value)).get i = s.freeVelocity v i := by
  have hsize : ((s.acceleration f).scale s.timeStep.value).size = 6 := rfl
  have hsub := Vec.map_get_sub Reading.exact (hv.trans hsize.symm) i
  have hpull : ((s.acceleration f).scale s.timeStep.value).get i =
      s.timeStep.value * if s.axis.acts i then s.gravity.value else 0 := by
    simp [Vec.scale, Vec.get, acceleration, List.getD_eq_getElem?_getD, hi]
  simp only [Reading.exact_apply] at hsub
  rw [hsub, freeVelocity, hpull]

/-- The dynamics matrix of a particle. -/
theorem dynamics_eq (f : Format) (mass : Scalar K) :
    SpringMassConfig.dynamics f (.number mass) =
      .ok (.tensor ((Mat.identity f 3).scale mass.value).toTensor) := by
  have hget : (Setting.number mass).get = .ok mass := rfl
  rw [SpringMassConfig.dynamics, Outcome.bind_of_ok _ hget,
    Outcome.bind_of_ok _ (Scalar.asFactor_exact _)]
  rfl

/-- The two particles without the spring, moving freely with velocities `free`. -/
def unbound (s : SpringMass K) (f : Format) (free : Vec K) : ContactProblem K :=
  ⟨s.timeStep.value, free, [((Mat.identity f 3).scale s.mass1.value).cast free.format,
    ((Mat.identity f 3).scale s.mass2.value).cast free.format], [], 0⟩

/-- The particles without the spring are accepted as a problem. -/
theorem build_unbound (s : SpringMass K) (f : Format) {free : Vec K} (hfree : free.size = 6) :
    ContactProblem.build? s.timeStep
      [.tensor ((Mat.identity f 3).scale s.mass1.value).toTensor,
        .tensor ((Mat.identity f 3).scale s.mass2.value).toTensor] (.tensor free.toTensor) =
      .ok (s.unbound f free) := by
  have hstep : ¬ (!Arith.lt 0 s.timeStep.value) = true := by simpa using s.timeStep_pos
  have hread : ContactProblem.readFreeVelocities (.tensor free.toTensor) = .ok free := rfl
  have hdynamics : [Given.tensor ((Mat.identity f 3).scale s.mass1.value).toTensor,
      .tensor ((Mat.identity f 3).scale s.mass2.value).toTensor].zipIdx.mapM
        (fun Ac => ContactProblem.readDynamics free.format Ac.2 Ac.1) =
      .ok (s.unbound f free).dynamics :=
    Outcome.mapM_eq_ok.mpr (.cons (ContactProblem.readDynamics_toTensor rfl _ _)
      (.cons (ContactProblem.readDynamics_toTensor rfl _ _) .nil))
  rw [ContactProblem.build?, if_neg hstep, Outcome.bind_of_ok _ hread,
    Outcome.bind_of_ok _ (Scalar.toDouble_exact _)]
  refine (Outcome.bind_of_ok _ hdynamics).trans ?_
  dsimp only
  rw [if_neg]
  · rfl
  · rw [hfree]
    exact not_not.mpr rfl

/-- The spring fits the particles, and with it they pose the problem of the system. -/
theorem exists_add (s : SpringMass K) {f : Format} {free : Vec K} (hfree : free.size = 6)
    (hfloating : free.format.isFloating = true)
    (hget : ∀ i < 6, free.get i = s.freeVelocity v i) {c : Constraint K} (hc : s.Ties q c) :
    ∃ p i, (s.unbound f free).add c = .ok (p, i) ∧ s.Poses q v p := by
  have hblocks : c.blocks = [c.first] := by
    rw [Constraint.blocks, hc.second]
    rfl
  have hcheck : c.blocks.forM (s.unbound f free).checkBlock = .ok () := by
    rw [hblocks, Outcome.forM_eq_ok]
    intro b hb
    obtain rfl := List.mem_singleton.mp hb
    rw [ContactProblem.checkBlock_eq_ok_iff, hc.clique, hc.jacobian.cols]
    rfl
  have hadd : (s.unbound f free).add c =
      .ok ((s.unbound f free).store c, (s.unbound f free).constraints.length) := by
    rw [ContactProblem.add, Outcome.bind_of_ok _ hcheck]
    rfl
  refine ⟨_, _, hadd, ?_⟩
  exact {
    constructed := (ContactProblem.Constructed.build (s.build_unbound f hfree)).add
      hc.constructed hadd
    floating := hfloating
    timeStep := rfl
    sizes := rfl
    size := hfree
    freeVelocity := hget
    dynamics := by
      refine ⟨_, rfl, ?_⟩
      have hmass := ((Mat.IsMultiple.identity f 3).scale s.mass1.value).cast free.format
      rwa [mul_one] at hmass
    constraint := ⟨c.cast free.format, rfl, hc.cast free.format⟩ }

/-- A system whose positions and velocities come as fractions poses a problem. -/
theorem exists_problem (s : SpringMass K) {f : Format} {q' v' : Option (Given K)}
    (hq' : SpringMassConfig.readPair f q' = .ok q.toTensor)
    (hv' : SpringMassConfig.readPair f v' = .ok v.toTensor) (hq : q.size = 6) (hv : v.size = 6)
    (hqf : q.format.isFloating = true) (hvf : v.format.isFloating = true) :
    ∃ p, s.config.problem f q' v' = .ok p ∧ s.Poses q v p := by
  have hrange : s.config.axis.checkRange = .ok () := s.axis.checkRange_setting
  have hmasses : [s.config.mass1, s.config.mass2].mapM (SpringMassConfig.dynamics q.format) =
      .ok [.tensor ((Mat.identity q.format 3).scale s.mass1.value).toTensor,
        .tensor ((Mat.identity q.format 3).scale s.mass2.value).toTensor] :=
    Outcome.mapM_eq_ok.mpr (.cons (dynamics_eq q.format s.mass1)
      (.cons (dynamics_eq q.format s.mass2) .nil))
  have hstep : s.config.timeStep.get = .ok s.timeStep := rfl
  have hreal : ((s.acceleration q.format).scale s.timeStep.value).format = q.format := if_pos hqf
  have hdifference : v.difference ((s.acceleration q.format).scale s.timeStep.value) =
      .ok (v.sub ((s.acceleration q.format).scale s.timeStep.value)) :=
    Vec.difference_of_numeric (Model.ne_boolean_of_floating hvf)
      (by rw [hreal]; exact Model.ne_boolean_of_floating hqf)
  -- the problem takes its format from the difference, which is the wider of two floating ones
  have hfloating : (v.sub ((s.acceleration q.format).scale s.timeStep.value)).format.isFloating =
      true := by
    rw [Vec.format_sub, hreal, Format.join]
    split
    · exact hqf
    · exact hvf
  have hsize : (v.sub ((s.acceleration q.format).scale s.timeStep.value)).size = 6 := by
    rw [Vec.size_sub, hv]
    rfl
  obtain ⟨c, hspring, hties⟩ := s.exists_spring (x := q.slice 0 3) (Vec.size_slice (by omega))
  obtain ⟨p, i, hadd, hposes⟩ := s.exists_add (f := q.format) hsize hfloating
    (fun i hi => s.get_freeVelocity q.format hv hi)
    (hties.of_position fun i hi => Vec.get_slice hi q)
  refine ⟨p, ?_, hposes⟩
  have hsizes : ¬ (q.size ≠ 6 ∨ v.size ≠ 6) := by simp [hq, hv]
  rw [SpringMassConfig.problem, Outcome.bind_of_ok _ hq', Outcome.bind_of_ok _ hv']
  simp only [Vec.ofTensor?_toTensor]
  rw [if_neg hsizes, Outcome.bind_of_ok _ hrange, Outcome.bind_of_ok _ hmasses,
    Outcome.bind_of_ok _ (s.pull_eq q.format), Outcome.bind_of_ok _ hstep,
    Outcome.bind_of_ok _ (Scalar.asFactor_exact _), Outcome.bind_of_ok _ hdifference,
    Outcome.bind_of_ok _ (s.build_unbound q.format hsize), Outcome.bind_of_ok _ hspring, hadd]
  rfl

end SpringMass

end ConvexContact
