import ConvexContact.Proofs.System.ImplicitStep
import ConvexContact.System.Run

/-!
# Configurations that are accepted

A run passes its configuration through a row of readers and checks, and then through the checks of
the problem and of the model. `Run.Describes` says what a configuration must hold to come through in
exact arithmetic: every part can be read, the numbers of the system are those of a `SpringMass`, the
direction has three entries, and there is a sample.

In one direction the parts are put together step by step, each of which is known to succeed. In the
other direction a run that succeeds is taken apart. What the problem has checked is known from its
steps (`SpringMassConfig.exists_parts`), and that the first mass is positive from the factor of its
matrix (`SpringMass.exists_of_problem`), which is the only place where it is looked at.

Proof shape: `Run.prepare_eq_ok` opens the preparation once, for all kinds of numbers.
`Describes.exists_prepare` and `exists_describes` are the two directions for exact ones, and meet at
`SpringMass.Reduces`.
-/

namespace ConvexContact

variable {K : Type}

/-- What a calculation accepts is a number. -/
theorem Setting.get_eq_ok {s : Setting K} {x : Scalar K} (h : s.get = .ok x) : s = .number x := by
  cases s with
  | number y => exact congrArg Setting.number (Except.ok.inj h)
  | other => cases h

/-! ## What a problem is put together from -/

namespace SpringMassConfig

variable [Arith K] {c : SpringMassConfig K} {f : Format} {q' v' : Option (Given K)}
  {p : ContactProblem K}

/-- The parts of a problem with the first particle at `x`: the particles without the spring, which
are built from the settings, and the spring `k`, which is added to them. -/
structure Parts (c : SpringMassConfig K) (x : Vec K) (bare p : ContactProblem K)
    (k : Constraint K) : Prop where
  size : x.size = 3
  axis : c.axis.checkRange = .ok ()
  pull : ∃ f a, c.pull f = .ok a
  unbound : ∃ f A step vStar, [c.mass1, c.mass2].mapM (dynamics f) = .ok A ∧
    c.timeStep.get = .ok step ∧ ContactProblem.build? step A vStar = .ok bare
  spring : c.spring x = .ok k
  problem : p = bare.store k

/-- A problem that was posed has gone through all steps. -/
theorem exists_parts (h : c.problem f q' v' = .ok p) : ∃ x bare k, c.Parts x bare p k := by
  obtain ⟨q, -, h⟩ := Outcome.bind_eq_ok.mp h
  obtain ⟨v, -, h⟩ := Outcome.bind_eq_ok.mp h
  split at h
  case h_2 => cases h
  case h_1 q v _ _ =>
    -- the checks come in this order, so each is known before the next one is opened
    split at h
    · cases h
    rename_i hsizes
    obtain ⟨⟨⟩, haxis, h⟩ := Outcome.bind_eq_ok.mp h
    obtain ⟨A, hA, h⟩ := Outcome.bind_eq_ok.mp h
    obtain ⟨pull, hpull, h⟩ := Outcome.bind_eq_ok.mp h
    obtain ⟨step, hstep, h⟩ := Outcome.bind_eq_ok.mp h
    obtain ⟨factor, -, h⟩ := Outcome.bind_eq_ok.mp h
    obtain ⟨vStar, -, h⟩ := Outcome.bind_eq_ok.mp h
    obtain ⟨bare, hbare, h⟩ := Outcome.bind_eq_ok.mp h
    obtain ⟨k, hk, h⟩ := Outcome.bind_eq_ok.mp h
    obtain ⟨⟨p', i⟩, hadd, rfl⟩ := Outcome.map_eq_ok.mp h
    obtain ⟨_, -, hadd⟩ := Outcome.bind_eq_ok.mp hadd
    obtain ⟨rfl, -⟩ := Prod.mk.inj (Except.ok.inj hadd)
    have hq : q.size = 6 := not_not.mp fun hq => hsizes (Or.inl hq)
    exact ⟨q.slice 0 3, bare, k, Vec.size_slice (by omega), haxis, ⟨_, _, hpull⟩,
      ⟨_, A, step, _, hA, hstep, hbare⟩, hk, rfl⟩

/-- The one constraint is the spring. -/
theorem Parts.constraints_eq {x : Vec K} {bare : ContactProblem K} {k : Constraint K}
    (h : c.Parts x bare p k) : p.constraints = [k.cast bare.format] := by
  obtain ⟨f, A, step, vStar, -, -, hbare⟩ := h.unbound
  rw [h.problem, ContactProblem.store, (ContactProblem.builtFrom hbare).constraints]
  rfl

/-- It projects by the identity, -/
theorem named_of_problem (h : c.problem f q' v' = .ok p) :
    ∀ k ∈ p.constraints, k.projection.isRule = false := by
  obtain ⟨x, bare, k, hparts⟩ := exists_parts h
  obtain ⟨stiffness, -, hk⟩ := Outcome.bind_eq_ok.mp hparts.spring
  obtain ⟨_, -, hk⟩ := Outcome.bind_eq_ok.mp hk
  obtain ⟨relaxation, -, hk⟩ := Outcome.bind_eq_ok.mp hk
  rw [hparts.constraints_eq]
  rintro _ hmem
  rw [List.mem_singleton.mp hmem]
  change k.projection.isRule = false
  rw [Spring.projection_of_build hk]
  rfl

/-- so the model of the problem evaluates consistently. -/
theorem consistent_of_problem {m : Model K} (h : c.problem f q' v' = .ok p)
    (hm : Model.build? p = .ok m) : m.Consistent := by
  obtain ⟨Ls, hsteps⟩ := Model.exists_steps hm
  have hnamed := hsteps.forall_members (P := fun P _ => P.isRule = false) (named_of_problem h)
  exact fun k hk => Projection.consistent_of_named (hnamed k hk)

end SpringMassConfig

/-! ## Exact systems -/

section Exact

variable [ExactField K] {c : SpringMassConfig K} {f : Format} {q' v' : Option (Given K)}
  {p : ContactProblem K} {m : Model K}

/-- What a spring checks. -/
theorem SpringMassConfig.exists_of_spring {x : Vec K} {k : Constraint K}
    (h : c.spring x = .ok k) : ∃ stiffness relaxation, c.stiffness = .number stiffness ∧
      c.relaxation = .number relaxation ∧ 0 < stiffness.value ∧ 0 ≤ relaxation.value := by
  obtain ⟨stiffness, hstiffness, h⟩ := Outcome.bind_eq_ok.mp h
  obtain ⟨⟨⟩, hcheck, h⟩ := Outcome.bind_eq_ok.mp h
  obtain ⟨relaxation, hrelaxation, h⟩ := Outcome.bind_eq_ok.mp h
  obtain ⟨⟨⟩, -, h⟩ := Outcome.bind_eq_ok.mp h
  refine ⟨stiffness, relaxation, Setting.get_eq_ok hstiffness, Setting.get_eq_ok hrelaxation,
    ?_, ?_⟩
  · rw [Spring.checkStiffness] at hcheck
    split at hcheck
    · cases hcheck
    · rename_i hpos
      exact not_le.mp fun hle => hpos (Arith.le_eq_true_iff.mpr hle)
  · split at h
    · cases h
    · rename_i hneg
      exact not_lt.mp fun hlt => hneg (Arith.lt_eq_true_iff.mpr hlt)

/-- What a dynamics matrix is made of. -/
theorem SpringMassConfig.exists_of_dynamics {mass : Setting K} {A : Given K}
    (h : dynamics f mass = .ok A) : ∃ x : Scalar K, mass = .number x ∧
      A = .tensor ((Mat.identity f 3).scale x.value).toTensor := by
  obtain ⟨x, hx, h⟩ := Outcome.bind_eq_ok.mp h
  rw [Outcome.bind_of_ok _ (Scalar.asFactor_exact x)] at h
  exact ⟨x, Setting.get_eq_ok hx, (Outcome.pure_eq_ok.mp h).symm⟩

namespace SpringMassConfig.Parts

variable {x : Vec K} {bare : ContactProblem K} {k : Constraint K}

/-- The first dynamics matrix is the first mass, and the second mass is a number too. -/
theorem exists_masses (h : c.Parts x bare p k) : ∃ mass1 mass2 A, c.mass1 = .number mass1 ∧
    c.mass2 = .number mass2 ∧ p.dynamics[0]? = some A ∧ A.IsMultiple 3 mass1.value := by
  obtain ⟨f, A, step, vStar, hA, -, hbare⟩ := h.unbound
  obtain ⟨A₁, _, hA₁, hrest, rfl⟩ := List.forall₂_cons_left_iff.mp (Outcome.mapM_eq_ok.mp hA)
  obtain ⟨A₂, _, hA₂, -, rfl⟩ := List.forall₂_cons_left_iff.mp hrest
  obtain ⟨mass1, hmass1, rfl⟩ := exists_of_dynamics hA₁
  obtain ⟨mass2, hmass2, -⟩ := exists_of_dynamics hA₂
  obtain ⟨B, _, hB, -, hdynamics⟩ := List.forall₂_cons_left_iff.mp
    (Outcome.mapM_eq_ok.mp (ContactProblem.builtFrom hbare).dynamics)
  have hB' : ((Mat.identity f 3).scale mass1.value).cast bare.format = B :=
    Except.ok.inj ((ContactProblem.readDynamics_toTensor rfl _ _).symm.trans hB)
  refine ⟨mass1, mass2, B, hmass1, hmass2, ?_, ?_⟩
  · rw [h.problem]
    change bare.dynamics[0]? = some B
    rw [hdynamics]
    rfl
  · have hmultiple := ((Mat.IsMultiple.identity f 3).scale mass1.value).cast bare.format
    rwa [mul_one, hB'] at hmultiple

/-- The time step is a positive number. -/
theorem exists_timeStep (h : c.Parts x bare p k) :
    ∃ step, c.timeStep = .number step ∧ 0 < step.value := by
  obtain ⟨f, A, step, vStar, -, hstep, hbare⟩ := h.unbound
  exact ⟨step, Setting.get_eq_ok hstep,
    Arith.lt_eq_true_iff.mp (ContactProblem.builtFrom hbare).timeStep_pos⟩

/-- Gravity is a number and acts somewhere. -/
theorem exists_gravity (h : c.Parts x bare p k) : ∃ gravity,
    c.gravity = .number gravity ∧ ∃ axis : GravityAxis, axis.setting = c.axis := by
  obtain ⟨f, a, hpull⟩ := h.pull
  obtain ⟨gravity, hgravity, hpull⟩ := Outcome.bind_eq_ok.mp hpull
  obtain ⟨_, -, hpull⟩ := Outcome.bind_eq_ok.mp hpull
  obtain ⟨acts, hacts, -⟩ := Outcome.bind_eq_ok.mp hpull
  exact ⟨gravity, Setting.get_eq_ok hgravity, GravityAxis.exists_of_setting h.axis hacts⟩

end SpringMassConfig.Parts

/-- **Systems.** A problem of which there is a model is that of a system which can be simulated. -/
theorem SpringMass.exists_of_problem (h : c.problem f q' v' = .ok p)
    (hm : Model.build? p = .ok m) : ∃ s : SpringMass K, s.config = c := by
  obtain ⟨x, bare, k, hparts⟩ := SpringMassConfig.exists_parts h
  -- all but the sign of the first mass has been checked while the problem was posed
  obtain ⟨stiffness, relaxation, hstiffness, hrelaxation, hk, hτ⟩ :=
    SpringMassConfig.exists_of_spring hparts.spring
  obtain ⟨step, hstep, hpos⟩ := hparts.exists_timeStep
  obtain ⟨gravity, hgravity, axis, haxis⟩ := hparts.exists_gravity
  obtain ⟨mass1, mass2, A, hmass1, hmass2, hA, hmultiple⟩ := hparts.exists_masses
  -- the spring does not look at the masses, so it is that of a system with another first mass
  let light : SpringMass K := ⟨⟨.double, 1⟩, mass2, stiffness, relaxation, step, gravity, axis,
    one_pos, hk, hτ, hpos⟩
  have hlight : light.config.spring x = .ok k := by
    rw [← hparts.spring, SpringMassConfig.spring, SpringMassConfig.spring, hstiffness, hrelaxation]
    rfl
  obtain ⟨k', hk', hties⟩ := light.exists_spring hparts.size
  obtain rfl := Except.ok.inj (hk'.symm.trans hlight)
  have hties := hties.cast bare.format
  -- the one clique that takes part is that of the first particle, whose matrix has a factor
  obtain ⟨Ls, hsteps⟩ := Model.exists_steps hm
  have hcliques := (hsteps.toArranged.eq_singleton hparts.constraints_eq hties.second).2
  have hfirst : m.cliques.inverse[0]? = some 0 := by
    rw [hcliques, hties.clique]
    rfl
  obtain ⟨L, -, -, -, hL⟩ := hsteps.exists_factor ((hsteps.getElem?_dynamics hfirst).trans hA)
  refine ⟨⟨mass1, mass2, stiffness, relaxation, step, gravity, axis, hmultiple.pos_of_factor hL,
    hk, hτ, hpos⟩, ?_⟩
  rw [SpringMass.config]
  dsimp only
  rw [← hmass1, ← hmass2, ← hstiffness, ← hrelaxation, ← hstep, haxis, ← hgravity]

end Exact

/-! ## Configurations

Both directions go through `prepare_eq_ok`. From left to right each reading that succeeded says what
it has read, from right to left each is shown to succeed. -/

namespace Run

/-- Passing an error on does not turn it into an answer. -/
theorem ofLibrary_eq_ok {α : Type} {x : Except (Error K) α} {a : α} :
    ofLibrary x = .ok a ↔ x = .ok a := by
  cases x <;> simp [ofLibrary, Except.mapError]

/-- A run computes with fractions. -/
theorem isFloating_of_readFormat {name : String} {f : Format}
    (h : (readFormat name : Except (Failure K) Format) = .ok f) : f.isFloating = true := by
  unfold readFormat at h
  split at h
  · exact Except.ok.inj h ▸ rfl
  · exact Except.ok.inj h ▸ rfl
  · cases h

section Six

variable [Arith K] [Input K] {f : Format} {value : Json} {x : Vec K}

/-- The positions or velocities that a value stands for. -/
def SixNumbers (f : Format) (value : Json) (x : Vec K) : Prop :=
  ∃ given, readSix f value = .ok given ∧ SpringMassConfig.readPair f given = .ok x.toTensor

/-- What is accepted as positions or velocities is six numbers, zeros if there is none. -/
theorem exists_sixNumbers {given : Option (Given K)} (h : readSix f value = .ok given) :
    ∃ x : Vec K, SixNumbers f value x ∧ x.size = 6 ∧ x.format = f := by
  have hread := h
  cases value with
  | null =>
    obtain rfl := Except.ok.inj h
    exact ⟨Vec.zeros f 6, ⟨_, hread, rfl⟩, rfl, rfl⟩
  | array items =>
    unfold readSix at h
    dsimp only at h
    split at h
    · cases h
    rename_i hlength
    obtain ⟨xs, hxs, h⟩ := ConvexContact.Outcome.bind_eq_ok.mp h
    obtain rfl := ConvexContact.Outcome.pure_eq_ok.mp h
    refine ⟨_, ⟨_, hread, rfl⟩, ?_, rfl⟩
    change (List.map _ xs).length = 6
    rw [List.length_map, ConvexContact.Outcome.length_of_mapM hxs]
    exact not_not.mp hlength
  -- other values have been refused
  | bool _ | int _ | float _ | string _ | object _ => cases h

/-- They are six, in the format of the run. -/
theorem SixNumbers.size_format (h : SixNumbers f value x) : x.size = 6 ∧ x.format = f := by
  obtain ⟨given, hgiven, hx⟩ := h
  obtain ⟨y, ⟨given', hgiven', hy⟩, hsize, hformat⟩ := exists_sixNumbers hgiven
  obtain rfl := Except.ok.inj (hgiven.symm.trans hgiven')
  have hxy : x.toTensor = y.toTensor := Except.ok.inj (hx.symm.trans hy)
  have hxy : x = y := by
    have h := congrArg Vec.ofTensor? hxy
    rw [Vec.ofTensor?_toTensor, Vec.ofTensor?_toTensor] at h
    exact Option.some.inj h
  rw [hxy]
  exact ⟨hsize, hformat⟩

end Six

section Preparation

variable [Arith K] [Input K] {members : List (String × Json)} {m : Model K} {line : Line}

/-- What is read from the members of a configuration, in this order, until there is a model and a
line: the seed, the format, the members of the system, the positions and the velocities. -/
structure Prepares (members : List (String × Json)) (f : Format) (numbers : List (String × Json))
    (q v : Option (Given K)) (m : Model K) (line : Line) : Prop where
  seed : ∃ seed, (readInt (member "seed" (.int 0) members) : Except (Failure K) Int) = .ok seed ∧
    0 ≤ seed ∧ seed < Int.pow 2 32
  format : (readFormat (readText (member "dtype" (.string "float64") members)) :
    Except (Failure K) Format) = .ok f
  system : (readSystem (member "system" (.object []) members) :
    Except (Failure K) (List (String × Json))) = .ok numbers
  positions : readSix f (member "q0" .null members) = .ok q
  velocities : readSix f (member "v0" .null members) = .ok v
  model : ∃ p, (systemOf numbers).problem f q v = .ok p ∧ Model.build? p = .ok m
  line : (readLine (member "line" (.object []) members) : Except (Failure K) Line) = .ok line

omit [Arith K] [Input K] in
/-- A seed has 32 bits. -/
theorem checkSeed_eq_ok {seed : Int} :
    (checkSeed seed : Except (Failure K) Unit) = .ok () ↔ 0 ≤ seed ∧ seed < Int.pow 2 32 := by
  unfold checkSeed
  split <;> simp_all

/-- **Preparation.** There are a model and a line when all readers succeed. -/
theorem prepare_eq_ok : prepare (.object members) = .ok (m, line) ↔
    ∃ f numbers q v, Prepares members f numbers q v m line := by
  constructor
  · intro h
    obtain ⟨seed, hseed, h⟩ := ConvexContact.Outcome.bind_eq_ok.mp h
    obtain ⟨f, hf, h⟩ := ConvexContact.Outcome.bind_eq_ok.mp h
    obtain ⟨⟨⟩, hcheck, h⟩ := ConvexContact.Outcome.bind_eq_ok.mp h
    obtain ⟨numbers, hsystem, h⟩ := ConvexContact.Outcome.bind_eq_ok.mp h
    obtain ⟨q, hq, h⟩ := ConvexContact.Outcome.bind_eq_ok.mp h
    obtain ⟨v, hv, h⟩ := ConvexContact.Outcome.bind_eq_ok.mp h
    obtain ⟨p, hp, h⟩ := ConvexContact.Outcome.bind_eq_ok.mp h
    obtain ⟨m, hm, h⟩ := ConvexContact.Outcome.bind_eq_ok.mp h
    obtain ⟨line, hline, h⟩ := ConvexContact.Outcome.bind_eq_ok.mp h
    obtain ⟨rfl, rfl⟩ := Prod.mk.inj (Except.ok.inj h)
    exact ⟨f, numbers, q, v, ⟨seed, hseed, checkSeed_eq_ok.mp hcheck⟩, hf, hsystem, hq, hv,
      ⟨p, ofLibrary_eq_ok.mp hp, ofLibrary_eq_ok.mp hm⟩, hline⟩
  · rintro ⟨f, numbers, q, v, ⟨seed, hseed, hrange⟩, hf, hsystem, hq, hv, ⟨p, hp, hm⟩, hline⟩
    unfold prepare
    dsimp only
    rw [ConvexContact.Outcome.bind_of_ok _ hseed, ConvexContact.Outcome.bind_of_ok _ hf,
      ConvexContact.Outcome.bind_of_ok _ (checkSeed_eq_ok.mpr hrange),
      ConvexContact.Outcome.bind_of_ok _ hsystem, ConvexContact.Outcome.bind_of_ok _ hq,
      ConvexContact.Outcome.bind_of_ok _ hv,
      ConvexContact.Outcome.bind_of_ok _ (ofLibrary_eq_ok.mpr hp),
      ConvexContact.Outcome.bind_of_ok _ (ofLibrary_eq_ok.mpr hm),
      ConvexContact.Outcome.bind_of_ok _ hline]
    rfl

/-- A configuration is an object. -/
theorem exists_members_of_prepare {config : Json} (h : prepare config = .ok (m, line)) :
    ∃ members, config = .object members := by
  cases config with
  | object members => exact ⟨members, rfl⟩
  | null | bool _ | int _ | float _ | string _ | array _ => cases h

/-- The model of a run evaluates consistently. -/
theorem consistent_of_prepare {config : Json} (h : prepare config = .ok (m, line)) :
    m.Consistent := by
  obtain ⟨members, rfl⟩ := exists_members_of_prepare h
  obtain ⟨f, numbers, q, v, hprepares⟩ := prepare_eq_ok.mp h
  obtain ⟨p, hp, hm⟩ := hprepares.model
  exact SpringMassConfig.consistent_of_problem hp hm

end Preparation

section Exact

variable [ExactField K] [Input K]

/-- What the members of a configuration say about a system in exact arithmetic: its numbers, the
positions `q` and velocities `v`, stored in format `f`, and the line. -/
structure Describes (members : List (String × Json)) (f : Format) (s : SpringMass K) (q v : Vec K)
    (line : Line) : Prop where
  seed : ∃ seed, (readInt (member "seed" (.int 0) members) : Except (Failure K) Int) = .ok seed ∧
    0 ≤ seed ∧ seed < Int.pow 2 32
  format : (readFormat (readText (member "dtype" (.string "float64") members)) :
    Except (Failure K) Format) = .ok f
  system : ∃ numbers, (readSystem (member "system" (.object []) members) :
    Except (Failure K) (List (String × Json))) = .ok numbers ∧ systemOf numbers = s.config
  positions : SixNumbers f (member "q0" .null members) q
  velocities : SixNumbers f (member "v0" .null members) v
  line : (readLine (member "line" (.object []) members) : Except (Failure K) Line) = .ok line

variable {members : List (String × Json)} {f : Format} {s : SpringMass K} {q v : Vec K}
  {line : Line}

/-- **Preparation.** Nothing of what a configuration describes is refused, -/
theorem Describes.exists_prepare (h : Describes members f s q v line) :
    ∃ m, prepare (.object members) = .ok (m, line) ∧ s.Reduces q v m := by
  obtain ⟨numbers, hsystem, hconfig⟩ := h.system
  obtain ⟨q', hq', hq⟩ := h.positions
  obtain ⟨v', hv', hv⟩ := h.velocities
  have hfloating := isFloating_of_readFormat h.format
  obtain ⟨hqsize, hqformat⟩ := h.positions.size_format
  obtain ⟨hvsize, hvformat⟩ := h.velocities.size_format
  obtain ⟨p, hp, hposes⟩ := s.exists_problem hq hv hqsize hvsize (by rwa [hqformat])
    (by rwa [hvformat])
  obtain ⟨m, hm⟩ := hposes.exists_model
  rw [← hconfig] at hp
  exact ⟨m, prepare_eq_ok.mpr
    ⟨f, numbers, q', v', h.seed, h.format, hsystem, hq', hv', ⟨p, hp, hm⟩, h.line⟩,
    hposes.reduces hm⟩

/-- and a configuration of which nothing is refused describes a system. -/
theorem exists_describes {config : Json} {m : Model K} (h : prepare config = .ok (m, line)) :
    ∃ members f s q v, config = .object members ∧ Describes members f s q v line ∧
      s.Reduces q v m := by
  obtain ⟨members, rfl⟩ := exists_members_of_prepare h
  obtain ⟨f, numbers, q', v', hprepares⟩ := prepare_eq_ok.mp h
  obtain ⟨p, hp, hm⟩ := hprepares.model
  obtain ⟨s, hs⟩ := SpringMass.exists_of_problem hp hm
  obtain ⟨q, hq, -⟩ := exists_sixNumbers hprepares.positions
  obtain ⟨v, hv, -⟩ := exists_sixNumbers hprepares.velocities
  have hdescribes : Describes members f s q v line :=
    { hprepares with
      system := ⟨numbers, hprepares.system, hs.symm⟩
      positions := hq
      velocities := hv }
  -- a configuration has one model only
  obtain ⟨m', hm', hreduces⟩ := hdescribes.exists_prepare
  obtain ⟨rfl, -⟩ := Prod.mk.inj (Except.ok.inj (h.symm.trans hm'))
  exact ⟨members, f, s, q, v, rfl, hdescribes, hreduces⟩

end Exact

end Run

end ConvexContact
