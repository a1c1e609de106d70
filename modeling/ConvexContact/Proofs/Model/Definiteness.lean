import ConvexContact.Proofs.Evaluation.Session
import ConvexContact.Proofs.Linear.Definiteness
import ConvexContact.Proofs.Model.Assembly

/-!
# Definiteness of the dynamics

A model is built only if each of its dynamics matrices passes the check of symmetry and has a
factor. The factor speaks for the mirrored lower triangle, while products and the momentum cost use
the whole matrix. So what acceptance implies is that the form of the whole matrix is positive up to
its asymmetry, which the check bounds entry by entry. For matrices that are symmetric this is
definiteness, and the momentum cost is zero at the velocities of free motion and positive elsewhere.

Proof shape: everything is shown up to the asymmetry first (`Model.DefiniteUpToAsymmetry`), clique
by clique and then for the sum over the cliques. The symmetric case is the one in which the
asymmetry vanishes (`Model.Symmetric.asymmetry_eq_zero`).

More does not hold: a dynamics matrix that is accepted may be indefinite.
-/

namespace ConvexContact

variable {K : Type} [ExactField K]

namespace Model

variable {m : Model K} {ts : List (PlacedBlock K)} {v : Vec K}

/-- The roots that the factorizations of the dynamics take are square roots. -/
def RootsExact (m : Model K) : Prop :=
  ∀ A ∈ m.dynamics, ∀ L ∈ CholeskyFactor.ofMat? A, L.RootsExact

instance (m : Model K) : Decidable m.RootsExact :=
  inferInstanceAs (Decidable (∀ A ∈ m.dynamics, ∀ L ∈ CholeskyFactor.ofMat? A, L.RootsExact))

/-- Real roots are square roots. -/
theorem rootsExact_real (m : Model ℝ) : m.RootsExact :=
  fun _ _ _ hL => CholeskyFactor.rootsExact_real hL

/-- The dynamics matrices are symmetric. -/
def Symmetric (m : Model K) : Prop := ∀ A ∈ m.dynamics, A.Symmetric

instance (m : Model K) : Decidable m.Symmetric :=
  inferInstanceAs (Decidable (∀ A ∈ m.dynamics, A.Symmetric))

/-- The form `dᵀ·A·d` of the dynamics, for velocities given clique by clique. -/
def energy (m : Model K) (d : Nat → Nat → K) : K :=
  ∑ k ∈ Finset.range m.sizes.length, form (m.sizes.getD k 0) (entryOf m.dynamics k) (d k)

/-- The asymmetry of the dynamics, for velocities given clique by clique. -/
def asymmetry (m : Model K) (d : Nat → Nat → K) : K :=
  ∑ k ∈ Finset.range m.sizes.length, (m.dynamics[k]?).elim 0 fun A => A.asymmetry (d k)

/-- The dynamics of each clique is positive definite, up to its asymmetry. -/
def DefiniteUpToAsymmetry (m : Model K) : Prop :=
  ∀ A ∈ m.dynamics, ∀ w : Nat → K, (∃ i < A.rows, w i ≠ 0) →
    0 < form A.rows A.get w + A.asymmetry w

/-- The dynamics of each clique is positive definite. -/
def Definite (m : Model K) : Prop :=
  ∀ A ∈ m.dynamics, ∀ w : Nat → K, (∃ i < A.rows, w i ≠ 0) → 0 < form A.rows A.get w

/-- Symmetric dynamics have no asymmetry, -/
theorem Symmetric.asymmetry_eq_zero (hm : m.Symmetric) (d : Nat → Nat → K) :
    m.asymmetry d = 0 := by
  refine Finset.sum_eq_zero fun k _ => ?_
  cases hA : m.dynamics[k]? with
  | none => rfl
  | some A => exact (hm A (List.mem_of_getElem? hA)).asymmetry_eq_zero (d k)

/-- so they are definite where they are so up to it. -/
theorem Symmetric.definite (hm : m.Symmetric) (h : m.DefiniteUpToAsymmetry) : m.Definite := by
  intro A hA w hw
  have hpos := h A hA w hw
  rwa [(hm A hA).asymmetry_eq_zero, add_zero] at hpos

namespace DefiniteUpToAsymmetry

/-- The summand of a clique. -/
theorem summand_pos (hm : m.DefiniteUpToAsymmetry) {k i : Nat} {w : Nat → K}
    (hi : i < m.sizes.getD k 0) (hne : w i ≠ 0) :
    0 < form (m.sizes.getD k 0) (entryOf m.dynamics k) w +
      (m.dynamics[k]?).elim 0 fun A => A.asymmetry w := by
  have hk : k < m.dynamics.length := by
    have hlt := lt_length_of_lt_size hi
    rwa [sizes, List.length_map] at hlt
  have hA : m.dynamics[k]? = some m.dynamics[k] := List.getElem?_eq_getElem hk
  rw [getD_sizes_of_dynamics hA] at hi ⊢
  rw [entryOf_of_getElem? hA, hA]
  exact hm _ (List.getElem_mem hk) w ⟨i, hi, hne⟩

/-- No summand is negative, also where the velocities of the clique vanish. -/
theorem summand_nonneg (hm : m.DefiniteUpToAsymmetry) (k : Nat) (w : Nat → K) :
    0 ≤ form (m.sizes.getD k 0) (entryOf m.dynamics k) w +
      (m.dynamics[k]?).elim 0 fun A => A.asymmetry w := by
  by_cases hw : ∃ i < m.sizes.getD k 0, w i ≠ 0
  · obtain ⟨i, hi, hne⟩ := hw
    exact (hm.summand_pos hi hne).le
  -- where the velocities of a clique vanish, both terms of its summand do
  · have hzero : ∀ i < m.sizes.getD k 0, w i = 0 := fun i hi => by
      by_contra hne
      exact hw ⟨i, hi, hne⟩
    rw [form_eq_zero _ hzero, zero_add]
    cases hA : m.dynamics[k]? with
    | none => exact le_rfl
    | some A =>
      rw [getD_sizes_of_dynamics hA] at hzero
      exact (A.asymmetry_of_zero hzero).ge

/-- Up to the asymmetry no energy is negative. -/
theorem energy_nonneg (hm : m.DefiniteUpToAsymmetry) (d : Nat → Nat → K) :
    0 ≤ m.energy d + m.asymmetry d := by
  rw [energy, asymmetry, ← Finset.sum_add_distrib]
  exact Finset.sum_nonneg fun k _ => hm.summand_nonneg k (d k)

/-- Velocities that do not vanish have energy. -/
theorem energy_pos (hm : m.DefiniteUpToAsymmetry) {d : Nat → Nat → K} {k i : Nat}
    (hi : i < m.sizes.getD k 0) (hne : d k i ≠ 0) : 0 < m.energy d + m.asymmetry d := by
  rw [energy, asymmetry, ← Finset.sum_add_distrib]
  exact Finset.sum_pos' (fun k _ => hm.summand_nonneg k (d k))
    ⟨k, Finset.mem_range.mpr (lt_length_of_lt_size hi), hm.summand_pos hi hne⟩

end DefiniteUpToAsymmetry

/-- Velocities that vanish have no energy. -/
theorem energy_add_asymmetry_of_zero {d : Nat → Nat → K} (hd : ∀ k i, d k i = 0) :
    m.energy d + m.asymmetry d = 0 := by
  rw [energy, asymmetry, ← Finset.sum_add_distrib]
  refine Finset.sum_eq_zero fun k _ => ?_
  rw [form_eq_zero _ fun i _ => hd k i, zero_add]
  cases m.dynamics[k]? with
  | none => rfl
  | some A => exact A.asymmetry_of_zero fun i _ => hd k i

/-- How far velocities are from those of free motion. -/
def departure (m : Model K) (v : Vec K) (k i : Nat) : K :=
  v.coord Reading.exact m.sizes k i - m.vStar.coord Reading.exact m.sizes k i

/-- Velocities that differ from others differ in some component. -/
theorem Fits.exists_ne {w : Vec K} (hv : m.Fits v) (hw : m.Fits w) (hne : v ≠ w) :
    ∃ k i, i < m.sizes.getD k 0 ∧
      v.coord Reading.exact m.sizes k i - w.coord Reading.exact m.sizes k i ≠ 0 := by
  by_contra hall
  refine hne (Vec.ext_get (hv.format.trans hw.format.symm) (hv.size.trans hw.size.symm) ?_)
  intro n hn
  rw [hv.size] at hn
  obtain ⟨k, i, hi, rfl⟩ := exists_offset_add hn
  by_contra hki
  exact hall ⟨k, i, hi, sub_ne_zero.mpr hki⟩

/-- The momentum cost is half the energy of the departure from free motion. -/
theorem WellFormed.exists_momentumCost_eq (h : m.WellFormed ts) (hv : m.Fits v) :
    ∃ x, m.valueAt v .momentumCost = .ok x ∧ x.value = 1 / 2 * m.energy (m.departure v) := by
  obtain ⟨x, hx, hvalue⟩ := h.exists_momentumCost Reading.exact hv
  refine ⟨x, hx, ?_⟩
  rw [← Arith.half_exact]
  exact hvalue

/-- Up to half the asymmetry, the momentum cost is zero at the velocities of free motion and
positive elsewhere. -/
theorem WellFormed.momentumCost_nonneg (h : m.WellFormed ts) (hm : m.DefiniteUpToAsymmetry)
    (hv : m.Fits v) {x : K} (hx : x = 1 / 2 * m.energy (m.departure v)) :
    0 ≤ x + 1 / 2 * m.asymmetry (m.departure v) ∧
      (x + 1 / 2 * m.asymmetry (m.departure v) = 0 ↔ v = m.vStar) := by
  have hhalf : (0 : K) < 1 / 2 := by norm_num
  rw [hx, ← mul_add]
  refine ⟨mul_nonneg hhalf.le (hm.energy_nonneg _), fun hzero => ?_, ?_⟩
  -- other velocities depart somewhere, and the departure has energy
  · by_contra hne
    obtain ⟨k, i, hi, hki⟩ := hv.exists_ne ⟨h.vStar_size, h.vStar_format⟩ hne
    exact (mul_pos hhalf (hm.energy_pos (d := m.departure v) hi hki)).ne' hzero
  · rintro rfl
    rw [energy_add_asymmetry_of_zero fun k i => sub_self _, mul_zero]

/-! ## Models of problems -/

section Built

variable {p : ContactProblem K} {Ls : List (CholeskyFactor K)}

/-- Matrices that are accepted have a positive definite mirrored matrix. -/
theorem Steps.form_mirrored_pos (hp : p.WellFormed) (h : Steps p m Ls) (hroots : m.RootsExact)
    {A : Mat K} (hA : A ∈ m.dynamics) {w : Nat → K} (hw : ∃ i < A.rows, w i ≠ 0) :
    0 < form A.rows A.mirrored w := by
  obtain ⟨k, hk⟩ := List.mem_iff_getElem?.mp hA
  obtain ⟨L, -, -, -, hL⟩ := h.exists_factor hk
  exact Mat.form_mirrored_pos (hp.square A (h.mem_dynamics hA)) hL (hroots A hA L hL) hw

/-- So they are definite up to their asymmetry. -/
theorem Steps.definiteUpToAsymmetry (hp : p.WellFormed) (h : Steps p m Ls)
    (hroots : m.RootsExact) : m.DefiniteUpToAsymmetry := fun A hA w hw =>
  (h.form_mirrored_pos hp hroots hA hw).trans_le (A.form_mirrored_le w)

/-- **Definiteness up to asymmetry.** Let a model be built from a problem, with roots of the pivots
that are square roots, as real ones are. The entries of each of its dynamics matrices differ from
their mirror images by the tolerance at most; the symmetric matrix with the same lower triangle is
positive definite, and the matrix is so up to its asymmetry. The momentum cost has a value at all
velocities. Up to half the asymmetry of the departure from free motion, it is not negative, and it
is zero at the velocities of free motion only.

Where the dynamics matrices are symmetric, they are positive definite, and the same holds of the
momentum cost itself. -/
theorem definite_up_to_asymmetry (hp : p.Constructed) (hm : build? p = .ok m)
    (hf : p.constraints = [] → p.format.isFloating = true) (hroots : m.RootsExact) :
    (∀ A ∈ m.dynamics,
      (∀ i j, i < A.rows → j < A.rows →
        |A.get i j - A.get j i| ≤ 1 / 10 ^ 8 + 1 / 10 ^ 5 * |A.get j i|) ∧
      ∀ w : Nat → K, (∃ i < A.rows, w i ≠ 0) → 0 < form A.rows A.mirrored w) ∧
    m.DefiniteUpToAsymmetry ∧ (m.Symmetric → m.Definite) ∧
    ∀ (v : Vec K) (s : ModelState K (Quantity.Value K)), m.Fits v → s.size = m.velocityCount →
      ∃ x, m.evalAt s .momentumCost (.tensor v.toTensor) = .ok x ∧
        0 ≤ x.value + 1 / 2 * m.asymmetry (m.departure v) ∧
        (x.value + 1 / 2 * m.asymmetry (m.departure v) = 0 ↔ v = m.vStar) ∧
        (m.Symmetric → 0 ≤ x.value ∧ (x.value = 0 ↔ v = m.vStar)) := by
  obtain ⟨Ls, h⟩ := exists_steps hm
  have hwf := hp.wellFormed
  have hdefinite := h.definiteUpToAsymmetry hwf hroots
  refine ⟨fun A hA => ⟨fun i j hi hj => ?_, fun w hw => h.form_mirrored_pos hwf hroots hA hw⟩,
    hdefinite, fun hsymmetric => hsymmetric.definite hdefinite, fun v s hv hs => ?_⟩
  · obtain ⟨k, hk⟩ := List.mem_iff_getElem?.mp hA
    obtain ⟨L, -, hnearly, -⟩ := h.exists_factor hk
    exact Mat.abs_sub_le_of_nearlySymmetric (hwf.square A (h.mem_dynamics hA)) hnearly hi hj
  · have hmodel := Steps.wellFormed hwf (h.floating hwf hf) h
    obtain ⟨x, hx, hvalue⟩ := hmodel.exists_momentumCost_eq hv
    obtain ⟨hnonneg, hzero⟩ := hmodel.momentumCost_nonneg hdefinite hv hvalue
    refine ⟨x, by rw [evalAt_eq hs hv.size follows_momentumCost, hx], hnonneg, hzero,
      fun hsymmetric => ?_⟩
    rw [hsymmetric.asymmetry_eq_zero, mul_zero, add_zero] at hnonneg hzero
    exact ⟨hnonneg, hzero⟩

end Built

/-- The dynamics of the small model are symmetric, so they are definite. -/
theorem definite_up_to_asymmetry_sample :
    ∃ (p : ContactProblem ℚ) (m : Model ℚ), ContactProblem.sample? = .ok p ∧ build? p = .ok m ∧
      m.DefiniteUpToAsymmetry ∧ m.Definite ∧ ∀ v, m.Fits v → ∃ x,
        m.evalAt m.makeState .momentumCost (.tensor v.toTensor) = .ok x ∧ 0 ≤ x.value ∧
          (x.value = 0 ↔ v = m.vStar) := by
  obtain ⟨p, hp, h⟩ := Outcome.exists_of_check (x := ContactProblem.sample?)
    (P := fun p => p.format == .double && (build? p).toOption.any fun m => m.RootsExact &&
      m.Symmetric)
    (by decide +kernel)
  simp only [Bool.and_eq_true, beq_iff_eq] at h
  obtain ⟨hformat, h⟩ := h
  obtain ⟨m, hm, h⟩ := Outcome.exists_of_check h
  simp only [Bool.and_eq_true, decide_eq_true_eq] at h
  obtain ⟨hroots, hsymmetric⟩ := h
  obtain ⟨-, hupto, hdefinite, hcost⟩ := definite_up_to_asymmetry
    (ContactProblem.constructed_sample hp) hm (fun _ => by rw [hformat]; rfl) hroots
  refine ⟨p, m, hp, hm, hupto, hdefinite hsymmetric, fun v hv => ?_⟩
  obtain ⟨x, hx, -, -, hsymm⟩ := hcost v m.makeState hv rfl
  exact ⟨x, hx, hsymm hsymmetric⟩

end Model

namespace ContactProblem

/-- One clique of two velocities, whose dynamics matrix is `((1, 512 + 1/256), (512, 512² + 1))`,
and a constraint that pushes at the first velocity. -/
def tiltedSample? : Except (Error ℚ) (ContactProblem ℚ) := do
  let p ← build? ⟨.double, 1 / 100⟩
    [.tensor ⟨.double, [2, 2], [1, 512 + 1 / 256, 512, 262145], rfl⟩]
    (.tensor (Vec.mk .double [0, 0]).toTensor)
  let law : Law ℚ :=
    { bias := (Term.fixed (.tensor (Vec.mk .double [0]).toTensor)).side
      regularization := (Term.fixed (.tensor (Vec.mk .double [1]).toTensor)).side }
  let c ← Constraint.build? law .nonneg (.tensor (Vec.mk .double [0]).toTensor) 0
    (.tensor ⟨.double, [1, 2], [1, 0], rfl⟩) none none
  p.addAll [c]

end ContactProblem

namespace Model

/-- The difference that the check of symmetry allows grows with the entries, and so does what it
takes away from the form: this matrix is accepted, and its form is negative at `(-512, 1)`. -/
theorem accepted_indefinite :
    ∃ (p : ContactProblem ℚ) (m : Model ℚ), ContactProblem.tiltedSample? = .ok p ∧
      build? p = .ok m ∧ m.RootsExact ∧
      (∃ A ∈ m.dynamics, ∃ w : Nat → ℚ, (∃ i < A.rows, w i ≠ 0) ∧ form A.rows A.get w < 0) ∧
      ∃ x, m.evalAt m.makeState .momentumCost
        (.tensor (Vec.mk .double [-512, 1]).toTensor) = .ok x ∧ x.value < 0 := by
  obtain ⟨p, hp, h⟩ := Outcome.exists_of_check (x := ContactProblem.tiltedSample?)
    (P := fun p => (build? p).toOption.any fun m => m.RootsExact &&
      (m.dynamics.any fun A => A.rows == 2 &&
        form A.rows A.get (fun i => [-512, 1].getD i 0) < 0) &&
      (m.evalAt m.makeState .momentumCost
        (.tensor (Vec.mk .double [-512, 1]).toTensor)).toOption.any fun x => x.value < 0)
    (by decide +kernel)
  obtain ⟨m, hm, h⟩ := Outcome.exists_of_check h
  simp only [Bool.and_eq_true, beq_iff_eq, decide_eq_true_eq, List.any_eq_true] at h
  obtain ⟨⟨hroots, A, hA, hrows, hform⟩, h⟩ := h
  obtain ⟨x, hx, hnegative⟩ := Outcome.exists_of_check h
  refine ⟨p, m, hp, hm, hroots, ⟨A, hA, _, ⟨0, by rw [hrows]; decide, by decide⟩, hform⟩, x, hx, ?_⟩
  exact of_decide_eq_true hnegative

end Model

end ConvexContact
