import ConvexContact.Proofs.Constraint.Selection
import ConvexContact.Proofs.Model.Duals
import ConvexContact.Constraint.Spring
import ConvexContact.Model.Dual

/-!
# Projections and their Jacobians

A projection answers with impulses `γ = P(y)` and, when asked, with a Jacobian `D`. On dual numbers
`y + ε·ẏ` its impulses carry a derivative of their own, which the arithmetic of dual numbers finds
without looking at `D`. Most named projections answer with the Jacobian that is meant: the
derivative is `D·ẏ` (`Projection.HasDerivative.differentiates`), also where a component lies on the
edge between moving and resting.

All of these Jacobians but that of a linear map are diagonal. The diagonal says which components
move.

Proof shape: what both runs leave is one structure (`Projection.Differentiates`), built in three
ways. Projections that go component by component need the derivative of a single component
(`tangent_positivePart`, `tangent_clamp`) and are put together by `of_componentwise`; the identity
answers with what it was given; a linear map and a scaling are read in the ring of dual numbers, in
which the product rule is multiplication.
-/

namespace ConvexContact

variable {K : Type}

namespace Projection

/-- The projections whose Jacobian on `n` impulses is their derivative. Those that answer with no
Jacobian, or with one of another shape, are left out, and so are functions of the caller's. -/
def HasDerivative (n : Nat) : Projection K → Prop
  | nonneg | identity | zero | box _ _ | timesR => True
  | identityOn k => k = n
  | linear M => M.rows = n ∧ M.cols = n
  | _ => False

instance (n : Nat) (P : Projection K) : Decidable (P.HasDerivative n) :=
  match P with
  | nonneg | identity | zero | box _ _ | timesR => isTrue trivial
  | identityOn k => inferInstanceAs (Decidable (k = n))
  | linear M => inferInstanceAs (Decidable (M.rows = n ∧ M.cols = n))
  | dropLast | withoutJacobian | wideJacobian | unspecified | rule _ => isFalse id

end Projection

/-- The projection of a spring is the identity on as many impulses as the spring has equations. -/
theorem Spring.projection_of_build [Arith K] {clique : Int} {x : Given K} {k τ : Scalar K}
    {c : Constraint K} (h : Spring.build? clique x k τ = .ok c) :
    c.projection = .identityOn c.equations := by
  obtain ⟨-, -, h⟩ := Outcome.bind_eq_ok.mp h
  split at h
  · cases h
  obtain ⟨t, -, h⟩ := Outcome.bind_eq_ok.mp h
  obtain ⟨c', hc', h⟩ := Outcome.bind_eq_ok.mp h
  obtain ⟨stiffness, -, h⟩ := Outcome.bind_eq_ok.mp h
  obtain ⟨relaxation, -, h⟩ := Outcome.bind_eq_ok.mp h
  obtain rfl := Outcome.pure_eq_ok.mp h
  obtain ⟨g, -, hc'⟩ := Outcome.bind_eq_ok.mp hc'
  obtain ⟨first, -, hc'⟩ := Outcome.bind_eq_ok.mp hc'
  obtain ⟨J, hJ, hc'⟩ := Outcome.bind_eq_ok.mp hc'
  obtain ⟨second, -, hc'⟩ := Outcome.bind_eq_ok.mp hc'
  obtain rfl := Outcome.pure_eq_ok.mp hc'
  -- the Jacobian of a spring is square of size three, whatever the constraint function
  obtain ⟨stored, hstored, hJ⟩ := Outcome.bind_eq_ok.mp hJ
  have hshape : stored.shape = [3, 3] := by
    unfold Given.stored at hstored
    split at hstored
    · rw [← Except.ok.inj hstored]
      rfl
    · cases hstored
  rw [hshape] at hJ
  by_cases hheight : 3 = g.size
  · exact congrArg Projection.identityOn hheight
  · simp only [ne_eq, hheight, not_false_eq_true, if_true] at hJ
    cases hJ

/-- The projection of a spring has a derivative. -/
theorem Spring.hasDerivative_of_build [Arith K] {clique : Int} {x : Given K} {k τ : Scalar K}
    {c : Constraint K} (h : Spring.build? clique x k τ = .ok c) :
    c.projection.HasDerivative c.equations := by
  rw [projection_of_build h]
  exact rfl

/-! ## Diagonal matrices -/

section Diagonal

variable [ExactField K]

/-- A row of which only the entry at `l` counts, against a vector. -/
theorem sum_diagonal_mul {n l : Nat} {E : Nat → K} {d : K} (x : Nat → K) (hl : l < n)
    (hE : ∀ j < n, E j = if l = j then d else 0) : ∑ j ∈ Finset.range n, E j * x j = d * x l := by
  rw [Finset.sum_eq_single_of_mem l (Finset.mem_range.mpr hl) fun j hj hne => ?_]
  · rw [hE l hl, if_pos rfl]
  · rw [hE j (Finset.mem_range.mp hj), if_neg hne.symm, zero_mul]

/-- An entry of a diagonal matrix against a vector. -/
theorem Mat.sum_diag_mul (d : Vec K) (x : Nat → K) {l : Nat} (hl : l < d.size) :
    ∑ j ∈ Finset.range d.size, (Mat.diag d).get l j * x j = d.get l * x l :=
  sum_diagonal_mul x hl fun _ hj => Mat.get_diag d hl hj

/-- An entry of an identity matrix against a vector. -/
theorem Mat.sum_identity_mul (f : Format) (n : Nat) (x : Nat → K) {l : Nat} (hl : l < n) :
    ∑ j ∈ Finset.range n, (Mat.identity f n : Mat K).get l j * x j = x l := by
  rw [sum_diagonal_mul x hl fun j hj => Mat.get_ofFn _ _ hl hj, one_mul]

end Diagonal

/-! ## Derivatives of projections -/

namespace Projection

variable [ExactField K] {P : Projection K} {n : Nat} {y R : Vec K} {z : Vec (Dual K)}

/-- Unprojected impulses `y` of a constraint of `n` equations with regularization `R`, and impulses
`z` that vary around them. -/
structure Varies (n : Nat) (y R : Vec K) (z : Vec (Dual K)) : Prop where
  floating : y.format.isFloating = true
  size : y.size = n
  size_R : R.size = n
  format_R : R.format = y.format
  size_varying : z.size = n
  format_varying : z.format = y.format
  value : ∀ l, l < n → (z.get l).primal = y.get l

/-- What a projection makes of `y`, impulses `γ` and a Jacobian `D`, and of `z`, impulses `δ` whose
derivative is `D` times that of `z`. -/
structure Differentiates (P : Projection K) (n : Nat) (y R : Vec K) (z : Vec (Dual K)) (γ : Vec K)
    (D : Mat K) (δ : Vec (Dual K)) : Prop where
  joint : P.run y R true = .ok (γ, some D)
  varying : P.toDual.run z (R.map Dual.const) false = .ok (δ, none)
  size : γ.size = n
  rows : D.rows = n
  cols : D.cols = n
  format_jacobian : D.format = y.format
  size_varying : δ.size = n
  format_varying : δ.format = y.format
  derivative : ∀ l, l < n →
    (δ.get l).tangent = ∑ j ∈ Finset.range n, D.get l j * (z.get j).tangent

/-! ### Component by component -/

/-- The positive part moves from zero on. -/
theorem tangent_positivePart (x : Dual K) :
    (positivePart x).tangent = indicator (Arith.le 0 x.primal) * x.tangent := by
  have hread := congrArg TrivSqZeroExt.snd (map_positivePart Reading.dual (Dual.isExact K) x)
  have hle : Arith.le (0 : Dual K) x = Arith.le 0 x.primal := rfl
  rw [hle] at hread
  refine hread.trans ?_
  cases Arith.le 0 x.primal with
  | true => exact (one_mul _).symm
  | false => exact (zero_mul _).symm

/-- The bound that a number is brought to does not vary. -/
theorem tangent_nearestBound (lo hi : K) (x : Dual K) :
    (nearestBound (Dual.const lo) (Dual.const hi) x).tangent = 0 := by
  unfold nearestBound
  split_ifs <;> rfl

/-- What lies between two bounds moves, what lies outside is held. -/
theorem tangent_clamp (lo hi : K) (x : Dual K) :
    (clamp (Dual.const lo) (Dual.const hi) x).tangent =
      indicator (Arith.le lo x.primal && Arith.le x.primal hi) * x.tangent := by
  cases hinside : Arith.le lo x.primal && Arith.le x.primal hi with
  -- inside, the edges included: the number stays as it is, and so does its derivative
  | true =>
    obtain ⟨hlo, hhi⟩ := Bool.and_eq_true_iff.mp hinside
    have hnot : ∀ a b : K, Arith.le a b = true → Arith.mayBeLess b a = false := by
      intro a b hab
      exact decide_eq_false (not_lt.mpr (Arith.le_eq_true_iff.mp hab))
    have hclamp : clamp (Dual.const lo) (Dual.const hi) x = x :=
      clamp_of_le hlo hhi (hnot _ _ hlo) (hnot _ _ hhi)
    rw [hclamp]
    exact (one_mul _).symm
  -- outside, and for crossed bounds everywhere: what is answered is a bound
  | false =>
    have hclamp : clamp (Dual.const lo) (Dual.const hi) x =
        Arith.alongside x (nearestBound (Dual.const lo) (Dual.const hi) x) := by
      rw [clamp]
      exact if_neg (by rw [Dual.le_eq, Dual.le_eq]; simp [hinside])
    rw [hclamp, Dual.tangent_alongside, tangent_nearestBound]
    exact (zero_mul _).symm

/-- A projection that goes component by component, where each component moves as its Jacobian
says. -/
theorem Differentiates.of_componentwise {D : Mat K} (h : Varies n y R z)
    (hjoint : P.run y R true = .ok (P.componentwise y, some D))
    (hvarying : P.toDual.run z (R.map Dual.const) false = .ok (P.toDual.componentwise z, none))
    (hformat : P.toDual.formatOf y.format = y.format) (hrows : D.rows = n) (hcols : D.cols = n)
    (hD : D.format = y.format)
    (hderivative : ∀ l, l < n → (P.toDual.component y.format (z.get l)).tangent =
      ∑ j ∈ Finset.range n, D.get l j * (z.get j).tangent) :
    P.Differentiates n y R z (P.componentwise y) D (P.toDual.componentwise z) where
  joint := hjoint
  varying := hvarying
  size := (size_componentwise P y).trans h.size
  rows := hrows
  cols := hcols
  format_jacobian := hD
  size_varying := (size_componentwise _ z).trans h.size_varying
  format_varying := by
    change P.toDual.formatOf z.format = y.format
    rw [h.format_varying, hformat]
  derivative l hl := by
    rw [get_componentwise _ (by rw [h.size_varying]; exact hl), h.format_varying, hformat,
      hderivative l hl]

/-- A mask as Jacobian: components move where the mask is one. -/
theorem sum_mask_mul (h : Varies n y R z) (moving : K → Bool) {l : Nat} (hl : l < n) :
    ∑ j ∈ Finset.range n, (Mat.diag (y.map fun x => indicator (moving x))).get l j *
      (z.get j).tangent = indicator (moving (z.get l).primal) * (z.get l).tangent := by
  have hsize : (y.map fun x => (indicator (moving x) : K)).size = n :=
    (Vec.size_map _ _).trans h.size
  have hmask : (y.map fun x => (indicator (moving x) : K)).get l = indicator (moving (y.get l)) :=
    Vec.get_map _ (by rw [h.size]; exact hl)
  have hsum := Mat.sum_diag_mul (y.map fun x => (indicator (moving x) : K))
    (fun j => (z.get j).tangent) (l := l) (by rw [hsize]; exact hl)
  rw [hsize, hmask, ← h.value l hl] at hsum
  exact hsum

/-! ### All components at once -/

/-- Impulses as they are. -/
theorem Differentiates.of_identity {k : Nat} (hk : k = n) (h : Varies n y R z)
    (hjoint : P.run y R true = .ok (y, some (Mat.identity y.format k)))
    (hvarying : P.toDual.run z (R.map Dual.const) false = .ok (z, none)) :
    P.Differentiates n y R z y (Mat.identity y.format k) z where
  joint := hjoint
  varying := hvarying
  size := h.size
  rows := hk
  cols := hk
  format_jacobian := rfl
  size_varying := h.size_varying
  format_varying := h.format_varying
  derivative l hl := by
    rw [hk]
    exact (Mat.sum_identity_mul _ _ (fun j => (z.get j).tangent) hl).symm

/-- A linear map is its own derivative. -/
theorem differentiates_linear {M : Mat K} (hrows : M.rows = n) (hcols : M.cols = n)
    (h : Varies n y R z) :
    (linear M).Differentiates n y R z ((M.cast y.format).mulVec y) (M.cast y.format)
      (((M.map Dual.const).cast z.format).mulVec z) where
  joint := by
    have hy : (M.cast y.format).mulVec? y = .ok ((M.cast y.format).mulVec y) :=
      Mat.mulVec?_of_fits rfl (hcols.trans h.size.symm) (Model.ne_boolean_of_floating h.floating)
    rw [run_of_named rfl, value, hy]
    rfl
  varying := by
    have hz : ((M.map Dual.const).cast z.format).mulVec? z =
        .ok (((M.map Dual.const).cast z.format).mulVec z) :=
      Mat.mulVec?_of_fits rfl (hcols.trans h.size_varying.symm)
        (Model.ne_boolean_of_floating (by
          change z.format.isFloating = true
          rw [h.format_varying]
          exact h.floating))
    rw [toDual, run_of_named rfl, value, hz]
    rfl
  size := (Mat.size_mulVec _ _).trans hrows
  rows := hrows
  cols := hcols
  format_jacobian := rfl
  size_varying := (Mat.size_mulVec _ _).trans hrows
  format_varying := h.format_varying
  derivative l hl := by
    have hread := Mat.map_get_mulVec Reading.dual (A := (M.map Dual.const).cast z.format) (v := z)
      (h.size_varying.trans hcols.symm) l
    refine (congrArg TrivSqZeroExt.snd hread).trans ?_
    change (∑ j ∈ Finset.range M.cols, Reading.dual (((M.map Dual.const).cast z.format).get l j) *
      Reading.dual (z.get j)).snd = _
    rw [TrivSqZeroExt.snd_sum, hcols]
    apply Finset.sum_congr rfl
    intro j _
    have hcast : (M.cast y.format).get l j = M.get l j := Mat.map_get_cast Reading.exact _ M l j
    rw [Mat.map_get_cast, Mat.get_map_const, hcast, DualNumber.snd_mul]
    change M.get l j * (z.get j).tangent + 0 * (z.get j).primal = _
    rw [zero_mul, add_zero]

/-- Impulses that are scaled by the regularization. -/
theorem differentiates_timesR (h : Varies n y R z) :
    timesR.Differentiates n y R z (y.mul R) (Mat.diag R) (z.mul (R.map Dual.const)) where
  joint := by
    have hy : y.mul? R = some (y.mul R) := if_pos (h.size.trans h.size_R.symm)
    rw [run_of_named rfl, value, hy]
    rfl
  varying := by
    have hz : z.mul? (R.map Dual.const) = some (z.mul (R.map Dual.const)) :=
      if_pos (h.size_varying.trans (h.size_R.symm.trans (Vec.size_map _ _).symm))
    rw [toDual, run_of_named rfl, value, hz]
    rfl
  size := by rw [Vec.size_mul, h.size, h.size_R, Nat.min_self]
  rows := h.size_R
  cols := h.size_R
  format_jacobian := h.format_R
  size_varying := by rw [Vec.size_mul, Vec.size_map, h.size_varying, h.size_R, Nat.min_self]
  format_varying := by
    change z.format.join R.format = y.format
    rw [h.format_varying, h.format_R, Format.join_self]
  derivative l hl := by
    have hsizes : z.size = (R.map Dual.const).size := by
      rw [Vec.size_map, h.size_varying, h.size_R]
    have hread := Vec.map_get_mul Reading.dual hsizes l
    refine (congrArg TrivSqZeroExt.snd hread).trans ?_
    have hsum := Mat.sum_diag_mul R (fun j => (z.get j).tangent) (l := l)
      (by rw [h.size_R]; exact hl)
    rw [h.size_R] at hsum
    rw [hsum, Vec.get_map_const, DualNumber.snd_mul]
    change (z.get l).primal * 0 + (z.get l).tangent * R.get l = _
    rw [mul_zero, zero_add, mul_comm]

/-- **Derivatives.** The Jacobian of a projection that has a derivative is its derivative. -/
theorem HasDerivative.differentiates (hP : P.HasDerivative n) (h : Varies n y R z) :
    ∃ γ D δ, P.Differentiates n y R z γ D δ := by
  have hreal : y.format.real = y.format := if_pos h.floating
  have hmask : ∀ moving : K → Bool, (y.map fun x => (indicator (moving x) : K)).size = n :=
    fun moving => (Vec.size_map _ _).trans h.size
  -- the two masks, then zero, which is a mask that nothing passes
  cases P with
  | nonneg =>
    refine ⟨_, _, _, .of_componentwise h rfl rfl hreal (hmask _) (hmask _) rfl fun l hl => ?_⟩
    refine Eq.trans ?_ (sum_mask_mul h (Arith.le 0) hl).symm
    rw [← Dual.tangent_cast y.format (z.get l)]
    exact tangent_positivePart _
  | box lo hi =>
    refine ⟨_, _, _, .of_componentwise h rfl rfl hreal (hmask _) (hmask _) rfl fun l hl => ?_⟩
    refine Eq.trans ?_ (sum_mask_mul h (fun x => Arith.le lo x && Arith.le x hi) hl).symm
    rw [← Dual.tangent_cast y.format (z.get l)]
    exact tangent_clamp lo hi _
  | zero =>
    refine ⟨_, _, _, .of_componentwise (D := Mat.zeros y.format y.size y.size) h rfl rfl hreal
      h.size h.size rfl fun l hl => ?_⟩
    have hzero : ∀ j ∈ Finset.range n,
        (Mat.zeros y.format y.size y.size).get l j * (z.get j).tangent = 0 := by
      intro j hj
      rw [Mat.zeros, Mat.get_ofFn _ _ (by rw [h.size]; exact hl)
        (by rw [h.size]; exact Finset.mem_range.mp hj), zero_mul]
    rw [Finset.sum_eq_zero hzero]
    refine (Dual.tangent_mulIn y.format (z.get l) 0).trans ?_
    change _ * (0 : K) + _ * (0 : K) = 0
    rw [mul_zero, mul_zero, add_zero]
  | identity => exact ⟨_, _, _, .of_identity h.size h rfl rfl⟩
  | identityOn k => exact ⟨_, _, _, .of_identity hP h rfl rfl⟩
  | linear M => exact ⟨_, _, _, differentiates_linear hP.1 hP.2 h⟩
  | timesR => exact ⟨_, _, _, differentiates_timesR h⟩
  -- these were left out
  | dropLast | withoutJacobian | wideJacobian | unspecified | rule _ => exact hP.elim

end Projection

end ConvexContact
