import Mathlib.Tactic.Linarith
import ConvexContact.Proofs.Arithmetic.Exact
import ConvexContact.Proofs.Linear.Coordinates
import ConvexContact.Linear.Cholesky

/-!
# Definiteness of factored matrices

A factorization reads the lower triangle alone, so what it says is about the symmetric matrix with
that triangle (`Mat.mirrored`). Each step completes a square: the quadratic form of the rows is the
square of what the leading row makes of the vector, plus the form of what is left to factor
(`CholeskyFactor.form_step`). So the mirrored matrix is positive definite, if the roots that were
taken are square roots (`CholeskyFactor.RootsExact`), which the real ones are.

The matrix itself differs from the mirrored one above the diagonal. The check of symmetry bounds the
difference, entry by entry (`Mat.abs_sub_le_of_nearlySymmetric`), and the forms of the two matrices
differ by the asymmetry at most (`Mat.form_mirrored_le`).

Proof shape: `CholeskyFactor.Splits` says of plain functions what one step does to a matrix. That
the program does so is `CholeskyFactor.splits_mirrored`, the only lemma about positions in lists.
The same structure carries solving and coercivity in the files that follow.
-/

namespace ConvexContact

variable {K : Type} [ExactField K]

/-- The quadratic form of `n` rows and columns of entries. -/
def form (n : Nat) (E : Nat → Nat → K) (w : Nat → K) : K :=
  ∑ i ∈ Finset.range n, w i * ∑ j ∈ Finset.range n, E i j * w j

/-- At zero the form vanishes. -/
theorem form_eq_zero {n : Nat} (E : Nat → Nat → K) {w : Nat → K} (h : ∀ i < n, w i = 0) :
    form n E w = 0 :=
  Finset.sum_eq_zero fun i hi => by rw [h i (Finset.mem_range.mp hi), zero_mul]

/-- The form at a unit vector is an entry of the diagonal. -/
theorem form_single {n i : Nat} (hi : i < n) (E : Nat → Nat → K) :
    form n E (fun j => if j = i then 1 else 0) = E i i := by
  simp [form, hi]

namespace CholeskyFactor

/-- The roots that were taken of the pivots are square roots. -/
def RootsExact (L : CholeskyFactor K) : Prop :=
  ∀ a ∈ L.pivots, ExactField.root a * ExactField.root a = a

instance (L : CholeskyFactor K) : Decidable L.RootsExact :=
  inferInstanceAs (Decidable (∀ a ∈ L.pivots, ExactField.root a * ExactField.root a = a))

/-- The real roots of positive pivots are square roots. -/
theorem rootsExact_real {A : Mat ℝ} {L : CholeskyFactor ℝ} (h : ofMat? A = some L) :
    L.RootsExact := fun a ha =>
  Real.mul_self_sqrt (Arith.lt_eq_true_iff.mp (pivots_pos h a ha)).le

/-- A leading row and column `r·(r, c)` is split off the entries `E`, and `F` is left. -/
structure Splits (n : Nat) (E F : Nat → Nat → K) (r : K) (c : Nat → K) : Prop where
  pivot : E 0 0 = r * r
  row : ∀ j < n, E 0 (j + 1) = r * c j
  column : ∀ i < n, E (i + 1) 0 = r * c i
  rest : ∀ i < n, ∀ j < n, E (i + 1) (j + 1) = F i j + c i * c j

/-- **Step.** A leading row is split off by completing the square. -/
theorem form_step {n : Nat} {E F : Nat → Nat → K} {r : K} {c : Nat → K} (h : Splits n E F r c)
    (w : Nat → K) :
    form (n + 1) E w =
      (r * w 0 + ∑ i ∈ Finset.range n, c i * w (i + 1)) ^ 2 + form n F fun i => w (i + 1) := by
  let s := ∑ i ∈ Finset.range n, c i * w (i + 1)
  have htop : ∑ j ∈ Finset.range n, E 0 (j + 1) * w (j + 1) = r * s := by
    rw [Finset.mul_sum]
    refine Finset.sum_congr rfl fun j hj => ?_
    rw [h.row j (Finset.mem_range.mp hj), mul_assoc]
  have hbelow : ∀ i < n, ∑ j ∈ Finset.range (n + 1), E (i + 1) j * w j =
      (∑ j ∈ Finset.range n, F i j * w (j + 1)) + c i * (r * w 0 + s) := by
    intro i hi
    have hinner : ∑ j ∈ Finset.range n, E (i + 1) (j + 1) * w (j + 1) =
        (∑ j ∈ Finset.range n, F i j * w (j + 1)) + c i * s := by
      rw [Finset.mul_sum, ← Finset.sum_add_distrib]
      refine Finset.sum_congr rfl fun j hj => ?_
      rw [h.rest i hi j (Finset.mem_range.mp hj)]
      ring
    rw [Finset.sum_range_succ', hinner, h.column i hi]
    ring
  have hlower : ∑ i ∈ Finset.range n, w (i + 1) * ∑ j ∈ Finset.range (n + 1), E (i + 1) j * w j =
      form n F (fun i => w (i + 1)) + s * (r * w 0 + s) := by
    rw [form, Finset.sum_mul, ← Finset.sum_add_distrib]
    refine Finset.sum_congr rfl fun i hi => ?_
    rw [hbelow i (Finset.mem_range.mp hi)]
    ring
  rw [form, Finset.sum_range_succ', hlower, Finset.sum_range_succ', htop, h.pivot]
  ring

/-- The entries on and below the diagonal of rows, and their mirror images above it. -/
def mirrored (rows : List (List K)) (i j : Nat) : K :=
  (rows.getD (max i j) []).getD (min i j) 0

section Rows

variable {f : Format} {n : Nat} {top : List K} {below : List (List K)} {column : List K}

/-- What is left to factor has a row and a column less. -/
theorem shape_reduce (hbelow : below.length = n) (hcolumn : column.length = n)
    (hwidth : ∀ row ∈ below, row.length = n + 1) :
    (reduce f below column).length = n ∧ ∀ row ∈ reduce f below column, row.length = n := by
  refine ⟨by simp [reduce, hbelow, hcolumn], fun row hrow => ?_⟩
  obtain ⟨k, hk, rfl⟩ := List.getElem_of_mem hrow
  have hk' : k < below.length := by
    rw [reduce, List.length_zipWith] at hk
    exact lt_of_lt_of_le hk (min_le_left _ _)
  simp [reduce, hwidth _ (List.getElem_mem hk'), hcolumn]

/-- What is left to factor has the entries of the rows, less products of entries of the column. -/
theorem getD_reduce (hbelow : below.length = n) (hcolumn : column.length = n)
    (hwidth : ∀ row ∈ below, row.length = n + 1) {i j : Nat} (hi : i < n) (hj : j < n) :
    ((reduce f below column).getD i []).getD j 0 =
      (below.getD i []).getD (j + 1) 0 - column.getD i 0 * column.getD j 0 := by
  have hi' : i < below.length := by rw [hbelow]; exact hi
  have hrow : below[i].length = n + 1 := hwidth _ (List.getElem_mem hi')
  simp [reduce, List.getD_eq_getElem?_getD, hi, hj, hrow, hbelow, hcolumn]

/-- The parts of a factorization that succeeds, where there is a leading row. -/
theorem exists_step {L : CholeskyFactor K} (h : ofRows? f (n + 1) (top :: below) = some L) :
    let r := ExactField.root (top.headD 0)
    let column := below.map fun row => row.headD 0 / r
    0 < top.headD 0 ∧ ∃ rest, ofRows? f n (reduce f below column) = some rest ∧
      L = step (top.headD 0) r column rest := by
  simp only [ofRows?] at h
  split at h
  · rename_i hpivot
    obtain ⟨rest, hrest, rfl⟩ := Option.map_eq_some_iff.mp h
    exact ⟨Arith.lt_eq_true_iff.mp hpivot, rest, hrest, rfl⟩
  · cases h

/-- The roots of a factorization are square roots when the first one is and those of the rest are;
then the first one is not zero. -/
theorem RootsExact.of_step {pivot root : K} {column : List K} {rest : CholeskyFactor K}
    (hL : (step pivot root column rest).RootsExact) (hpivot : 0 < pivot) :
    ExactField.root pivot * ExactField.root pivot = pivot ∧ ExactField.root pivot ≠ 0 ∧
      rest.RootsExact := by
  have hr := hL pivot (List.mem_cons_self)
  refine ⟨hr, fun hzero => ?_, fun a ha => hL a (List.mem_cons_of_mem _ ha)⟩
  rw [hzero, mul_zero] at hr
  exact hpivot.ne hr

/-- A step of the factorization splits off the leading row of the mirrored entries. -/
theorem splits_mirrored (f : Format) (hbelow : below.length = n)
    (hwidth : ∀ row ∈ below, row.length = n + 1) {r : K} (hr : r * r = top.headD 0) (hr0 : r ≠ 0)
    (hcolumn : column = below.map fun row => row.headD 0 / r) :
    Splits n (mirrored (top :: below)) (mirrored (reduce f below column)) r
      fun i => column.getD i 0 := by
  have hlength : column.length = n := by rw [hcolumn, List.length_map, hbelow]
  have hfirst : ∀ i < n, (below.getD i []).getD 0 0 = r * column.getD i 0 := by
    intro i hi
    have hi' : i < below.length := by rw [hbelow]; exact hi
    have hhead : below[i].headD 0 = below[i].getD 0 0 := by cases below[i] <;> rfl
    have hentry : column.getD i 0 = below[i].headD 0 / r := by
      rw [hcolumn, List.getD_eq_getElem _ _ (by rw [List.length_map]; exact hi'), List.getElem_map]
    rw [hentry, mul_div_cancel₀ _ hr0, hhead, List.getD_eq_getElem _ _ hi']
  refine ⟨?_, fun j hj => ?_, fun i hi => ?_, fun i hi j hj => ?_⟩
  · rw [hr]
    cases top <;> rfl
  · simpa [mirrored] using hfirst j hj
  · simpa [mirrored] using hfirst i hi
  · rw [mirrored, mirrored, getD_reduce hbelow hlength hwidth (max_lt hi hj)
      (min_lt_of_left_lt hi), Nat.add_max_add_right, Nat.add_min_add_right, List.getD_cons_succ]
    rcases le_total i j with hij | hji
    · rw [max_eq_right hij, min_eq_left hij]
      ring
    · rw [max_eq_left hji, min_eq_right hji]
      ring

end Rows

/-- **Run.** Rows that have been factored have a positive definite mirrored matrix. -/
theorem form_mirrored_pos {f : Format} {n : Nat} {rows : List (List K)} {L : CholeskyFactor K}
    (hrows : rows.length = n) (hwidth : ∀ row ∈ rows, row.length = n)
    (h : ofRows? f n rows = some L) (hL : L.RootsExact) {w : Nat → K} (hw : ∃ i < n, w i ≠ 0) :
    0 < form n (mirrored rows) w := by
  induction n generalizing rows L w with
  | zero =>
    obtain ⟨i, hi, -⟩ := hw
    exact absurd hi (Nat.not_lt_zero i)
  | succ n ih =>
    obtain ⟨top, below, rfl⟩ := List.exists_cons_of_length_eq_add_one hrows
    obtain ⟨hpivot, rest, hrest, rfl⟩ := exists_step h
    obtain ⟨hr, hr0, hroots⟩ := hL.of_step hpivot
    have hbelow : below.length = n := Nat.succ.inj hrows
    have hwidth' : ∀ row ∈ below, row.length = n + 1 :=
      fun row hrow => hwidth row (List.mem_cons_of_mem _ hrow)
    obtain ⟨hlength, hsquare⟩ := shape_reduce (f := f) hbelow
      ((List.length_map _).trans hbelow) hwidth'
    rw [form_step (splits_mirrored f hbelow hwidth' hr hr0 rfl)]
    by_cases hlater : ∃ i < n, w (i + 1) ≠ 0
    · have hpos := ih hlength hsquare hrest hroots hlater
      exact add_pos_of_nonneg_of_pos (sq_nonneg _) hpos
    · -- only the leading component is left, and its square is positive
      have hzero : ∀ i < n, w (i + 1) = 0 := fun i hi => by
        by_contra hne
        exact hlater ⟨i, hi, hne⟩
      have hlead : w 0 ≠ 0 := by
        obtain ⟨i, hi, hne⟩ := hw
        cases i with
        | zero => exact hne
        | succ i => exact absurd (hzero i (Nat.lt_of_succ_lt_succ hi)) hne
      rw [form_eq_zero _ hzero, add_zero,
        Finset.sum_eq_zero fun i hi => by rw [hzero i (Finset.mem_range.mp hi), mul_zero], add_zero]
      exact sq_pos_of_ne_zero (mul_ne_zero hr0 hlead)

end CholeskyFactor

/-! ## Matrices

The factorization never reads above the diagonal. What it shows is about the mirrored matrix, and
the check of symmetry, which does read there, says how far the two are apart. -/

namespace Mat

variable {A : Mat K}

/-- The symmetric matrix with the entries on and below the diagonal. -/
def mirrored (A : Mat K) (i j : Nat) : K := A.get (max i j) (min i j)

/-- **Definiteness.** A matrix that has been factored has a positive definite mirrored matrix. -/
theorem form_mirrored_pos (hsquare : A.cols = A.rows) {L : CholeskyFactor K}
    (h : CholeskyFactor.ofMat? A = some L) (hL : L.RootsExact) {w : Nat → K}
    (hw : ∃ i < A.rows, w i ≠ 0) : 0 < form A.rows A.mirrored w :=
  CholeskyFactor.form_mirrored_pos A.length_entries
    (fun row hrow => (A.length_row row hrow).trans hsquare) h hL hw

/-- How far a matrix is from its mirrored one, weighted by products of components. -/
def asymmetry (A : Mat K) (w : Nat → K) : K :=
  ∑ i ∈ Finset.range A.rows, ∑ j ∈ Finset.range A.rows,
    if i < j then |A.get i j - A.get j i| * |w i * w j| else 0

/-- A matrix of which each entry is its mirror image. -/
def Symmetric (A : Mat K) : Prop := ∀ i < A.rows, ∀ j < A.rows, A.get i j = A.get j i

instance (A : Mat K) : Decidable A.Symmetric :=
  inferInstanceAs (Decidable (∀ i < A.rows, ∀ j < A.rows, A.get i j = A.get j i))

/-- A symmetric matrix passes the check of symmetry, whatever the tolerance. -/
theorem Symmetric.nearlySymmetric (hA : A.Symmetric) (hsquare : A.cols = A.rows) :
    A.nearlySymmetric = true := by
  rw [Mat.nearlySymmetric, List.all_eq_true]
  intro i hi
  rw [List.all_eq_true]
  intro j hj
  rw [hsquare] at hj
  have heq : Arith.eq (A.get i j) (A.get j i) = true := by
    simp [Arith.eq, hA i (List.mem_range.mp hi) j (List.mem_range.mp hj)]
  rw [close, heq, Bool.true_or]

/-- A symmetric matrix has no asymmetry. -/
theorem Symmetric.asymmetry_eq_zero (hA : A.Symmetric) (w : Nat → K) : A.asymmetry w = 0 := by
  refine Finset.sum_eq_zero fun i hi => Finset.sum_eq_zero fun j hj => ?_
  rw [hA i (Finset.mem_range.mp hi) j (Finset.mem_range.mp hj), sub_self, abs_zero, zero_mul,
    ite_self]

/-- At zero there is no asymmetry to weigh. -/
theorem asymmetry_of_zero (A : Mat K) {w : Nat → K} (hw : ∀ i < A.rows, w i = 0) :
    A.asymmetry w = 0 := by
  refine Finset.sum_eq_zero fun i hi => Finset.sum_eq_zero fun j _ => ?_
  rw [hw i (Finset.mem_range.mp hi), zero_mul, abs_zero, mul_zero, ite_self]

/-- The form of a matrix differs from that of the mirrored one by its asymmetry at most. -/
theorem form_mirrored_le (A : Mat K) (w : Nat → K) :
    form A.rows A.mirrored w ≤ form A.rows A.get w + A.asymmetry w := by
  rw [form, form, asymmetry, ← Finset.sum_add_distrib]
  refine Finset.sum_le_sum fun i _ => ?_
  rw [Finset.mul_sum, Finset.mul_sum, ← Finset.sum_add_distrib]
  refine Finset.sum_le_sum fun j _ => ?_
  by_cases hij : i < j
  -- above the diagonal the mirrored entry is the one below it
  · have hle := neg_abs_le ((A.get i j - A.get j i) * (w i * w j))
    rw [abs_mul] at hle
    rw [mirrored, max_eq_right hij.le, min_eq_left hij.le, if_pos hij]
    linarith
  · rw [mirrored, max_eq_left (not_lt.mp hij), min_eq_right (not_lt.mp hij), if_neg hij, add_zero]

/-- Entries that are close differ by the tolerance at most. -/
theorem abs_sub_le_of_close {f : Format} {a b : K} (h : close f a b = true) :
    |a - b| ≤ 1 / 10 ^ 8 + 1 / 10 ^ 5 * |b| := by
  have htenth : ∀ n : Nat, (Arith.tenth n : K) = 1 / 10 ^ n := by
    intro n
    change (1 : K) / ((10 ^ n : Nat) : K) = 1 / 10 ^ n
    rw [Nat.cast_pow]
    rfl
  rw [close, Bool.or_eq_true, Bool.and_eq_true] at h
  rcases h with h | ⟨-, h⟩
  -- entries that are equal are close whatever the tolerance
  · rw [Arith.eq, Bool.and_eq_true, Arith.le_eq_true_iff, Arith.le_eq_true_iff] at h
    rw [le_antisymm h.1 h.2, sub_self, abs_zero]
    positivity
  · simp only [Arith.abs_exact, htenth, Arith.cast_exact, Arith.subIn_exact, Arith.addIn_exact,
      Arith.mulIn_exact, Arith.le_eq_true_iff, abs_mul] at h
    rwa [abs_of_pos (by positivity : (0 : K) < 1 / 10 ^ 5)] at h

/-- **Symmetry.** The check bounds how far entries are from their mirror images. -/
theorem abs_sub_le_of_nearlySymmetric (hsquare : A.cols = A.rows) (h : A.nearlySymmetric = true)
    {i j : Nat} (hi : i < A.rows) (hj : j < A.rows) :
    |A.get i j - A.get j i| ≤ 1 / 10 ^ 8 + 1 / 10 ^ 5 * |A.get j i| := by
  rw [nearlySymmetric, List.all_eq_true] at h
  have hrow := List.all_eq_true.mp (h i (List.mem_range.mpr hi)) j
    (List.mem_range.mpr (by rw [hsquare]; exact hj))
  exact abs_sub_le_of_close hrow

end Mat

end ConvexContact
