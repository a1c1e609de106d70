import Mathlib.LinearAlgebra.Matrix.NonsingularInverse
import ConvexContact.Proofs.Linear.Definiteness

/-!
# Solving with a factor

A factorization splits one leading row after the other off a matrix, and its two substitutions undo
this one step at a time: down the steps each unknown is divided by the root, and back up what the
later unknowns contribute is taken away. If the roots are square roots, what comes out solves the
equations of the mirrored matrix (`CholeskyFactor.solve_mirrored`), so for a symmetric matrix it
solves those of the matrix itself, which has an inverse then (`Mat.Symmetric.matrix_solveColumns`).
-/

namespace ConvexContact

variable {K : Type} [ExactField K]

namespace CholeskyFactor

/-- **Step.** With the unknowns `x 1, x 2, …` of the rows that are left, `x 0` solves the leading
row, and then all of them solve the others. -/
theorem Splits.solve {n : Nat} {E F : Nat → Nat → K} {r : K} {c b x : Nat → K} {y : K}
    (h : Splits n E F r c) (hy : r * y = b 0)
    (hx : r * x 0 + ∑ j ∈ Finset.range n, c j * x (j + 1) = y)
    (hrest : ∀ i < n, ∑ j ∈ Finset.range n, F i j * x (j + 1) = b (i + 1) - c i * y) :
    ∀ i < n + 1, ∑ j ∈ Finset.range (n + 1), E i j * x j = b i := by
  intro i hi
  rw [Finset.sum_range_succ']
  cases i with
  | zero =>
    have hrow : ∑ j ∈ Finset.range n, E 0 (j + 1) * x (j + 1) =
        r * ∑ j ∈ Finset.range n, c j * x (j + 1) := by
      rw [Finset.mul_sum]
      refine Finset.sum_congr rfl fun j hj => ?_
      rw [h.row j (Finset.mem_range.mp hj), mul_assoc]
    rw [hrow, h.pivot, ← hy, ← hx]
    ring
  | succ i =>
    have hi' : i < n := Nat.lt_of_succ_lt_succ hi
    have hrow : ∑ j ∈ Finset.range n, E (i + 1) (j + 1) * x (j + 1) =
        ∑ j ∈ Finset.range n, F i j * x (j + 1) +
          c i * ∑ j ∈ Finset.range n, c j * x (j + 1) := by
      rw [Finset.mul_sum, ← Finset.sum_add_distrib]
      refine Finset.sum_congr rfl fun j hj => ?_
      rw [h.rest i hi' j (Finset.mem_range.mp hj)]
      ring
    rw [hrow, hrest i hi', h.column i hi', ← hx]
    ring

/-- The inner product of two lists of one length. -/
theorem dot_eq_sum (f : Format) {n : Nat} {xs ys : List K} (hx : xs.length = n)
    (hy : ys.length = n) :
    Arith.dot f xs ys = ∑ j ∈ Finset.range n, xs.getD j 0 * ys.getD j 0 := by
  have hdot : Arith.dot f xs ys = (List.zipWith (fun x y => x * y) xs ys).sum :=
    Reading.exact.map_dot f xs ys
  rw [hdot, ← List.map_id (List.zipWith _ xs ys), sum_map_eq_sum_range id _ 0,
    List.length_zipWith, hx, hy, Nat.min_self]
  refine Finset.sum_congr rfl fun j hj => ?_
  have hj' := Finset.mem_range.mp hj
  simp [List.getD_eq_getElem?_getD, hx, hy, hj']

/-- **Run.** Substitution with the factor of rows solves the equations of their mirrored matrix. -/
theorem solve_mirrored {f g : Format} {n : Nat} {rows : List (List K)} {L : CholeskyFactor K}
    (hrows : rows.length = n) (hwidth : ∀ row ∈ rows, row.length = n)
    (h : ofRows? f n rows = some L) (hL : L.RootsExact) {b : List K} (hb : b.length = n) :
    (L.solve g b).length = n ∧ ∀ i < n,
      ∑ j ∈ Finset.range n, mirrored rows i j * (L.solve g b).getD j 0 = b.getD i 0 := by
  induction n generalizing rows L b with
  | zero =>
    obtain rfl : done = L := by simpa [ofRows?] using h
    exact ⟨rfl, fun i hi => absurd hi (Nat.not_lt_zero i)⟩
  | succ n ih =>
    obtain ⟨top, below, rfl⟩ := List.exists_cons_of_length_eq_add_one hrows
    obtain ⟨b, bs, rfl⟩ := List.exists_cons_of_length_eq_add_one hb
    obtain ⟨hpivot, rest, hrest, rfl⟩ := exists_step h
    obtain ⟨hr, hr0, hroots⟩ := hL.of_step hpivot
    have hbelow : below.length = n := Nat.succ.inj hrows
    have hbs : bs.length = n := Nat.succ.inj hb
    have hwidth' : ∀ row ∈ below, row.length = n + 1 :=
      fun row hrow => hwidth row (List.mem_cons_of_mem _ hrow)
    generalize hr' : ExactField.root (top.headD 0) = r at *
    generalize hcolumn : (below.map fun row => row.headD 0 / r) = column at *
    have hsize : column.length = n := by rw [← hcolumn, List.length_map, hbelow]
    obtain ⟨hlength, hsquare⟩ := shape_reduce (f := f) hbelow hsize hwidth'
    have hsplits := splits_mirrored f hbelow hwidth' hr hr0 hcolumn.symm
    -- what is left on the right once `y` has been solved for in the leading row
    let y := b / r
    let bs' := List.zipWith (fun b c => b - c * y) bs column
    have hbs' : bs'.length = n := by simp [bs', hbs, hsize]
    obtain ⟨hsolved, hequations⟩ := ih hlength hsquare hrest hroots hbs'
    have hsolve : (step (top.headD 0) r column rest).solve g (b :: bs) =
        (y - Arith.dot g column (rest.solve g bs')) / r :: rest.solve g bs' := rfl
    rw [hsolve]
    refine ⟨by simp [hsolved], hsplits.solve (y := y) (mul_div_cancel₀ b hr0) ?_ fun i hi => ?_⟩
    -- the leading row is solved for last, and the others by induction
    · rw [List.getD_cons_zero, mul_div_cancel₀ _ hr0, dot_eq_sum g hsize hsolved]
      simp
    · have hget : bs'.getD i 0 = bs.getD i 0 - column.getD i 0 * y := by
        simp [bs', List.getD_eq_getElem?_getD, hbs, hsize, hi]
      have hrow := hequations i hi
      rw [hget] at hrow
      simpa using hrow

end CholeskyFactor

/-! ## Matrices -/

namespace Mat

variable {A B : Mat K} {L : CholeskyFactor K}

/-- A symmetric matrix is its mirrored one. -/
theorem Symmetric.mirrored_eq (hA : A.Symmetric) {i j : Nat} (hi : i < A.rows) (hj : j < A.rows) :
    A.mirrored i j = A.get i j := by
  rw [mirrored]
  rcases le_total i j with hij | hji
  · rw [max_eq_right hij, min_eq_left hij, hA j hj i hi]
  · rw [max_eq_left hji, min_eq_right hji]

/-- **Solving.** A symmetric matrix times what is solved for columns with its factor is these
columns. -/
theorem Symmetric.product_solveColumns (hA : A.Symmetric) (hsquare : A.cols = A.rows)
    (h : CholeskyFactor.ofMat? A = some L) (hL : L.RootsExact) (hB : B.rows = A.rows) {i j : Nat}
    (hi : i < A.rows) (hj : j < B.cols) :
    ∑ k ∈ Finset.range A.rows, A.get i k * (L.solveColumns B).get k j = B.get i j := by
  let b := (List.range B.rows).map fun k => B.get k j
  have hb : b.length = A.rows := by simp [b, hB]
  obtain ⟨-, hequations⟩ := CholeskyFactor.solve_mirrored (g := B.format) A.length_entries
    (fun row hrow => (A.length_row row hrow).trans hsquare) h hL hb
  have hentry : ∀ k < A.rows, (L.solveColumns B).get k j = (L.solve B.format b).getD k 0 := by
    intro k hk
    rw [CholeskyFactor.solveColumns, get_ofFn _ _ (by rw [hB]; exact hk) hj]
    simp [transpose, ofFn, b, List.getD_eq_getElem?_getD, hj]
  have hright : b.getD i 0 = B.get i j := by
    simp [b, List.getD_eq_getElem?_getD, hB, hi]
  rw [← hright, ← hequations i hi]
  refine Finset.sum_congr rfl fun k hk => ?_
  rw [hentry k (Finset.mem_range.mp hk), ← hA.mirrored_eq hi (Finset.mem_range.mp hk)]
  rfl

/-- The entries of a matrix as a matrix of `m` rows and `n` columns. -/
def matrix (A : Mat K) (m n : Nat) : Matrix (Fin m) (Fin n) K := Matrix.of fun i j => A.get i j

section Inverse

variable {n k : Nat} (hA : A.Symmetric) (hrows : A.rows = n) (hcols : A.cols = n)
  (h : CholeskyFactor.ofMat? A = some L) (hL : L.RootsExact)

include hA hrows hcols h hL

/-- The same as an equation between matrices. -/
theorem Symmetric.matrix_mul_solveColumns (hB : B.rows = n) (hk : B.cols = k) :
    A.matrix n n * (L.solveColumns B).matrix n k = B.matrix n k := by
  subst hrows hk
  ext i j
  rw [Matrix.mul_apply, matrix, matrix, matrix]
  simp only [Matrix.of_apply]
  rw [Fin.sum_univ_eq_sum_range fun a => A.get i a * (L.solveColumns B).get a j]
  exact hA.product_solveColumns hcols h hL hB i.isLt j.isLt

/-- A symmetric matrix with a factor has an inverse: the columns of the identity can be solved
for. -/
theorem Symmetric.isUnit_matrix : IsUnit (A.matrix n n) := by
  have hone : (identity A.format n : Mat K).matrix n n = 1 := by
    ext i j
    rw [matrix, Matrix.of_apply, identity, get_ofFn _ _ i.isLt j.isLt, Matrix.one_apply]
    simp only [Fin.ext_iff]
  refine IsUnit.of_mul_eq_one ((L.solveColumns (identity A.format n)).matrix n n) ?_
  exact (hA.matrix_mul_solveColumns hrows hcols h hL rfl rfl).trans hone

/-- **Inverse.** Solving for columns multiplies them by the inverse. -/
theorem Symmetric.matrix_solveColumns (hB : B.rows = n) (hk : B.cols = k) :
    (L.solveColumns B).matrix n k = (A.matrix n n)⁻¹ * B.matrix n k := by
  have hdet := (Matrix.isUnit_iff_isUnit_det _).mp (hA.isUnit_matrix hrows hcols h hL)
  rw [← hA.matrix_mul_solveColumns hrows hcols h hL hB hk,
    Matrix.nonsing_inv_mul_cancel_left _ _ hdet]

end Inverse

end Mat

end ConvexContact
