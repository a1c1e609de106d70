import ConvexContact.Proofs.Constraint.Differentiation
import ConvexContact.Proofs.Linear.Definiteness

/-!
# Multiples of the identity

The matrices of particles are multiples of the identity (`Mat.IsMultiple`). They stay so when they
are scaled and stored, they are symmetric to the last digit, and against a vector they act as the
number. A positive multiple has a Cholesky factor, whatever the root of a number is taken to be: the
columns below the pivots are zero, and so is what they take away.
-/

namespace ConvexContact

/-- A list against equal entries. -/
theorem zipWith_replicate_right {α β γ : Type} (f : α → β → γ) (xs : List α) (b : β) :
    List.zipWith f xs (List.replicate xs.length b) = xs.map (f · b) := by
  induction xs with
  | nil => rfl
  | cons x xs ih => rw [List.length_cons, List.replicate_succ, List.zipWith_cons_cons, ih, List.map]

variable {K : Type} [ExactField K]

/-! ## Factors

By induction on the size. The column below the pivot is zero, so what is left to factor is the
same multiple of the next smaller identity. -/

namespace CholeskyFactor

/-- The rows of a multiple of the identity. -/
def multipleRows (n : Nat) (x : K) : List (List K) :=
  (List.range n).map fun i => (List.range n).map fun j => if i = j then x else 0

/-- There are as many rows as the size says. -/
theorem length_multipleRows (n : Nat) (x : K) : (multipleRows n x).length = n := by
  simp [multipleRows]

/-- Every row has as many entries as there are rows. -/
theorem length_of_mem_multipleRows {n : Nat} {x : K} {row : List K} (h : row ∈ multipleRows n x) :
    row.length = n := by
  obtain ⟨i, -, rfl⟩ := List.mem_map.mp h
  simp

/-- The first row begins with the number, and below it there are zeros. -/
theorem multipleRows_succ (n : Nat) (x : K) :
    multipleRows (n + 1) x = (x :: List.replicate n 0) :: (multipleRows n x).map (List.cons 0) := by
  simp [multipleRows, List.range_succ_eq_map, List.map_const', Function.comp_def]

/-- **Step.** A column of zeros takes nothing away. -/
theorem reduce_zeros (f : Format) {rows : List (List K)}
    (h : ∀ row ∈ rows, row.length = rows.length) :
    reduce f (rows.map (List.cons 0)) (List.replicate rows.length 0) = rows := by
  have hrow : ∀ row ∈ rows, List.zipWith (fun x d => Arith.subIn f x (Arith.mulIn f 0 d)) row
      (List.replicate rows.length 0) = row := by
    intro row hrow
    rw [← h row hrow, zipWith_replicate_right]
    simp
  rw [reduce, List.zipWith_map_left, zipWith_replicate_right]
  exact (List.map_congr_left hrow).trans (List.map_id _)

/-- **Run.** A positive multiple of the identity is factored to the end. -/
theorem exists_ofRows?_multipleRows (f : Format) {x : K} (hx : 0 < x) (n : Nat) :
    ∃ L, ofRows? f n (multipleRows n x) = some L := by
  induction n with
  | zero => exact ⟨done, rfl⟩
  | succ n ih =>
    obtain ⟨L, hL⟩ := ih
    have hcolumn : ((multipleRows n x).map (List.cons 0)).map
        (fun row => Arith.divIn f (row.headD 0) (Arith.cast f (Arith.sqrt x))) =
          List.replicate (multipleRows n x).length 0 := by
      rw [List.map_map, ← List.map_const]
      exact List.map_congr_left fun row _ => zero_div _
    have hlength : ∀ row ∈ multipleRows n x, row.length = (multipleRows n x).length := by
      intro row hrow
      rw [length_of_mem_multipleRows hrow, length_multipleRows]
    have hpivot : Arith.lt 0 ((x :: List.replicate n 0).headD 0) = true :=
      Arith.lt_eq_true_iff.mpr hx
    rw [multipleRows_succ, ofRows?]
    dsimp only
    rw [if_pos hpivot, List.headD_cons, hcolumn, reduce_zeros f hlength, hL]
    exact ⟨_, rfl⟩

end CholeskyFactor

/-! ## Matrices -/

namespace Mat

/-- A number times the identity of size `n`. -/
structure IsMultiple (A : Mat K) (n : Nat) (x : K) : Prop where
  rows : A.rows = n
  cols : A.cols = n
  get : ∀ i < n, ∀ j < n, A.get i j = if i = j then x else 0

namespace IsMultiple

variable {A : Mat K} {n : Nat} {x : K}

/-- The identity is the multiple by one. -/
theorem identity (f : Format) (n : Nat) : (identity f n : Mat K).IsMultiple n 1 :=
  ⟨rfl, rfl, fun _ hi _ hj => get_ofFn _ _ hi hj⟩

/-- The number is scaled with the matrix. -/
theorem scale (h : A.IsMultiple n x) (c : K) : (A.scale c).IsMultiple n (c * x) := by
  refine ⟨h.rows, h.cols, fun i hi j hj => ?_⟩
  have hi' : i < A.entries.length := by rw [A.length_entries, h.rows]; exact hi
  have hj' : j < A.entries[i].length := by
    rw [A.length_row _ (List.getElem_mem hi'), h.cols]
    exact hj
  have hget : (A.scale c).get i j = c * A.get i j := by
    simp [Mat.scale, Mat.map, Mat.get, List.getD_eq_getElem?_getD, hi', hj']
  rw [hget, h.get i hi j hj]
  split <;> simp

/-- Exact matrices are stored as they are. -/
theorem cast (h : A.IsMultiple n x) (f : Format) : (A.cast f).IsMultiple n x :=
  ⟨h.rows, h.cols, fun i hi j hj =>
    (map_get_cast Reading.exact f A i j).trans (h.get i hi j hj)⟩

/-- Against a vector the matrix is the number. -/
theorem sum_mul (h : A.IsMultiple n x) (y : Nat → K) {i : Nat} (hi : i < n) :
    ∑ j ∈ Finset.range n, A.get i j * y j = x * y i :=
  sum_diagonal_mul y hi fun j hj => h.get i hi j hj

/-- So is its transpose. -/
theorem sum_mul_col (h : A.IsMultiple n x) (y : Nat → K) {j : Nat} (hj : j < n) :
    ∑ i ∈ Finset.range n, A.get i j * y i = x * y j :=
  sum_diagonal_mul y hj fun i hi => (h.get i hi j hj).trans (by simp only [eq_comm])

/-- A matrix that acts as a number is the multiple. -/
theorem of_mulVec (hrows : A.rows = n) (hcols : A.cols = n) {f : Format}
    (h : ∀ w : Vec K, w.size = n → w.format = f → ∀ i < n, (A.mulVec w).get i = x * w.get i) :
    A.IsMultiple n x := by
  refine ⟨hrows, hcols, fun i hi j hj => ?_⟩
  -- the matrix takes the unit vector to its column
  let e : Vec K := ⟨f, (List.range n).map fun k => if k = j then 1 else 0⟩
  have he : ∀ k < n, e.get k = if k = j then 1 else 0 := by
    intro k hk
    simp [e, Vec.get, List.getD_eq_getElem?_getD, hk]
  have hsize : e.size = n := by simp [e, Vec.size]
  have hcolumn := map_get_mulVec Reading.exact (hsize.trans hcols.symm) i
  simp only [Reading.exact_apply, hcols] at hcolumn
  have hsum : ∑ k ∈ Finset.range n, A.get i k * e.get k = A.get i j := by
    rw [Finset.sum_eq_single_of_mem j (Finset.mem_range.mpr hj)]
    · rw [he j hj, if_pos rfl, mul_one]
    · intro k hk hkj
      rw [he k (Finset.mem_range.mp hk), if_neg hkj, mul_zero]
  rw [← hsum, ← hcolumn, h e hsize rfl i hi, he i hi, mul_ite, mul_one, mul_zero]

/-- The entries are the rows that the factorization is about. -/
theorem entries_eq (h : A.IsMultiple n x) : A.entries = CholeskyFactor.multipleRows n x := by
  have hA : A = ofFn A.format n n fun i j => if i = j then x else 0 := by
    refine ext_get rfl h.rows h.cols fun i j hi hj => ?_
    have hi : i < n := by rw [← h.rows]; exact hi
    have hj : j < n := by rw [← h.cols]; exact hj
    rw [get_ofFn _ _ hi hj, h.get i hi j hj]
  rw [hA]
  rfl

/-- No entry differs from its mirror image. -/
theorem nearlySymmetric (h : A.IsMultiple n x) : A.nearlySymmetric = true := by
  have hsymmetric : A.Symmetric := by
    intro i hi j hj
    rw [h.rows] at hi hj
    rw [h.get i hi j hj, h.get j hj i hi]
    simp only [eq_comm]
  exact hsymmetric.nearlySymmetric (h.cols.trans h.rows.symm)

/-- **Factors.** A positive multiple of the identity has a factor. -/
theorem exists_factor (h : A.IsMultiple n x) (hx : 0 < x) :
    ∃ L, CholeskyFactor.ofMat? A = some L := by
  rw [CholeskyFactor.ofMat?, h.rows, h.entries_eq]
  exact CholeskyFactor.exists_ofRows?_multipleRows A.format hx n

/-- A multiple that has a factor is positive, since it is the first pivot. -/
theorem pos_of_factor (h : A.IsMultiple (n + 1) x) {L : CholeskyFactor K}
    (hL : CholeskyFactor.ofMat? A = some L) : 0 < x := by
  rw [CholeskyFactor.ofMat?, h.rows, h.entries_eq, CholeskyFactor.multipleRows_succ,
    CholeskyFactor.ofRows?] at hL
  dsimp only at hL
  split at hL
  · rename_i hpivot
    exact Arith.lt_eq_true_iff.mp hpivot
  · cases hL

end IsMultiple

end Mat

end ConvexContact
