import ConvexContact.Linear.Mat

/-!
# Cholesky factors

A symmetric positive definite matrix is factored one leading row at a time. With a leading entry
`a > 0` the first row of the factor is `√a`, the first column below it is `c / √a`, and what is left
to factor is the remaining matrix less the outer product of that column with itself.

`CholeskyFactor` keeps the steps in that order, so the factorization, the two triangular
substitutions of `CholeskyFactor.solve` and every proof about them are recursions on the steps. The
factorization reads the lower triangle alone and stops at the first pivot that is not positive.
-/

namespace ConvexContact

/-- The steps of a Cholesky factorization, from the first row to the last. -/
inductive CholeskyFactor (K : Type) where
  /-- nothing left to factor -/
  | done
  /-- a pivot, its square root, the column below the root, and the factor of the rest -/
  | step (pivot root : K) (column : List K) (rest : CholeskyFactor K)

namespace CholeskyFactor

variable {K : Type}

/-- The pivots, whose square roots are the diagonal of the factor. -/
def pivots : CholeskyFactor K → List K
  | done => []
  | step pivot _ _ rest => pivot :: rest.pivots

variable [Arith K]

/-- What is left to factor below a leading row: each remaining row less its multiple of the column
below the root. -/
def reduce (f : Format) (rows : List (List K)) (column : List K) : List (List K) :=
  List.zipWith (fun row c =>
    List.zipWith (fun x d => Arith.subIn f x (Arith.mulIn f c d)) row.tail column) rows column

/-- Factors the `n` leading rows and columns of a list of rows. -/
def ofRows? (f : Format) : Nat → List (List K) → Option (CholeskyFactor K)
  | 0, _ => some done
  | _ + 1, [] => some done
  | n + 1, top :: below =>
    let pivot := top.headD 0
    if Arith.lt 0 pivot then
      let root := Arith.cast f (Arith.sqrt pivot)
      let column := below.map fun row => Arith.divIn f (row.headD 0) root
      (ofRows? f n (reduce f below column)).map (step pivot root column)
    else none

/-- Factors a matrix, if all its pivots are positive. -/
def ofMat? (A : Mat K) : Option (CholeskyFactor K) := ofRows? A.format A.rows A.entries

/-- Solves `L·Lᵀ·x = b` by substitution: down the steps for `L`, back up them for `Lᵀ`. -/
def solve (f : Format) : CholeskyFactor K → List K → List K
  | done, _ => []
  | step _ _ _ _, [] => []
  | step _ root column rest, b :: bs =>
    let y := Arith.divIn f b root
    let below := rest.solve f
      (List.zipWith (fun b c => Arith.subIn f b (Arith.mulIn f c y)) bs column)
    Arith.divIn f (Arith.subIn f y (Arith.dot f column below)) root :: below

/-- Solves for every column of a matrix. -/
def solveColumns (L : CholeskyFactor K) (B : Mat K) : Mat K :=
  let columns := B.transpose.entries.map (L.solve B.format)
  Mat.ofFn B.format B.rows B.cols fun i j => (columns.getD j []).getD i 0

/-- Each pivot of a factorization that succeeds is positive. -/
theorem pivots_pos {f : Format} {n : Nat} {rows : List (List K)} {L : CholeskyFactor K}
    (h : ofRows? f n rows = some L) : ∀ p ∈ L.pivots, Arith.lt 0 p = true := by
  induction n generalizing rows L with
  | zero =>
    obtain rfl : done = L := by simpa [ofRows?] using h
    simp [pivots]
  | succ n ih =>
    cases rows with
    | nil =>
      obtain rfl : done = L := by simpa [ofRows?] using h
      simp [pivots]
    | cons top below =>
      simp only [ofRows?] at h
      split at h
      · rename_i hp
        obtain ⟨rest, hrest, rfl⟩ := Option.map_eq_some_iff.mp h
        intro p hmem
        rcases List.mem_cons.mp hmem with rfl | hmem
        · exact hp
        · exact ih hrest p hmem
      · cases h

end CholeskyFactor

namespace Mat

variable {K : Type} [Arith K]

/-- Whether two numbers are equal, or agree in format `f` within the tolerance `10⁻⁸ + 10⁻⁵·|b|`. -/
def close (f : Format) (a b : K) : Bool :=
  let distance := Arith.abs (Arith.subIn f (Arith.cast f a) (Arith.cast f b))
  let allowed := Arith.addIn f (Arith.cast f (Arith.tenth 8))
    (Arith.abs (Arith.mulIn f (Arith.cast f (Arith.tenth 5)) (Arith.cast f b)))
  Arith.eq a b || (Arith.isFinite distance && Arith.le distance allowed)

/-- Whether every entry agrees with its mirror image within the tolerance. -/
def nearlySymmetric (A : Mat K) : Bool :=
  (List.range A.rows).all fun i =>
    (List.range A.cols).all fun j => close A.format.real (A.get i j) (A.get j i)

end Mat

end ConvexContact
