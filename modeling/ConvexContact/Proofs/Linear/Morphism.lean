import ConvexContact.Proofs.Arithmetic.Morphism
import ConvexContact.Proofs.Linear.BlockGrid

/-!
# Vectors, matrices and grids under a morphism

A morphism of arithmetic is applied to every entry. Every operation on vectors, matrices and block
grids can be carried out before or after that, and whether it is refused does not depend on the
entries at all.

There is one lemma per operation, named after it. Where an operation cannot fail it is an equation
between `map φ` of the answer and the answer to what has been mapped. Where it can fail it is stated
with `Outcome.carry`, which also carries the error over; the branches of the checks are the same on
both sides, since sizes and formats are left as they are. Sums and folds go by the induction that
`Outcome.carry_foldlM` and `Outcome.carry_mapM_map` have done once. Entries behind the last are zero
on both sides, because a morphism sends zero to zero.
-/

namespace ConvexContact

variable {L K : Type}

/-! ## Entries -/

namespace Vec

/-- A morphism touches entries only, so sizes stay. -/
@[simp] theorem size_map (f : L → K) (v : Vec L) : (v.map f).size = v.size :=
  List.length_map _

/-- So do formats. -/
@[simp] theorem format_map (f : L → K) (v : Vec L) : (v.map f).format = v.format := rfl

/-- So do shapes. -/
@[simp] theorem shape_map (f : L → K) (v : Vec L) : (v.map f).shape = v.shape :=
  congrArg (fun n => [n]) (size_map f v)

/-- Equal entries are sent to equal entries. -/
theorem map_replicate (f : L → K) (format : Format) (n : Nat) (x : L) :
    (replicate format n x).map f = replicate format n (f x) := by
  simp [replicate, map]

/-- Blocks of a vector whose entries are mapped. -/
theorem block_map (f : L → K) (sizes : List Nat) (v : Vec L) (k : Nat) :
    (v.map f).block sizes k = (v.block sizes k).map f := by
  simp [Vec.block, Vec.map, blockOf, ConvexContact.slice, List.map_take, List.map_drop]

/-- Within the vector entries are mapped one by one, by any function. -/
theorem get_map [Arith L] [Arith K] (f : L → K) {v : Vec L} {i : Nat} (hi : i < v.size) :
    (v.map f).get i = f (v.get i) := by
  have hi' : i < v.entries.length := hi
  simp [Vec.map, Vec.get, List.getD_eq_getElem?_getD, hi']

/-- Whether a tensor is a vector is a matter of its shape. -/
theorem ofTensor?_map (f : L → K) (t : Tensor L) :
    ofTensor? (t.map f) = (ofTensor? t).map (Vec.map f) := by
  rcases t with ⟨format, shape, data, hdata⟩
  match shape with
  | [] => rfl
  | [_] => rfl
  | _ :: _ :: _ => rfl

end Vec

namespace Mat

/-- Matrices with the same rows of entries are equal. -/
theorem ext_entries {A B : Mat K} (hf : A.format = B.format) (hr : A.rows = B.rows)
    (hc : A.cols = B.cols) (h : A.entries = B.entries) : A = B := by
  cases A
  cases B
  subst hf hr hc h
  rfl

/-- A matrix given by its entries is mapped entry by entry. -/
theorem map_ofFn (f : L → K) (format : Format) (rows cols : Nat) (g : Nat → Nat → L) :
    (ofFn format rows cols g).map f = ofFn format rows cols fun i j => f (g i j) := by
  refine ext_entries rfl rfl rfl ?_
  simp [map, ofFn, Function.comp_def]

end Mat

namespace BlockGrid

/-- The blocks under a row are mapped, and keep their columns. -/
theorem row_map (f : L → K) (J : BlockGrid L) (i : Nat) :
    (J.map f).row i = (J.row i).map fun b => (b.1, Mat.map f b.2) := by
  simp only [row, map, List.getD_eq_getElem?_getD, List.getElem?_map]
  cases J.byRow[i]? <;> rfl

/-- The blocks under a column are mapped, and keep their rows. -/
theorem col_map (f : L → K) (J : BlockGrid L) (j : Nat) :
    (J.map f).col j = (J.col j).map fun b => (b.1, Mat.map f b.2) := by
  simp only [col, map, List.getD_eq_getElem?_getD, List.getElem?_map]
  cases J.byCol[j]? <;> rfl

/-- Looking up goes by places, which are not mapped. -/
theorem block?_map (f : L → K) (J : BlockGrid L) (i j : Nat) :
    (J.map f).block? i j = (J.block? i j).map (Mat.map f) := by
  rw [block?, block?, row_map]
  induction J.row i with
  | nil => rfl
  | cons b blocks ih =>
    rw [List.map_cons, List.lookup_cons, List.lookup_cons, ih]
    cases j == b.1 <;> rfl

end BlockGrid

namespace Arith.Hom

variable [Arith L] [Arith K] {φ : L → K} (h : Hom φ)
include h

/-! ## Scalars and vectors -/

/-- Sums of numbers with formats. -/
theorem scalar_add (a b : Scalar L) : (a.add b).map φ = (a.map φ).add (b.map φ) := by
  simp only [Scalar.add, Scalar.map, h.addIn, h.cast]

theorem scalar_half (a : Scalar L) : a.half.map φ = (a.map φ).half := by
  simp only [Scalar.half, Scalar.map, h.mulIn, h.cast, h.half]

theorem vec_get (v : Vec L) (i : Nat) : (v.map φ).get i = φ (v.get i) := h.getD v.entries i

theorem vec_zeros (f : Format) (n : Nat) : (Vec.zeros f n : Vec L).map φ = Vec.zeros f n := by
  rw [Vec.zeros, Vec.map_replicate, h.zero]
  rfl

/-- Entrywise combinations, of which sums, differences and products are cases. The entries are
stored in the joined format first, on both sides. -/
theorem vec_zipIn {op : Format → L → L → L} {op' : Format → K → K → K}
    (hop : ∀ f a b, φ (op f a b) = op' f (φ a) (φ b)) (v w : Vec L) :
    (Vec.zipIn op v w).map φ = Vec.zipIn op' (v.map φ) (w.map φ) := by
  simp only [Vec.zipIn, Vec.map, List.map_zipWith, List.zipWith_map, hop, h.cast]

theorem vec_add (v w : Vec L) : (v.add w).map φ = (v.map φ).add (w.map φ) :=
  h.vec_zipIn h.addIn v w

theorem vec_sub (v w : Vec L) : (v.sub w).map φ = (v.map φ).sub (w.map φ) :=
  h.vec_zipIn h.subIn v w

theorem vec_mul (v w : Vec L) : (v.mul w).map φ = (v.map φ).mul (w.map φ) :=
  h.vec_zipIn h.mulIn v w

/-- A vector of one entry is stretched to the size of the other; this is decided by the sizes alone.
-/
theorem vec_mul? (v w : Vec L) : (v.map φ).mul? (w.map φ) = (v.mul? w).map (Vec.map φ) := by
  have hleft : Vec.replicate v.format w.size (φ (v.get 0)) =
      (Vec.replicate v.format w.size (v.get 0)).map φ := (Vec.map_replicate φ _ _ _).symm
  have hright : Vec.replicate w.format v.size (φ (w.get 0)) =
      (Vec.replicate w.format v.size (w.get 0)).map φ := (Vec.map_replicate φ _ _ _).symm
  simp only [Vec.mul?, Vec.size_map, h.vec_get, Vec.format_map, hleft, hright, ← h.vec_mul]
  split_ifs <;> rfl

theorem vec_neg (v : Vec L) : v.neg.map φ = (v.map φ).neg := by
  simp [Vec.neg, Vec.map, Function.comp_def, h.cast, h.neg]

/-- Differences that may be refused, for the formats or for the sizes. -/
theorem vec_difference (v w : Vec L) :
    Outcome.carry φ (Vec.map φ) (v.difference w) = (v.map φ).difference (w.map φ) := by
  simp only [Vec.difference, Vec.sub?, Vec.format_map, ← h.vec_sub]
  split_ifs <;> rfl

theorem vec_opposite (v : Vec L) :
    Outcome.carry φ (Vec.map φ) v.opposite = (v.map φ).opposite := by
  simp only [Vec.opposite, Vec.neg?, Vec.format_map, ← h.vec_neg]
  split_ifs <;> rfl

theorem vec_sum (v : Vec L) : v.sum.map φ = (v.map φ).sum := by
  simp only [Vec.sum, Scalar.map, h.sum, Vec.map]

theorem vec_norm (v : Vec L) : v.norm.map φ = (v.map φ).norm := by
  simp only [Vec.norm, Scalar.map, h.norm, Vec.map]

theorem vec_dot (v w : Vec L) : (v.dot w).map φ = (v.map φ).dot (w.map φ) := by
  rw [Vec.dot, h.vec_sum, h.vec_mul]
  rfl

/-- The largest entry is found by comparing, and a morphism keeps comparisons. -/
theorem vec_maxAbs (v : Vec L) : v.maxAbs.map φ = (v.map φ).maxAbs := by
  have hlarger : ∀ (xs : List L) (x : L),
      φ (xs.foldl Arith.larger x) = (xs.map φ).foldl Arith.larger (φ x) := by
    intro xs
    induction xs with
    | nil => exact fun x => rfl
    | cons y xs ih =>
      intro x
      rw [List.foldl_cons, ih, h.larger]
      rfl
  have habs : (v.map φ).entries.map Arith.abs = (v.entries.map Arith.abs).map φ := by
    simp [Vec.map, Function.comp_def, h.abs]
  rw [Vec.maxAbs, Vec.maxAbs, habs]
  cases v.entries.map Arith.abs with
  | nil => exact congrArg (Scalar.mk v.format) h.zero
  | cons x xs => exact congrArg (Scalar.mk v.format) (hlarger xs x)

theorem vec_entriesIn (f : Format) (v : Vec L) :
    (v.map φ).entriesIn f = (v.entriesIn f).map φ := by
  unfold Vec.entriesIn
  split_ifs with hf hf' hf'
  · rfl
  · exact absurd hf hf'
  · exact absurd hf' hf
  · simp [Vec.map, Function.comp_def, h.cast]

/-- Joined vectors. The common format comes from the formats of the parts, which are those of their
images. -/
theorem vec_concat (f : Format) (vs : List (Vec L)) :
    (Vec.concat f vs).map φ = Vec.concat f (vs.map (Vec.map φ)) := by
  cases vs with
  | nil => exact h.vec_zeros f 0
  | cons v vs =>
    have hformat : (vs.map (Vec.map φ)).foldl (fun g w => g.join w.format) v.format =
        vs.foldl (fun g w => g.join w.format) v.format := by
      rw [List.foldl_map]
      rfl
    rw [List.map_cons, Vec.concat, Vec.concat, Vec.format_map, hformat, Vec.map, List.map_flatMap,
      ← List.map_cons, List.flatMap_map]
    simp only [h.vec_entriesIn]

/-! ## Matrices -/

/-- Every entry is mapped; outside of the matrix there are zeros on both sides. -/
theorem mat_get (A : Mat L) (i j : Nat) : (A.map φ).get i j = φ (A.get i j) := by
  have hrow : (A.entries.map (List.map φ)).getD i [] = (A.entries.getD i []).map φ := by
    rw [List.getD_eq_getElem?_getD, List.getElem?_map, List.getD_eq_getElem?_getD]
    cases A.entries[i]? <;> rfl
  change ((A.entries.map (List.map φ)).getD i []).getD j 0 = _
  rw [hrow, h.getD]
  rfl

theorem mat_zeros (f : Format) (rows cols : Nat) :
    (Mat.zeros f rows cols : Mat L).map φ = Mat.zeros f rows cols := by
  rw [Mat.zeros, Mat.map_ofFn, Mat.zeros, h.zero]

theorem mat_identity (f : Format) (n : Nat) :
    (Mat.identity f n : Mat L).map φ = Mat.identity f n := by
  simp only [Mat.identity, Mat.map_ofFn, apply_ite φ, h.one, h.zero]

theorem mat_diag (v : Vec L) : (Mat.diag v).map φ = Mat.diag (v.map φ) := by
  have hentry : ∀ i, (v.map φ).entries.getD i 0 = φ (v.entries.getD i 0) := h.getD v.entries
  simp only [Mat.diag, Mat.map_ofFn, apply_ite φ, h.zero, hentry, Vec.size_map, Vec.format_map]

theorem mat_transpose (A : Mat L) : A.transpose.map φ = (A.map φ).transpose := by
  simp only [Mat.transpose, Mat.map_ofFn, h.mat_get]
  rfl

theorem mat_cast (f : Format) (A : Mat L) : (A.cast f).map φ = (A.map φ).cast f := by
  refine Mat.ext_entries rfl rfl rfl ?_
  simp [Mat.cast, Mat.map, Function.comp_def, h.cast]

theorem mat_scaleColumns (A : Mat L) (v : Vec L) :
    (A.scaleColumns v).map φ = (A.map φ).scaleColumns (v.map φ) := by
  simp only [Mat.scaleColumns, Mat.map_ofFn, h.mulIn, h.cast, h.mat_get, h.vec_get]
  rfl

theorem mat_add (A B : Mat L) : (A.add B).map φ = (A.map φ).add (B.map φ) := by
  simp only [Mat.add, Mat.map_ofFn, h.addIn, h.cast, h.mat_get]
  rfl

theorem mat_mulVec (A : Mat L) (v : Vec L) : (A.mulVec v).map φ = (A.map φ).mulVec (v.map φ) := by
  simp [Mat.mulVec, Mat.map, Vec.map, Function.comp_def, h.dot]

/-- A product is made of inner products of rows and columns. -/
theorem mat_product (A B : Mat L) : (A.product B).map φ = (A.map φ).product (B.map φ) := by
  have hcolumns : (B.map φ).transpose.entries = B.transpose.entries.map (List.map φ) := by
    rw [← h.mat_transpose]
    rfl
  refine Mat.ext_entries rfl rfl rfl ?_
  change (A.entries.map fun row => B.transpose.entries.map fun column =>
    Arith.dot A.format row column).map (List.map φ) = (A.entries.map (List.map φ)).map fun row =>
      (B.map φ).transpose.entries.map fun column => Arith.dot A.format row column
  rw [hcolumns]
  simp [Function.comp_def, h.dot]

omit h [Arith L] [Arith K] in
/-- Whether a product is refused depends on formats and sizes. -/
theorem mat_checkProduct (fa fb : Format) (inner outer work : Nat) :
    Outcome.carry φ id (Mat.checkProduct fa fb inner outer work) =
      Mat.checkProduct fa fb inner outer work := by
  unfold Mat.checkProduct
  split_ifs <;> rfl

/-- A product with a vector is refused alike, or carried along. -/
theorem mat_mulVec? (A : Mat L) (v : Vec L) :
    Outcome.carry φ (Vec.map φ) (A.mulVec? v) = (A.map φ).mulVec? (v.map φ) := by
  unfold Mat.mulVec?
  rw [Vec.size_map, ← mat_checkProduct (φ := φ)]
  exact Outcome.carry_map fun _ => h.mat_mulVec A v

/-- A product of matrices is refused alike, or carried along. -/
theorem mat_product? (A B : Mat L) :
    Outcome.carry φ (Mat.map φ) (A.product? B) = (A.map φ).product? (B.map φ) := by
  unfold Mat.product?
  rw [← mat_checkProduct (φ := φ)]
  exact Outcome.carry_map fun _ => h.mat_product A B

/-- The products of matrices with the blocks of a vector. -/
theorem mapM_mulVec? (sizes : List Nat) (v : Vec L) (As : List (Mat L)) :
    Outcome.carry φ (List.map (Vec.map φ))
        (As.zipIdx.mapM fun (A, i) => A.mulVec? (v.block sizes i)) =
      (As.map (Mat.map φ)).zipIdx.mapM fun (A, i) => A.mulVec? ((v.map φ).block sizes i) := by
  refine Outcome.carry_mapM_zipIdx (fun A i => ?_) As
  dsimp only
  rw [h.mat_mulVec?, Vec.block_map]

theorem mat_entryIn (f : Format) (A : Mat L) (i j : Nat) :
    (A.map φ).entryIn f i j = φ (A.entryIn f i j) := by
  simp only [Mat.entryIn, apply_ite φ, h.cast, h.mat_get]
  rfl

/-- A matrix of blocks reads the cell of each place, which is mapped, or zero where there is none.
-/
theorem mat_ofBlocks (f : Format) (heights widths : List Nat) (cells : List (List (Mat L))) :
    (Mat.ofBlocks f heights widths cells).map φ =
      Mat.ofBlocks f heights widths (cells.map (List.map (Mat.map φ))) := by
  have hcell : ∀ a b : Nat, ((cells.map (List.map (Mat.map φ))).getD a [])[b]? =
      ((cells.getD a [])[b]?).map (Mat.map φ) := by
    intro a b
    rw [List.getD_eq_getElem?_getD, List.getElem?_map, List.getD_eq_getElem?_getD]
    cases cells[a]? with
    | none => rfl
    | some row => exact List.getElem?_map
  rw [Mat.ofBlocks, Mat.map_ofFn, Mat.ofBlocks]
  refine congrArg (Mat.ofFn f (total heights) (total widths)) (funext fun i => funext fun j => ?_)
  dsimp only
  rw [hcell]
  cases (cells.getD (locate heights i).1 [])[(locate widths j).1]? with
  | none => exact h.zero
  | some cell => exact (h.mat_entryIn f cell _ _).symm

omit h [Arith L] [Arith K] in
/-- The joined format of blocks is that of their images. -/
theorem mat_joinFormats (f : Format) (As : List (Mat L)) :
    Mat.joinFormats f (As.map (Mat.map φ)) = Mat.joinFormats f As := by
  cases As with
  | nil => rfl
  | cons A As =>
    rw [List.map_cons, Mat.joinFormats, Mat.joinFormats, List.foldl_map]
    rfl

/-! ## Grids -/

/-- The blocks of one line times their parts of a vector, added up. The first product that is
refused ends the line on both sides. -/
theorem grid_accumulate (sizes : List Nat) (x : Vec L) (height : Nat)
    (blocks : List (Nat × Mat L)) :
    Outcome.carry φ (Vec.map φ) (BlockGrid.accumulate sizes x height blocks) =
      BlockGrid.accumulate sizes (x.map φ) height (blocks.map fun b => (b.1, Mat.map φ b.2)) := by
  rw [BlockGrid.accumulate, BlockGrid.accumulate, Vec.format_map, ← h.vec_zeros]
  refine Outcome.carry_foldlM (List.forall₂_map_right_iff.mpr (List.forall₂_same.mpr ?_)) _
  rintro ⟨j, B⟩ - y
  dsimp only
  rw [Vec.block_map, ← h.mat_mulVec?]
  exact Outcome.carry_bind fun p => congrArg Except.ok (h.vec_add y p)

/-- All lines, one after the other. -/
theorem grid_accumulateAll (sizes heights : List Nat) (lists : List (List (Nat × Mat L)))
    (x : Vec L) : Outcome.carry φ (List.map (Vec.map φ))
        ((heights.zip lists).mapM fun (n, blocks) => BlockGrid.accumulate sizes x n blocks) =
      (heights.zip (lists.map (List.map fun b => (b.1, Mat.map φ b.2)))).mapM
        fun (n, blocks) => BlockGrid.accumulate sizes (x.map φ) n blocks := by
  rw [List.zip_map_right]
  exact Outcome.carry_mapM_map (fun p => h.grid_accumulate sizes x p.1 p.2) _

/-- The answers of all lines, joined. -/
theorem grid_productOf (sizes heights : List Nat) (lists : List (List (Nat × Mat L))) (x : Vec L) :
    Outcome.carry φ (Vec.map φ) (BlockGrid.productOf sizes heights lists x) =
      BlockGrid.productOf sizes heights (lists.map (List.map fun b => (b.1, Mat.map φ b.2)))
        (x.map φ) := by
  rw [BlockGrid.productOf, BlockGrid.productOf, ← h.grid_accumulateAll]
  exact Outcome.carry_bind fun pieces => congrArg Except.ok (h.vec_concat x.format pieces)

/-- The product with a grid is carried along, or refused alike. -/
theorem grid_multiply (J : BlockGrid L) (x : Vec L) :
    Outcome.carry φ (Vec.map φ) (J.multiply x) = (J.map φ).multiply (x.map φ) := by
  by_cases hx : x.size = total J.widths
  · have hx' : (x.map φ).size = total (J.map φ).widths := (Vec.size_map φ x).trans hx
    rw [BlockGrid.multiply_eq hx, BlockGrid.multiply_eq hx', h.grid_productOf]
    rfl
  -- a vector of another length is refused with its shape, which is that of its image
  · have hx' : (x.map φ).size ≠ (J.map φ).cols := by rwa [Vec.size_map]
    rw [BlockGrid.multiply, BlockGrid.multiply, if_pos (show x.size ≠ J.cols from hx), if_pos hx',
      Vec.shape_map]
    rfl

/-- So is the product with the transpose, whose lines are the columns with every block transposed.
-/
theorem grid_transposeMultiply (J : BlockGrid L) (y : Vec L) :
    Outcome.carry φ (Vec.map φ) (J.transposeMultiply y) =
      (J.map φ).transposeMultiply (y.map φ) := by
  by_cases hy : y.size = total J.heights
  · have hy' : (y.map φ).size = total (J.map φ).heights := (Vec.size_map φ y).trans hy
    have hcols : (J.map φ).byCol.map (List.map fun b => (b.1, b.2.transpose)) =
        (J.byCol.map (List.map fun b => (b.1, b.2.transpose))).map
          (List.map fun b => (b.1, Mat.map φ b.2)) := by
      simp [BlockGrid.map, Function.comp_def, h.mat_transpose]
    rw [BlockGrid.transposeMultiply_eq hy, BlockGrid.transposeMultiply_eq hy', h.grid_productOf,
      hcols]
    rfl
  · have hy' : (y.map φ).size ≠ (J.map φ).rows := by rwa [Vec.size_map]
    rw [BlockGrid.transposeMultiply, BlockGrid.transposeMultiply,
      if_pos (show y.size ≠ J.rows from hy), if_pos hy', Vec.shape_map]
    rfl

end Arith.Hom

end ConvexContact
