import Mathlib.Data.List.Perm.Basic
import ConvexContact.Proofs.Arithmetic.Exact
import ConvexContact.Proofs.Linear.GridEntries

/-!
# The order of blocks

In exact arithmetic sums do not depend on the order of their summands. A grid that lists its blocks
in another order under its rows or under its columns therefore has the same products
(`BlockGrid.Lists.multiply_eq_of_perm`, `BlockGrid.Lists.transposeMultiply_eq_of_perm`), and it is
the same matrix (`BlockGrid.SameBlocks`). `BlockGrid.Reorders` is the case in which only the rows
are touched.

Products may also fail. All blocks of a grid have one format, so operands of another format fail
with the same error, whichever block comes first.
-/

namespace ConvexContact

variable {K : Type}

/-! ## Sums -/

section Sums

variable [ExactField K]

/-- Two summands are added in either order, entry by entry and up to the shortest list. -/
theorem zipWith_add_right_comm (xs us vs : List K) :
    List.zipWith (· + ·) (List.zipWith (· + ·) xs us) vs =
      List.zipWith (· + ·) (List.zipWith (· + ·) xs vs) us := by
  induction xs generalizing us vs with
  | nil => simp
  | cons x xs ih =>
    cases us with
    | nil => simp
    | cons u us =>
      cases vs with
      | nil => simp
      | cons v vs => simp [ih, add_right_comm]

/-- Two vectors are added in either order, and the formats are joined in either order. -/
theorem Vec.add_right_comm (y u v : Vec K) : (y.add u).add v = (y.add v).add u := by
  have hformat : (y.format.join u.format).join v.format =
      (y.format.join v.format).join u.format := by
    rw [Format.join_assoc, Format.join_comm u.format, Format.join_assoc]
  simp only [add, zipIn, Arith.addIn_exact, Arith.cast_exact, zipWith_add_right_comm y.entries,
    hformat]

/-- So are two matrices. -/
theorem Mat.add_right_comm (W A B : Mat K) : (W.add A).add B = (W.add B).add A := by
  have hformat : (W.format.join A.format).join B.format =
      (W.format.join B.format).join A.format := by
    rw [Format.join_assoc, Format.join_comm A.format, Format.join_assoc]
  refine ext_get hformat rfl rfl fun i j hi hj => ?_
  have hget : ∀ X Y : Mat K, i < X.rows → j < X.cols →
      (X.add Y).get i j = X.get i j + Y.get i j :=
    fun X Y hX hY => get_ofFn _ _ hX hY
  rw [hget (W.add A) B hi hj, hget (W.add B) A hi hj, hget W A hi hj, hget W B hi hj]
  ring

end Sums

namespace BlockGrid

/-! ## Products of rows -/

section Accumulate

variable [ExactField K] {sizes : List Nat} {x : Vec K} {f : Format}

/-- Blocks of one format that have the sizes of their places are multiplied and added up in any
order, or fail in any order alike. -/
theorem accumulate_perm {blocks blocks' : List (Nat × Mat K)} (h : blocks'.Perm blocks)
    (hx : x.size = total sizes) (hf : f ≠ .boolean)
    (hfits : ∀ b ∈ blocks, b.2.format = f ∧ b.2.cols = sizes.getD b.1 0) (height : Nat) :
    accumulate sizes x height blocks' = accumulate sizes x height blocks := by
  have hfits' : ∀ b ∈ blocks', b.2.format = f ∧ b.2.cols = sizes.getD b.1 0 :=
    fun b hb => hfits b (h.mem_iff.mp hb)
  by_cases hformat : f = x.format
  · have hsum : ∀ bs : List (Nat × Mat K),
        (∀ b ∈ bs, b.2.format = f ∧ b.2.cols = sizes.getD b.1 0) →
        accumulate sizes x height bs = .ok (bs.foldl
          (fun y b => y.add (b.2.mulVec (x.block sizes b.1))) (Vec.zeros x.format height)) := by
      intro bs hbs
      refine Outcome.foldlM_of_forall fun b hb y => ?_
      obtain ⟨hbf, hbc⟩ := hbs b hb
      have hproduct : b.2.mulVec? (x.block sizes b.1) = .ok (b.2.mulVec (x.block sizes b.1)) :=
        Mat.mulVec?_of_fits (hbf.trans hformat) (by rw [hbc, Vec.size_block hx])
          (by rw [hbf]; exact hf)
      exact Outcome.bind_of_ok _ hproduct
    rw [hsum _ hfits', hsum _ hfits]
    exact congrArg _ (h.foldl_eq' (fun b _ c _ y => Vec.add_right_comm y _ _) _)
  -- in another format the first block fails, whichever it is, and there is no first block when
  -- there are none
  · have herror : ∀ b bs, (∀ b' ∈ b :: bs, b'.2.format = f ∧ b'.2.cols = sizes.getD b'.1 0) →
        accumulate sizes x height (b :: bs) = .error .formatMismatch := by
      intro b bs hbs
      have hbf : b.2.format ≠ (x.block sizes b.1).format := by
        rw [(hbs b (by simp)).1]
        exact hformat
      have hproduct : b.2.mulVec? (x.block sizes b.1) = .error .formatMismatch := by
        rw [Mat.mulVec?, Mat.checkProduct, if_pos hbf]
        rfl
      rw [accumulate, List.foldlM_cons]
      simp only [hproduct]
      rfl
    cases blocks with
    | nil => rw [h.eq_nil]
    | cons b bs =>
      cases blocks' with
      | nil => cases h.symm.eq_nil
      | cons b' bs' => rw [herror b bs hfits, herror b' bs' hfits']

end Accumulate

section ProductOf

variable [ExactField K] {sizes heights : List Nat} {lists lists' : List (List (Nat × Mat K))}
  {x : Vec K} {f : Format}

/-- Lists of blocks are multiplied in any order within each list. -/
theorem productOf_perm (h : List.Forall₂ (fun bs bs' => bs'.Perm bs) lists lists')
    (hx : x.size = total sizes) (hf : f ≠ .boolean)
    (hfits : ∀ bs ∈ lists, ∀ b ∈ bs, b.2.format = f ∧ b.2.cols = sizes.getD b.1 0) :
    productOf sizes heights lists' x = productOf sizes heights lists x := by
  refine congrArg (· >>= _) (Outcome.mapM_congr ?_)
  have hlength : lists.length = lists'.length := h.length_eq
  rw [List.forall₂_iff_get]
  refine ⟨by rw [List.length_zip, List.length_zip, hlength], fun i hi hi' => ?_⟩
  simp only [List.get_eq_getElem, List.getElem_zip]
  have hil : i < lists.length := by
    rw [List.length_zip, ← hlength] at hi
    omega
  exact accumulate_perm ((List.forall₂_iff_get.mp h).2 i hil (by omega)) hx hf
    (hfits _ (List.getElem_mem hil)) _

end ProductOf

/-! ## Grids

Rearranging a list of placed blocks rearranges the blocks under each line. Whether a product fails
does not depend on the order either, since all blocks have one format. -/

/-- Two grids of the same sizes with the same blocks at the same places. -/
structure SameBlocks (J J' : BlockGrid K) : Prop where
  format : J'.format = J.format
  heights : J'.heights = J.heights
  widths : J'.widths = J.widths
  block? : ∀ i j, J'.block? i j = J.block? i j

/-- A grid with the same blocks at the same places, which are listed in another order under the
rows. -/
structure Reorders (J J' : BlockGrid K) : Prop where
  format : J'.format = J.format
  heights : J'.heights = J.heights
  widths : J'.widths = J.widths
  byRow : List.Forall₂ (fun row row' => row'.Perm row) J.byRow J'.byRow
  byCol : J'.byCol = J.byCol
  block? : ∀ i j, J'.block? i j = J.block? i j

variable {J J' : BlockGrid K} {ts ts' : List (PlacedBlock K)}

/-- Reordering keeps the blocks in their places. -/
theorem Reorders.sameBlocks (h : J.Reorders J') : J.SameBlocks J' :=
  ⟨h.format, h.heights, h.widths, h.block?⟩

/-- Blocks that are scattered are so in any order. -/
theorem Scattered.perm (hts : Scattered ts) (h : ts'.Perm ts) : Scattered ts' := fun i =>
  (((h.filter _).map PlacedBlock.col).nodup_iff).mpr (hts i)

/-- The blocks under each row are rearranged with all of them. -/
theorem Lists.byRow_perm (hJ : J.Lists ts) (hJ' : J'.Lists ts') (hheights : J'.heights = J.heights)
    (hperm : ts'.Perm ts) : List.Forall₂ (fun row row' => row'.Perm row) J.byRow J'.byRow := by
  have hlength : J.byRow.length = J'.byRow.length := by rw [hJ.rows, hJ'.rows, hheights]
  rw [List.forall₂_iff_get]
  refine ⟨hlength, fun i hi hi' => ?_⟩
  have hrow := hJ.getD_byRow i
  have hrow' := hJ'.getD_byRow i
  rw [List.getD_eq_getElem _ _ hi] at hrow
  rw [List.getD_eq_getElem _ _ hi'] at hrow'
  rw [List.get_eq_getElem, List.get_eq_getElem, hrow, hrow']
  exact (hperm.filter _).map _

/-- The blocks under each column are rearranged with all of them. -/
theorem Lists.byCol_perm (hJ : J.Lists ts) (hJ' : J'.Lists ts') (hwidths : J'.widths = J.widths)
    (hperm : ts'.Perm ts) : List.Forall₂ (fun col col' => col'.Perm col) J.byCol J'.byCol := by
  have hlength : J.byCol.length = J'.byCol.length := by rw [hJ.cols, hJ'.cols, hwidths]
  rw [List.forall₂_iff_get]
  refine ⟨hlength, fun j hj hj' => ?_⟩
  have hcol := hJ.col j
  have hcol' := hJ'.col j
  rw [BlockGrid.col, List.getD_eq_getElem _ _ hj] at hcol
  rw [BlockGrid.col, List.getD_eq_getElem _ _ hj'] at hcol'
  rw [List.get_eq_getElem, List.get_eq_getElem, hcol, hcol']
  exact (hperm.filter _).map _

/-- Rearranged blocks stand where they stood. -/
theorem Lists.sameBlocks (hJ : J.Lists ts) (hJ' : J'.Lists ts') (hformat : J'.format = J.format)
    (hheights : J'.heights = J.heights) (hwidths : J'.widths = J.widths) (hts : Scattered ts)
    (hperm : ts'.Perm ts) : J.SameBlocks J' where
  format := hformat
  heights := hheights
  widths := hwidths
  block? i j := by
    refine Option.ext fun B => ?_
    constructor
    · exact fun h => hJ.block?_of_mem hts (hperm.mem_iff.mp (hJ'.mem_of_block? h))
    · exact fun h => hJ'.block?_of_mem (hts.perm hperm) (hperm.mem_iff.mpr (hJ.mem_of_block? h))

/-- Grids that list their blocks by row and column are reordered when the lists are rearranged
without touching the columns. -/
theorem Lists.reorders (hJ : J.Lists ts) (hJ' : J'.Lists ts') (hformat : J'.format = J.format)
    (hheights : J'.heights = J.heights) (hwidths : J'.widths = J.widths) (hts : Scattered ts)
    (hperm : ts'.Perm ts)
    (hcols : ∀ j, ts'.filter (fun t => t.col = j) = ts.filter fun t => t.col = j) :
    J.Reorders J' where
  format := hformat
  heights := hheights
  widths := hwidths
  byRow := hJ.byRow_perm hJ' hheights hperm
  byCol := by
    have hlength : J'.byCol.length = J.byCol.length := by rw [hJ.cols, hJ'.cols, hwidths]
    refine List.ext_getElem hlength fun j hj hj' => ?_
    have hcol := hJ.col j
    have hcol' := hJ'.col j
    rw [BlockGrid.col, List.getD_eq_getElem _ _ hj'] at hcol
    rw [BlockGrid.col, List.getD_eq_getElem _ _ hj] at hcol'
    rw [hcol, hcol', hcols]
  block? := (hJ.sameBlocks hJ' hformat hheights hwidths hts hperm).block?

namespace SameBlocks

variable [Arith K]

/-- The cells of the dense matrix are looked up place by place. -/
theorem cells_eq (h : J.SameBlocks J') : J'.cells = J.cells := by
  simp only [cells, h.format, h.heights, h.widths, h.block?]

/-- So the dense matrix is the same. -/
theorem toDense_eq (h : J.SameBlocks J') : J'.toDense = J.toDense := by
  simp only [toDense, h.cells_eq, h.format, h.heights, h.widths]

/-- So is the dense tensor, together with whether it can be set up. -/
theorem dense_eq (h : J.SameBlocks J') : J'.dense = J.dense := by
  have hcheck : J'.checkCells = J.checkCells := by
    simp only [checkCells, cols, h.heights, h.widths, h.block?]
  have hwidest : J'.widest = J.widest := by
    simp only [widest, h.format, h.heights, h.widths, h.block?]
  have hrows : J'.rows = J.rows := by rw [rows, rows, h.heights]
  have hcols : J'.cols = J.cols := by rw [cols, cols, h.widths]
  rw [dense, dense, hcheck, hwidest, h.toDense_eq, hrows, hcols]

end SameBlocks

/-- The columns are not touched, so no arithmetic comes in. -/
theorem Reorders.transposeMultiply_eq [Arith K] (h : J.Reorders J') (y : Vec K) :
    J'.transposeMultiply y = J.transposeMultiply y := by
  rw [transposeMultiply, transposeMultiply, rows, rows, h.heights, h.widths, h.byCol]

section Products

variable [ExactField K] {f : Format}

/-- Products are sums, which do not depend on the order of the blocks under a row. -/
theorem Lists.multiply_eq_of_perm (hJ : J.Lists ts) (hheights : J'.heights = J.heights)
    (hwidths : J'.widths = J.widths)
    (hperm : List.Forall₂ (fun row row' => row'.Perm row) J.byRow J'.byRow) (hf : f ≠ .boolean)
    (hformat : ∀ t ∈ ts, t.block.format = f) (x : Vec K) : J'.multiply x = J.multiply x := by
  by_cases hx : x.size = total J.widths
  · rw [multiply_eq (hx.trans (by rw [hwidths])), multiply_eq hx, hwidths, hheights]
    refine productOf_perm hperm hx hf fun row hrow b hb => ?_
    obtain ⟨i, hi, rfl⟩ := List.getElem_of_mem hrow
    rw [← List.getD_eq_getElem _ [] hi, hJ.getD_byRow] at hb
    obtain ⟨t, ht, rfl⟩ := List.mem_map.mp hb
    have ht := (List.mem_filter.mp ht).1
    exact ⟨hformat t ht, hJ.width t ht⟩
  -- a vector of another length is refused with the same message
  · have hx' : x.size ≠ total J'.widths := by rwa [hwidths]
    rw [multiply, multiply, if_pos (show x.size ≠ J.cols from hx),
      if_pos (show x.size ≠ J'.cols from hx'), BlockGrid.cols, BlockGrid.cols, hwidths]

/-- Transposed products do not depend on the order of the blocks under a column. -/
theorem Lists.transposeMultiply_eq_of_perm (hJ : J.Lists ts) (hheights : J'.heights = J.heights)
    (hwidths : J'.widths = J.widths)
    (hperm : List.Forall₂ (fun col col' => col'.Perm col) J.byCol J'.byCol) (hf : f ≠ .boolean)
    (hformat : ∀ t ∈ ts, t.block.format = f) (y : Vec K) :
    J'.transposeMultiply y = J.transposeMultiply y := by
  by_cases hy : y.size = total J.heights
  · rw [transposeMultiply_eq (hy.trans (by rw [hheights])), transposeMultiply_eq hy, hwidths,
      hheights]
    refine productOf_perm ?_ hy hf fun col hcol b hb => ?_
    · rw [List.forall₂_map_left_iff, List.forall₂_map_right_iff]
      exact hperm.imp fun _ _ h => h.map _
    · obtain ⟨j, hj, rfl⟩ := List.getElem_of_mem hcol
      rw [← List.getD_eq_getElem _ [] hj, hJ.getD_byCol_transpose] at hb
      obtain ⟨t, ht, rfl⟩ := List.mem_map.mp hb
      have ht := (List.mem_filter.mp ht).1
      exact ⟨hformat t ht, hJ.height t ht⟩
  · have hy' : y.size ≠ total J'.heights := by rwa [hheights]
    rw [transposeMultiply, transposeMultiply, if_pos (show y.size ≠ J.rows from hy),
      if_pos (show y.size ≠ J'.rows from hy'), BlockGrid.rows, BlockGrid.rows, hheights]

/-- A grid whose rows are reordered has the same products. -/
theorem Reorders.multiply_eq (h : J.Reorders J') (hJ : J.Lists ts) (hf : f ≠ .boolean)
    (hformat : ∀ t ∈ ts, t.block.format = f) (x : Vec K) : J'.multiply x = J.multiply x :=
  hJ.multiply_eq_of_perm h.heights h.widths h.byRow hf hformat x

end Products

end BlockGrid

end ConvexContact
