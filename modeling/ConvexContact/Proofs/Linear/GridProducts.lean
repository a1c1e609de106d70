import ConvexContact.Proofs.Linear.GridHistory
import ConvexContact.Proofs.Linear.GridOrder

/-!
# Products and the dense matrix

`multiply` walks the blocks under the rows, `transposeMultiply` those under the columns, and
`toDense` looks up the block of every place. All three describe one matrix: in exact arithmetic the
products with a grid are those with its dense matrix and with the transpose of it, one is the
adjoint of the other, and none of this depends on the order in which the blocks were inserted.

Proof shape: insertions that are all accepted make a list of placed blocks
(`BlockGrid.Lists.takes_of_insertAll`), and from there on everything is about that list. A row of
the dense matrix against `x` is the sum over the blocks of a block row
(`BlockGrid.Lists.sum_forward_eq_row`), and likewise for columns; both products are entry by entry
such sums. That a product succeeds is shown apart from what it is equal to. Main statement:
`BlockGrid.represents_of_insertAll`.
-/

namespace ConvexContact

variable {K R : Type}

namespace BlockGrid

variable {J J' : BlockGrid K} {ts : List (PlacedBlock K)}

/-! ## Insertions that are all accepted

When every call is accepted nothing has to be recorded of the calls: the grid lists the blocks in
the order in which they were handed over. -/

section Insertions

variable [Zero K] {cs : List (Insertion K)}

/-- Hands over blocks one after the other, each of which has to be accepted. -/
def insertAll (J : BlockGrid K) (cs : List (Insertion K)) : Except (Error K) (BlockGrid K) :=
  cs.foldlM (fun J c => J.insert c.row c.col c.block) J

/-- A grid with further blocks, all of which have been accepted. -/
structure Takes (J : BlockGrid K) (ts : List (PlacedBlock K)) (cs : List (Insertion K))
    (J' : BlockGrid K) : Prop where
  format : J'.format = J.format
  heights : J'.heights = J.heights
  widths : J'.widths = J.widths
  fits : ∀ c ∈ cs, c.Fits J.heights J.widths
  lists : J'.Lists (ts ++ cs.filterMap Insertion.placed?)
  scattered : Scattered (ts ++ cs.filterMap Insertion.placed?)

/-- **Run.** Insertions that are all accepted append their blocks to the list. -/
theorem Lists.takes_of_insertAll (hJ : J.Lists ts) (hts : Scattered ts)
    (h : J.insertAll cs = .ok J') : J.Takes ts cs J' := by
  induction cs generalizing J ts with
  | nil =>
    obtain rfl := Outcome.pure_eq_ok.mp h
    exact {
      format := rfl
      heights := rfl
      widths := rfl
      fits := fun c hc => absurd hc List.not_mem_nil
      lists := by simpa using hJ
      scattered := by simpa using hts }
  | cons c cs ih =>
    obtain ⟨J₁, hinsert, h⟩ := Outcome.foldlM_cons_eq_ok.mp h
    obtain ⟨hc, t, ht, rfl⟩ := hJ.insert_eq_ok_iff.mp hinsert
    obtain ⟨hlists, hscattered⟩ := hJ.store_placed hc ht
    have hrest := ih hlists (hscattered hts) h
    have happend : ts ++ (c :: cs).filterMap Insertion.placed? =
        ts ++ [t] ++ cs.filterMap Insertion.placed? := by
      rw [List.filterMap_cons_some ht, List.append_assoc]
      rfl
    exact {
      format := hrest.format
      heights := hrest.heights
      widths := hrest.widths
      fits := List.forall_mem_cons.mpr ⟨hc.1, hrest.fits⟩
      lists := happend ▸ hrest.lists
      scattered := happend ▸ hrest.scattered }

/-- **Run.** Blocks that fit, at places that are all different, are accepted. -/
theorem Lists.exists_insertAll (hJ : J.Lists ts) (hfits : ∀ c ∈ cs, c.Fits J.heights J.widths)
    (hts : Scattered (ts ++ cs.filterMap Insertion.placed?)) : ∃ J', J.insertAll cs = .ok J' := by
  induction cs generalizing J ts with
  | nil => exact ⟨J, rfl⟩
  | cons c cs ih =>
    obtain ⟨hc, hrest⟩ := List.forall_mem_cons.mp hfits
    obtain ⟨t, ht, hrow, hcol, -⟩ := hc.exists_placed
    rw [List.filterMap_cons_some ht] at hts
    -- a place that was taken would come twice in the list
    have hfree : c.Free ts := by
      intro u hu hplace
      refine hts.free u hu ⟨Int.ofNat_inj.mp ?_, Int.ofNat_inj.mp ?_⟩
      · exact hplace.1.trans hrow.symm
      · exact hplace.2.trans hcol.symm
    have hstore := (hJ.insert_eq_ok_iff (c := c)).mpr ⟨⟨hc, hfree⟩, t, ht, rfl⟩
    obtain ⟨J', hJ'⟩ := ih (hJ.store_placed ⟨hc, hfree⟩ ht).1 hrest
      (by rw [List.append_assoc]; exact hts)
    exact ⟨J', Outcome.foldlM_cons_eq_ok.mpr ⟨_, hstore, hJ'⟩⟩

end Insertions

/-! ## The dense matrix

Setting up the dense tensor may be refused for its size, before any block is looked at. Apart from
that it is the dense matrix, and the blocks in a line of the grid add up to a line of it. -/

/-- The widest format on a grid is that of the dense matrix. -/
theorem widest_eq [Arith K] (J : BlockGrid K) :
    J.widest = Mat.joinFormats J.format J.cells.flatten := by
  have hformats : J.cells.flatten.map (·.format) =
      J.heights.zipIdx.flatMap fun p =>
        J.widths.zipIdx.map fun q => ((J.block? p.2 q.2).map (·.format)).getD J.format := by
    rw [List.flatMap, List.map_flatten, cells, List.map_map]
    refine congrArg List.flatten (List.map_congr_left fun p _ => ?_)
    rw [Function.comp_apply, List.map_map]
    refine List.map_congr_left fun q _ => ?_
    dsimp only [Function.comp_apply]
    cases J.block? p.2 q.2 <;> rfl
  rw [Mat.joinFormats_eq_foldl, hformats]
  rfl

/-- A dense matrix without entries is a tensor of zeros. -/
theorem zeros_eq_toTensor [Arith K] (h : J.rows * J.cols = 0) :
    Tensor.zeros J.widest [J.rows, J.cols] = J.toDense.toTensor := by
  have hlength : J.toDense.entries.flatten.length = J.rows * J.cols := J.toDense.length_flatten
  have hnone : J.toDense.entries.flatten = [] := List.length_eq_zero_iff.mp (hlength.trans h)
  have hsize : Shape.size [J.rows, J.cols] = 0 := by simpa [Shape.size] using h
  simp only [Tensor.zeros, Mat.toTensor, widest_eq, hnone, hsize, List.replicate_zero]
  rfl

/-- A list of sizes has none that is larger than all of them together. -/
theorem le_total_of_mem {n : Nat} {ns : List Nat} (h : n ∈ ns) : n ≤ total ns := by
  induction ns with
  | nil => cases h
  | cons m ns ih =>
    rw [total_cons]
    rcases List.mem_cons.mp h with rfl | h
    · exact Nat.le_add_right _ _
    · exact (ih h).trans (Nat.le_add_left _ _)

/-- Where the dense matrix can be held, so can the zeros that fill it. -/
theorem checkCells_eq_ok (h : (checkShape [J.rows, J.cols] : Except (Error K) Unit) = .ok ()) :
    J.checkCells = .ok () := by
  obtain ⟨haxes, hsize⟩ := checkShape_eq_ok.mp h
  have hrows : J.rows < Nat.pow 2 63 := haxes _ (by simp)
  have hcols : J.cols < Nat.pow 2 63 := haxes _ (by simp)
  have hsize : J.rows * J.cols < Nat.pow 2 33 := by simpa [Shape.size] using hsize
  -- no block is larger than the whole matrix
  have hblock : ∀ m n, m ≤ J.rows → n ≤ J.cols →
      (checkShape [m, n] : Except (Error K) Unit) = .ok () := by
    intro m n hm hn
    refine checkShape_eq_ok.mpr ⟨?_, ?_⟩
    · simpa using ⟨hm.trans_lt hrows, hn.trans_lt hcols⟩
    · simpa [Shape.size] using (Nat.mul_le_mul hm hn).trans_lt hsize
  unfold checkCells
  split
  · exact hblock 0 J.cols (Nat.zero_le _) le_rfl
  refine Outcome.forM_eq_ok.mpr fun ⟨m, i⟩ hm => ?_
  have hm := le_total_of_mem (List.fst_mem_of_mem_zipIdx hm)
  dsimp only
  split
  · exact hblock m 0 hm (Nat.zero_le _)
  refine Outcome.forM_eq_ok.mpr fun ⟨n, j⟩ hn => ?_
  dsimp only
  split
  · rfl
  · exact hblock m n hm (le_total_of_mem (List.fst_mem_of_mem_zipIdx hn))

/-- Parts of a list that can be held can be held. -/
theorem forM_checkShape {ns : List Nat} (h : total ns < Nat.pow 2 33) :
    (ns.forM fun n => checkShape [n] : Except (Error K) Unit) = .ok () := by
  have hwide : Nat.pow 2 33 ≤ Nat.pow 2 63 := Nat.pow_le_pow_right (by omega) (by omega)
  refine Outcome.forM_eq_ok.mpr fun n hn => checkShape_eq_ok.mpr ?_
  have hn := (le_total_of_mem hn).trans_lt h
  exact ⟨by simpa using hn.trans_le hwide, by simpa [Shape.size] using hn⟩

/-- On vectors the products with tensors are those with vectors, where the answers can be held. -/
theorem multiplyTensor_toTensor [Arith K] (h : J.rows < Nat.pow 2 33) (x : Vec K) :
    J.multiplyTensor x.toTensor = J.multiply x := by
  rw [multiplyTensor, Vec.ofTensor?_toTensor]
  dsimp only
  split
  · rw [Outcome.bind_of_ok _ (forM_checkShape h)]
  · rfl

/-- The same for the transposed product, whose answers are as long as the grid is wide. -/
theorem transposeMultiplyTensor_toTensor [Arith K] (h : J.cols < Nat.pow 2 33) (y : Vec K) :
    J.transposeMultiplyTensor y.toTensor = J.transposeMultiply y := by
  rw [transposeMultiplyTensor, Vec.ofTensor?_toTensor]
  dsimp only
  split
  · rw [Outcome.bind_of_ok _ (forM_checkShape h)]
  · rfl

/-- The dense tensor is the dense matrix, when what fills it with zeros can be set up. -/
theorem dense_eq_map [Arith K] (J : BlockGrid K) :
    J.dense = (fun _ => J.toDense.toTensor) <$> J.checkCells := by
  rw [dense]
  cases J.checkCells with
  | error e => rfl
  | ok u =>
    by_cases hempty : J.rows * J.cols = 0
    -- without entries a tensor of zeros is made at once, which is the same tensor
    · change (if J.rows * J.cols = 0 then _ else _) = _
      rw [if_pos hempty, zeros_eq_toTensor hempty]
      rfl
    · exact if_neg hempty

section Products

variable [Arith K] [CommRing R] (φ : Reading K R) {x y w : Vec K}

/-- The blocks of a block row against `x`, as a row of the dense matrix. -/
theorem Lists.sum_forward_eq_row (hJ : J.Lists ts) (hts : Scattered ts) (x : Vec K) {i l : Nat}
    (hl : l < J.heights.getD i 0) :
    ((ts.filter fun t => t.row = i).map (PlacedBlock.forward φ J.widths x l)).sum =
      ∑ c ∈ Finset.range J.cols, φ (J.toDense.get (offset J.heights i + l) c) * φ (x.get c) := by
  rw [BlockGrid.cols, sum_range_sum]
  refine (hJ.sum_forward_eq φ hts x i l).trans ?_
  refine Finset.sum_congr rfl fun j _ => Finset.sum_congr rfl fun q hq => ?_
  rw [map_get_toDense φ hl (Finset.mem_range.mp hq)]
  rfl

/-- The blocks of a block column against `y`, as a column of the dense matrix. -/
theorem Lists.sum_backward_eq_col (hJ : J.Lists ts) (hts : Scattered ts) (y : Vec K) {j q : Nat}
    (hq : q < J.widths.getD j 0) :
    ((ts.filter fun t => t.col = j).map (PlacedBlock.backward φ J.heights y q)).sum =
      ∑ r ∈ Finset.range J.rows, φ (J.toDense.get r (offset J.widths j + q)) * φ (y.get r) := by
  rw [BlockGrid.rows, sum_range_sum]
  refine (hJ.sum_backward_eq φ hts _ j q).trans ?_
  refine Finset.sum_congr rfl fun i _ => Finset.sum_congr rfl fun l hl => ?_
  rw [map_get_toDense φ (Finset.mem_range.mp hl) hq]
  rfl

/-- The product with a grid is that with the dense matrix. -/
theorem Lists.map_get_multiply (hJ : J.Lists ts) (hts : Scattered ts) (h : J.multiply x = .ok w)
    (r : Nat) : φ (w.get r) = φ ((J.toDense.mulVec x).get r) := by
  have hx : x.size = J.toDense.cols := size_of_multiply h
  obtain ⟨hsize, hcoord⟩ := coord_multiply φ hJ h
  by_cases hr : r < total J.heights
  · obtain ⟨i, l, hl, rfl⟩ := exists_offset_add hr
    rw [Mat.map_get_mulVec φ hx]
    exact (hcoord i l hl).trans (hJ.sum_forward_eq_row φ hts x hl)
  · have hheight : (J.toDense.mulVec x).size = total J.heights := Mat.size_mulVec _ _
    rw [Vec.get_of_size_le (by omega), Vec.get_of_size_le (by omega)]

/-- The transposed product with a grid is that with the transpose of the dense matrix. -/
theorem Lists.map_get_transposeMultiply (hJ : J.Lists ts) (hts : Scattered ts)
    (h : J.transposeMultiply y = .ok w) (r : Nat) :
    φ (w.get r) = φ ((J.toDense.transpose.mulVec y).get r) := by
  have hy : y.size = J.toDense.transpose.cols := size_of_transposeMultiply h
  obtain ⟨hsize, hcoord⟩ := coord_transposeMultiply φ hJ h
  by_cases hr : r < total J.widths
  · obtain ⟨j, q, hq, rfl⟩ := exists_offset_add hr
    rw [Mat.map_get_mulVec φ hy]
    refine ((hcoord j q hq).trans (hJ.sum_backward_eq_col φ hts y hq)).trans ?_
    refine Finset.sum_congr rfl fun i hi => ?_
    rw [Mat.get_transpose _ (offset_add_lt hq) (Finset.mem_range.mp hi)]
  · have hwidth : (J.toDense.transpose.mulVec y).size = total J.widths := Mat.size_mulVec _ _
    rw [Vec.get_of_size_le (by omega), Vec.get_of_size_le (by omega)]

/-- One product is the adjoint of the other. -/
theorem Lists.map_dot_multiply (hJ : J.Lists ts) {Jx Jy : Vec K} (hx : J.multiply x = .ok Jx)
    (hy : J.transposeMultiply y = .ok Jy) : φ (y.dot Jx).value = φ (Jy.dot x).value := by
  obtain ⟨hJx, -⟩ := coord_multiply φ hJ hx
  obtain ⟨hJy, -⟩ := coord_transposeMultiply φ hJ hy
  rw [Vec.map_dot_blocks φ (size_of_transposeMultiply hy) hJx, sum_multiply_eq φ hJ hx hy,
    Vec.map_dot_blocks φ hJy (size_of_multiply hx)]
  exact Finset.sum_congr rfl fun j _ => Finset.sum_congr rfl fun q _ => mul_comm _ _

end Products

/-! ## Exact arithmetic -/

/-- In exact arithmetic the products with a grid are those with its dense matrix, which has the
blocks as its entries; vectors and blocks are in the format `f`. -/
structure Represents [ExactField K] (J : BlockGrid K) (f : Format) : Prop where
  rows : J.toDense.rows = J.rows
  cols : J.toDense.cols = J.cols
  get : ∀ i j l q, l < J.heights.getD i 0 → q < J.widths.getD j 0 →
    J.toDense.get (offset J.heights i + l) (offset J.widths j + q) = J.entry i j l q
  /-- the dense tensor is the dense matrix, if it can be set up -/
  dense : J.dense = (fun _ => J.toDense.toTensor) <$> J.checkCells
  /-- it can be set up if a tensor of its size can -/
  dense_of_held : (checkShape [J.rows, J.cols] : Except (Error K) Unit) = .ok () →
    J.dense = .ok J.toDense.toTensor
  multiply : ∀ x : Vec K, x.format = f → x.size = J.cols →
    J.multiply x = .ok ⟨f, (J.toDense.mulVec x).entries⟩
  transposeMultiply : ∀ y : Vec K, y.format = f → y.size = J.rows →
    J.transposeMultiply y = .ok ⟨f, (J.toDense.transpose.mulVec y).entries⟩
  adjoint : ∀ x y Jx Jy : Vec K, J.multiply x = .ok Jx → J.transposeMultiply y = .ok Jy →
    (y.dot Jx).value = (Jy.dot x).value

/-- Two grids with the same dense matrix and the same products, failures included. -/
structure Matches [Arith K] (J J' : BlockGrid K) : Prop where
  toDense : J'.toDense = J.toDense
  dense : J'.dense = J.dense
  multiply : ∀ x, J'.multiply x = J.multiply x
  transposeMultiply : ∀ y, J'.transposeMultiply y = J.transposeMultiply y

variable [ExactField K] {f : Format}

/-- A grid represents its dense matrix when its blocks are in one format. -/
theorem Lists.represents (hJ : J.Lists ts) (hts : Scattered ts) (hf : f ≠ .boolean)
    (hformat : ∀ t ∈ ts, t.block.format = f) : J.Represents f where
  rows := rfl
  cols := rfl
  get _ _ _ _ hl hq := map_get_toDense Reading.exact hl hq
  dense := J.dense_eq_map
  dense_of_held h := by
    rw [dense_eq_map, checkCells_eq_ok h]
    rfl
  multiply x hxf hx := by
    subst hxf
    obtain ⟨w, hw, hformat⟩ := multiply_of_fits hJ hx hf hformat
    obtain ⟨hsize, -⟩ := coord_multiply Reading.exact hJ hw
    rw [hw]
    refine congrArg Except.ok (Vec.ext_get hformat ?_ fun r _ => ?_)
    · exact hsize.trans (Mat.size_mulVec J.toDense x).symm
    · exact hJ.map_get_multiply Reading.exact hts hw r
  transposeMultiply y hyf hy := by
    subst hyf
    obtain ⟨w, hw, hformat⟩ := transposeMultiply_of_fits hJ hy hf hformat
    obtain ⟨hsize, -⟩ := coord_transposeMultiply Reading.exact hJ hw
    rw [hw]
    refine congrArg Except.ok (Vec.ext_get hformat ?_ fun r _ => ?_)
    · exact hsize.trans (Mat.size_mulVec J.toDense.transpose y).symm
    · exact hJ.map_get_transposeMultiply Reading.exact hts hw r
  adjoint _ _ _ _ hx hy := hJ.map_dot_multiply Reading.exact hx hy

/-- Rearranged blocks make the same matrix. -/
theorem Lists.matches_of_perm {ts' : List (PlacedBlock K)} (hJ : J.Lists ts) (hJ' : J'.Lists ts')
    (hformat : J'.format = J.format) (hheights : J'.heights = J.heights)
    (hwidths : J'.widths = J.widths) (hts : Scattered ts) (hperm : ts'.Perm ts)
    (hf : f ≠ .boolean) (hformats : ∀ t ∈ ts, t.block.format = f) : J.Matches J' where
  toDense := (hJ.sameBlocks hJ' hformat hheights hwidths hts hperm).toDense_eq
  dense := (hJ.sameBlocks hJ' hformat hheights hwidths hts hperm).dense_eq
  multiply := hJ.multiply_eq_of_perm hheights hwidths (hJ.byRow_perm hJ' hheights hperm) hf hformats
  transposeMultiply := hJ.transposeMultiply_eq_of_perm hheights hwidths
    (hJ.byCol_perm hJ' hwidths hperm) hf hformats

/-- **Products and the dense matrix.** On a grid of any sizes, zeros and empty lists among them, let
blocks in one format have been inserted, each of them accepted. In exact arithmetic the dense matrix
has as many rows and columns as the grid, the products with the grid are those with the dense matrix
and with its transpose, and `y` against `J·x` is `Jᵀ·y` against `x`. In any other order the same
insertions are accepted too, and lead to the same dense matrix and the same products. -/
theorem represents_of_insertAll {g : Format} {heights widths : List Int} {J₀ : BlockGrid K}
    {cs : List (Insertion K)} (hJ₀ : empty? g heights widths = .ok J₀)
    (h : J₀.insertAll cs = .ok J) (hf : f ≠ .boolean)
    (hformat : ∀ c ∈ cs, ∀ t, c.block = .tensor t → t.format = f) :
    J.rows = total (heights.map Int.toNat) ∧ J.cols = total (widths.map Int.toNat) ∧
      (∀ t, J.block? t.row t.col = some t.block ↔ ∃ c ∈ cs, c.placed? = some t) ∧
      J.Represents f ∧
      ∀ cs', cs'.Perm cs → ∃ J', J₀.insertAll cs' = .ok J' ∧ J.Matches J' := by
  obtain ⟨-, rfl⟩ := empty?_eq_ok.mp hJ₀
  have hblank := lists_blank (K := K) g (heights.map Int.toNat) (widths.map Int.toNat)
  have htakes := hblank.takes_of_insertAll (fun i => by simp) h
  have hlists := htakes.lists
  have hscattered := htakes.scattered
  rw [List.nil_append] at hlists hscattered
  have hformats : ∀ t ∈ cs.filterMap Insertion.placed?, t.block.format = f := by
    intro t ht
    obtain ⟨c, hc, ht⟩ := List.mem_filterMap.mp ht
    obtain ⟨u, hu, htu⟩ := Insertion.exists_tensor_of_placed ht
    rw [htu, hformat c hc u hu]
  refine ⟨congrArg total htakes.heights, congrArg total htakes.widths, fun t => ?_,
    hlists.represents hscattered hf hformats, fun cs' hperm => ?_⟩
  · rw [← List.mem_filterMap]
    exact ⟨hlists.mem_of_block?, hlists.block?_of_mem hscattered⟩
  · have hplaced : (cs'.filterMap Insertion.placed?).Perm (cs.filterMap Insertion.placed?) :=
      hperm.filterMap _
    have hfits' : ∀ c ∈ cs', c.Fits (heights.map Int.toNat) (widths.map Int.toNat) :=
      fun c hc => htakes.fits c (hperm.mem_iff.mp hc)
    obtain ⟨J', hJ'⟩ := hblank.exists_insertAll hfits' (hscattered.perm hplaced)
    have htakes' := hblank.takes_of_insertAll (fun i => by simp) hJ'
    refine ⟨J', hJ', hlists.matches_of_perm htakes'.lists ?_ ?_ ?_ hscattered hplaced hf hformats⟩
    · exact htakes'.format.trans htakes.format.symm
    · exact htakes'.heights.trans htakes.heights.symm
    · exact htakes'.widths.trans htakes.widths.symm

/-- Three insertions on a grid with an empty block row between two others. -/
def productsSample : List (Insertion ℚ) :=
  [⟨2, 1, .tensor (.ofSlabs .double [2] [[5, -1]])⟩,
    ⟨0, 0, .tensor (.ofSlabs .double [1] [[1], [2]])⟩,
    ⟨0, 1, .tensor (.ofSlabs .double [2] [[3, 0], [0, 4]])⟩]

/-- The dense tensor of the sample exists outright, as it has nine entries. -/
theorem represents_productsSample : ∃ J₀ J : BlockGrid ℚ,
    empty? .single [2, 0, 1] [1, 2] = .ok J₀ ∧ J₀.insertAll productsSample = .ok J ∧
      J.rows = 3 ∧ J.cols = 3 ∧
      (∀ t, J.block? t.row t.col = some t.block ↔
        ∃ c ∈ productsSample, c.placed? = some t) ∧
      J.Represents .double ∧ J.dense = .ok J.toDense.toTensor ∧
      ∀ cs', cs'.Perm productsSample → ∃ J', J₀.insertAll cs' = .ok J' ∧ J.Matches J' := by
  obtain ⟨J₀, hJ₀, hJ⟩ := Outcome.exists_of_check
    (x := (empty? .single [2, 0, 1] [1, 2] : Except (Error ℚ) (BlockGrid ℚ)))
    (P := fun J₀ => (J₀.insertAll productsSample).toOption.any fun _ => true) (by decide +kernel)
  obtain ⟨J, hJ, -⟩ := Outcome.exists_of_check hJ
  have hformat : ∀ c ∈ productsSample, ∀ t, c.block = .tensor t → t.format = .double := by
    intro c hc t ht
    simp only [productsSample, List.mem_cons, List.not_mem_nil, or_false] at hc
    rcases hc with rfl | rfl | rfl <;> (cases ht; rfl)
  obtain ⟨hrows, hcols, hblocks, hrepresents, hreordered⟩ :=
    represents_of_insertAll hJ₀ hJ (by decide) hformat
  have hheld : (checkShape [J.rows, J.cols] : Except (Error ℚ) Unit) = .ok () := by
    rw [hrows, hcols]
    rfl
  exact ⟨J₀, J, hJ₀, hJ, hrows, hcols, hblocks, hrepresents, hrepresents.dense_of_held hheld,
    hreordered⟩

end BlockGrid

end ConvexContact
