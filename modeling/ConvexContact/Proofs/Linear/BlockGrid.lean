import ConvexContact.Proofs.Linear.Coordinates
import ConvexContact.Linear.BlockGrid

/-!
# Products with block grids

A grid lists each of its blocks twice, under its row and under its column. `BlockGrid.Lists J ts`
says that both listings come from one list `ts` of placed blocks, which is what storing blocks one
after the other leads to. From it the coordinates of the two products are sums over placed blocks,
and `J·x` against `y` is the same double sum as `x` against `Jᵀ·y`.

Proof shape: `multiply` and `transposeMultiply` walk different lists but do the same with them, so
both are cases of `BlockGrid.productOf`: its coordinates are `BlockGrid.coord_productOf`, and that
it succeeds where the blocks fit is `BlockGrid.productOf_of_fits`. Sums over the lines of a grid are
turned into sums over `ts` by `BlockGrid.sum_range_filter`, which is all that the adjoint law needs.
-/

namespace ConvexContact

variable {K R : Type}

/-- A block with its place on a grid. -/
structure PlacedBlock (K : Type) where
  row : Nat
  col : Nat
  block : Mat K

namespace BlockGrid

/-- The blocks of a grid are those of a list, in the order of the list under each row and under each
column, and each of them has the size of its place. -/
structure Lists (J : BlockGrid K) (ts : List (PlacedBlock K)) : Prop where
  count : J.count = ts.length
  rows : J.byRow.length = J.heights.length
  cols : J.byCol.length = J.widths.length
  row : ∀ i, J.row i = (ts.filter fun t => t.row = i).map fun t => (t.col, t.block)
  col : ∀ j, J.col j = (ts.filter fun t => t.col = j).map fun t => (t.row, t.block)
  row_lt : ∀ t ∈ ts, t.row < J.heights.length
  col_lt : ∀ t ∈ ts, t.col < J.widths.length
  height : ∀ t ∈ ts, t.block.rows = J.heights.getD t.row 0
  width : ∀ t ∈ ts, t.block.cols = J.widths.getD t.col 0

/-- The slice of a block begins at its offset and ends at the next. -/
theorem sliceAt_of_lt {sizes : List Nat} {j : Nat} (h : j < sizes.length) :
    sliceAt (K := K) sizes j = .ok (offset sizes j, offset sizes (j + 1)) := by
  have hoffset : ∀ i ≤ sizes.length, offsetAt (K := K) sizes i = .ok (offset sizes i) := by
    intro i hi
    rw [offsetAt, atSigned?_natCast, getElem?_offsets sizes hi]
  have hstop := hoffset (j + 1) (by omega)
  rw [Nat.cast_succ] at hstop
  rw [sliceAt, Outcome.bind_of_ok _ (hoffset j (by omega)), Outcome.bind_of_ok _ hstop]
  rfl

/-! ## Storing blocks -/

/-- A grid without blocks lists none. -/
theorem lists_blank (f : Format) (heights widths : List Nat) :
    (blank f heights widths : BlockGrid K).Lists [] where
  count := rfl
  rows := by simp [blank]
  cols := by simp [blank]
  row i := by
    cases h : heights[i]? <;> simp [blank, BlockGrid.row, List.getD_eq_getElem?_getD]
  col j := by
    cases h : widths[j]? <;> simp [blank, BlockGrid.col, List.getD_eq_getElem?_getD]
  row_lt := by simp
  col_lt := by simp
  height := by simp
  width := by simp

/-- Storing a block appends it to the list. -/
theorem Lists.store {J : BlockGrid K} {ts : List (PlacedBlock K)} (h : J.Lists ts) {i j : Nat}
    {B : Mat K} (hi : i < J.heights.length) (hj : j < J.widths.length)
    (hrows : B.rows = J.heights.getD i 0) (hcols : B.cols = J.widths.getD j 0) :
    (J.store i j B).Lists (ts ++ [⟨i, j, B⟩]) where
  count := by simp [BlockGrid.store, h.count]
  rows := by simpa [BlockGrid.store] using h.rows
  cols := by simpa [BlockGrid.store] using h.cols
  row k := by
    have hk := h.row k
    have hi' : i < J.byRow.length := by rw [h.rows]; exact hi
    -- the row that the block is listed under, or another one
    by_cases hik : i = k
    · subst hik
      simp only [BlockGrid.row, BlockGrid.store, List.getD_eq_getElem?_getD] at hk ⊢
      rw [List.getElem?_modify_eq, List.getElem?_eq_getElem hi'] at *
      simp [← hk]
    · simp only [BlockGrid.row, BlockGrid.store, List.getD_eq_getElem?_getD] at hk ⊢
      rw [List.getElem?_modify_ne _ _ hik, hk]
      simp [hik]
  col k := by
    have hk := h.col k
    have hj' : j < J.byCol.length := by rw [h.cols]; exact hj
    by_cases hjk : j = k
    · subst hjk
      simp only [BlockGrid.col, BlockGrid.store, List.getD_eq_getElem?_getD] at hk ⊢
      rw [List.getElem?_modify_eq, List.getElem?_eq_getElem hj'] at *
      simp [← hk]
    · simp only [BlockGrid.col, BlockGrid.store, List.getD_eq_getElem?_getD] at hk ⊢
      rw [List.getElem?_modify_ne _ _ hjk, hk]
      simp [hjk]
  row_lt t ht := by
    rcases List.mem_append.mp ht with ht | ht
    · exact h.row_lt t ht
    · obtain rfl : t = ⟨i, j, B⟩ := by simpa using ht
      exact hi
  col_lt t ht := by
    rcases List.mem_append.mp ht with ht | ht
    · exact h.col_lt t ht
    · obtain rfl : t = ⟨i, j, B⟩ := by simpa using ht
      exact hj
  height t ht := by
    rcases List.mem_append.mp ht with ht | ht
    · exact h.height t ht
    · obtain rfl : t = ⟨i, j, B⟩ := by simpa using ht
      exact hrows
  width t ht := by
    rcases List.mem_append.mp ht with ht | ht
    · exact h.width t ht
    · obtain rfl : t = ⟨i, j, B⟩ := by simpa using ht
      exact hcols

/-- A block is taken in when its place is on the grid and free and the block has the size of the
place, and then it is stored. -/
theorem insert_eq_ok [Zero K] {J J' : BlockGrid K} {i j : Nat} {t : Tensor K} :
    J.insert i j (.tensor t) = .ok J' ↔
      (i < J.heights.length ∧ j < J.widths.length) ∧
      t.shape = [J.heights.getD i 0, J.widths.getD j 0] ∧ (∀ b ∈ J.row i, b.1 ≠ j) ∧
      J.store i j (Mat.ofEntries t.format (J.heights.getD i 0) (J.widths.getD j 0) t.data) =
        J' := by
  by_cases hplace : i < J.heights.length ∧ j < J.widths.length
  · have htensor : (Given.tensor t).asTensor = .ok t := rfl
    rw [insert, if_neg (by omega), Outcome.bind_of_ok _ htensor]
    simp only [Int.toNat_natCast]
    by_cases hshape : t.shape = [J.heights.getD i 0, J.widths.getD j 0]
    · by_cases hfree : ∀ b ∈ J.row i, b.1 ≠ j
      · have hnone : (J.row i).any (·.1 == j) = false := by simpa using hfree
        rw [if_neg (not_not.mpr hshape), if_neg (by rw [hnone]; exact Bool.false_ne_true)]
        rw [Except.ok.injEq]
        exact ⟨fun h => ⟨hplace, hshape, hfree, h⟩, fun h => h.2.2.2⟩
      · have hsome : (J.row i).any (·.1 == j) = true := by simpa using hfree
        rw [if_neg (not_not.mpr hshape), if_pos hsome]
        exact iff_of_false nofun fun h => hfree h.2.2.1
    · rw [if_pos hshape]
      exact iff_of_false nofun fun h => hshape h.2.1
  · rw [insert, if_pos (by omega)]
    exact iff_of_false nofun fun h => hplace h.1

/-! ## Products

Both products walk lists of blocks and add up one part of the answer for each list, so the loop is
described once, for any lists. -/

variable [Arith K] [CommRing R] (φ : Reading K R)

/-- Products of blocks with their parts of a vector, added up. -/
theorem map_get_accumulate {sizes : List Nat} {x w : Vec K} {height : Nat}
    {blocks : List (Nat × Mat K)} (hx : x.size = total sizes)
    (hrows : ∀ b ∈ blocks, b.2.rows = height) (h : accumulate sizes x height blocks = .ok w) :
    w.size = height ∧ ∀ l, φ (w.get l) =
      (blocks.map fun b =>
        ∑ a ∈ Finset.range b.2.cols, φ (b.2.get l a) * x.coord φ sizes b.1 a).sum := by
  refine Outcome.foldlM_induction (fun done y => y.size = height ∧ ∀ l, φ (y.get l) =
    (done.map fun b =>
      ∑ a ∈ Finset.range b.2.cols, φ (b.2.get l a) * x.coord φ sizes b.1 a).sum) ?_ ?_ h
  -- before any block the answer is zero, as is the empty sum
  · refine ⟨Vec.size_zeros _ _, fun l => ?_⟩
    rw [Vec.get_zeros, φ.map_zero]
    rfl
  · rintro done ⟨j, B⟩ y y' ⟨rest, hsplit⟩ ⟨hsize, hy⟩ hstep
    have hB : B.rows = height := hrows (j, B) (by rw [← hsplit]; simp)
    obtain ⟨p, hp, hy'⟩ := Outcome.bind_eq_ok.mp hstep
    obtain rfl := Outcome.pure_eq_ok.mp hy'
    -- one more block: its product is a sum over the part of `x` that it meets
    obtain ⟨rfl, -, hcols⟩ := Mat.mulVec?_eq_ok hp
    have hmatch : y.size = (B.mulVec (x.block sizes j)).size := by
      rw [Mat.size_mulVec, hsize, hB]
    refine ⟨by rw [Vec.size_add, ← hmatch, Nat.min_self, hsize], fun l => ?_⟩
    have hwidth : B.cols = sizes.getD j 0 := by rw [hcols, Vec.size_block hx]
    have hproduct : φ ((B.mulVec (x.block sizes j)).get l) =
        ∑ a ∈ Finset.range B.cols, φ (B.get l a) * x.coord φ sizes j a := by
      rw [Mat.map_get_mulVec φ hcols.symm]
      apply Finset.sum_congr rfl
      intro a ha
      rw [Vec.map_get_block φ (by rw [← hwidth]; exact Finset.mem_range.mp ha)]
    rw [Vec.map_get_add φ hmatch, hy, hproduct]
    simp

/-- The blocks are multiplied and added up without failure when they fit. -/
theorem accumulate_of_fits {sizes : List Nat} {x : Vec K} (hx : x.size = total sizes)
    (hf : x.format ≠ .boolean) (height : Nat) {blocks : List (Nat × Mat K)}
    (hfits : ∀ b ∈ blocks, b.2.format = x.format ∧ b.2.cols = sizes.getD b.1 0) :
    ∃ w, accumulate sizes x height blocks = .ok w ∧ w.format = x.format := by
  unfold accumulate
  -- the induction is on the blocks, from any start in the format of `x`
  generalize hstart : (Vec.zeros x.format height : Vec K) = start
  have hformat : start.format = x.format := by rw [← hstart]; rfl
  clear hstart
  induction blocks generalizing start with
  | nil => exact ⟨start, rfl, hformat⟩
  | cons b blocks ih =>
    obtain ⟨j, B⟩ := b
    obtain ⟨hBf, hBc⟩ := hfits (j, B) (by simp)
    have hp : B.mulVec? (x.block sizes j) = .ok (B.mulVec (x.block sizes j)) :=
      Mat.mulVec?_of_fits hBf (by rw [hBc, Vec.size_block hx]) (by rw [hBf]; exact hf)
    rw [List.foldlM_cons]
    simp only [hp]
    refine ih (fun c hc => hfits c (List.mem_cons_of_mem _ hc)) _ ?_
    rw [Vec.format_add, hformat, Mat.format_mulVec, hBf, Format.join_self]

end BlockGrid

namespace PlacedBlock

variable [Arith K] [CommRing R] (φ : Reading K R)

/-- What a placed block adds to entry `l` of its row in a product of the grid with `x`. -/
def forward (widths : List Nat) (x : Vec K) (l : Nat) (t : PlacedBlock K) : R :=
  ∑ a ∈ Finset.range t.block.cols, φ (t.block.get l a) * x.coord φ widths t.col a

/-- What a placed block adds to entry `a` of its column in a product of the transposed grid with
`y`. -/
def backward (heights : List Nat) (y : Vec K) (a : Nat) (t : PlacedBlock K) : R :=
  ∑ l ∈ Finset.range t.block.rows, φ (t.block.get l a) * y.coord φ heights t.row l

/-- One block against what is given on each side, either way. -/
theorem sum_forward (widths : List Nat) (x : Vec K) (ρ : Nat → R) (t : PlacedBlock K) :
    ∑ l ∈ Finset.range t.block.rows, ρ l * t.forward φ widths x l =
      ∑ a ∈ Finset.range t.block.cols, x.coord φ widths t.col a *
        ∑ l ∈ Finset.range t.block.rows, φ (t.block.get l a) * ρ l := by
  simp only [forward, Finset.mul_sum]
  rw [Finset.sum_comm]
  refine Finset.sum_congr rfl fun a _ => Finset.sum_congr rfl fun l _ => ?_
  ring

end PlacedBlock

namespace BlockGrid

variable [Arith K] [CommRing R] (φ : Reading K R)

/-- Lists of blocks times their parts of `x`, each list giving one part of the answer. -/
def productOf (sizes heights : List Nat) (lists : List (List (Nat × Mat K))) (x : Vec K) :
    Except (Error K) (Vec K) := do
  let pieces ← (heights.zip lists).mapM fun (n, blocks) => accumulate sizes x n blocks
  return Vec.concat x.format pieces

section ProductOf

variable {heights sizes : List Nat} {lists : List (List (Nat × Mat K))} {x w : Vec K}

omit [Arith K] in
/-- A height stands next to the list of its line. -/
theorem getElem?_zip_lists (hlen : lists.length = heights.length) {i : Nat}
    (hi : i < heights.length) :
    (heights.zip lists)[i]? = some (heights.getD i 0, lists.getD i []) := by
  have hil : i < lists.length := by omega
  rw [List.getElem?_zip_eq_some]
  simp [List.getD_eq_getElem?_getD, hi, hil]

/-- The coordinates of the whole are those of the parts. -/
theorem coord_productOf (hlen : lists.length = heights.length) (hx : x.size = total sizes)
    (hrows : ∀ i, ∀ b ∈ lists.getD i [], b.2.rows = heights.getD i 0)
    (h : productOf sizes heights lists x = .ok w) :
    w.size = total heights ∧ ∀ i l, l < heights.getD i 0 → w.coord φ heights i l =
      ((lists.getD i []).map fun b =>
        ∑ a ∈ Finset.range b.2.cols, φ (b.2.get l a) * x.coord φ sizes b.1 a).sum := by
  obtain ⟨pieces, hpieces, h⟩ := Outcome.bind_eq_ok.mp h
  obtain rfl := Outcome.pure_eq_ok.mp h
  have hpiece : ∀ i, i < heights.length → ∃ p, pieces[i]? = some p ∧
      accumulate sizes x (heights.getD i 0) (lists.getD i []) = .ok p :=
    fun i hi => Outcome.getElem?_of_mapM hpieces (getElem?_zip_lists hlen hi)
  have hplen : pieces.length = heights.length := by
    rw [Outcome.length_of_mapM hpieces, List.length_zip, hlen, Nat.min_self]
  have hsizes : pieces.map Vec.size = heights := by
    apply List.ext_getElem (by rw [List.length_map, hplen])
    intro i hi hi'
    obtain ⟨p, hp, hacc⟩ := hpiece i hi'
    obtain ⟨hsize, -⟩ := map_get_accumulate φ hx (hrows i) hacc
    rw [List.getElem_map, (List.getElem?_eq_some_iff.mp hp).2, hsize, List.getD_eq_getElem _ _ hi']
  refine ⟨by rw [Vec.size_concat, hsizes], fun i l hl => ?_⟩
  obtain ⟨p, hp, hacc⟩ := hpiece i (lt_length_of_lt_size hl)
  obtain ⟨hsize, hget⟩ := map_get_accumulate φ hx (hrows i) hacc
  have hcoord := Vec.coord_concat φ (f := x.format) hp (l := l) (by rw [hsize]; exact hl)
  rw [hsizes] at hcoord
  rw [hcoord, hget]

/-- The products are taken and joined without failure when the blocks fit. -/
theorem productOf_of_fits (hlen : lists.length = heights.length) (hx : x.size = total sizes)
    (hf : x.format ≠ .boolean)
    (hfits : ∀ i, ∀ b ∈ lists.getD i [], b.2.format = x.format ∧ b.2.cols = sizes.getD b.1 0) :
    ∃ w, productOf sizes heights lists x = .ok w ∧ w.format = x.format := by
  have hpiece : ∀ p ∈ heights.zip lists, ∃ w,
      accumulate sizes x p.1 p.2 = .ok w ∧ w.format = x.format := by
    intro p hp
    obtain ⟨i, hi, hget⟩ := List.getElem_of_mem hp
    have hih : i < heights.length := by
      rw [List.length_zip] at hi
      omega
    have hsome := getElem?_zip_lists hlen hih
    rw [List.getElem?_eq_getElem hi, hget] at hsome
    obtain rfl := Option.some.inj hsome
    exact accumulate_of_fits hx hf _ (hfits i)
  obtain ⟨pieces, hpieces⟩ := Outcome.exists_mapM fun p hp => (hpiece p hp).imp fun _ h => h.1
  refine ⟨Vec.concat x.format pieces, Outcome.bind_of_ok _ hpieces, Vec.format_concat ?_⟩
  intro w hw
  obtain ⟨i, hi, hget⟩ := List.getElem_of_mem hw
  have hi' : i < (heights.zip lists).length := by rw [← Outcome.length_of_mapM hpieces]; exact hi
  obtain ⟨w', hw', hacc⟩ := Outcome.getElem?_of_mapM hpieces (List.getElem?_eq_getElem hi')
  obtain ⟨w'', hacc', hformat⟩ := hpiece _ (List.getElem_mem hi')
  rw [List.getElem?_eq_getElem hi, hget] at hw'
  obtain rfl := Option.some.inj hw'
  rw [hacc] at hacc'
  rw [Except.ok.inj hacc']
  exact hformat

end ProductOf

/-! ## The product with a grid and with its transpose

The transposed product is the same loop with every block transposed, over the lists by column. In
the adjoint law both products become sums over the one list of placed blocks. -/

variable {J : BlockGrid K} {ts : List (PlacedBlock K)} {x y w : Vec K}

/-- A product that succeeds was about a vector of the right length. -/
theorem size_of_multiply (h : J.multiply x = .ok w) : x.size = total J.widths := by
  by_contra hx
  rw [multiply, if_pos (show x.size ≠ J.cols from hx)] at h
  cases h

/-- So was a transposed product. -/
theorem size_of_transposeMultiply (h : J.transposeMultiply y = .ok w) :
    y.size = total J.heights := by
  by_contra hy
  rw [transposeMultiply, if_pos (show y.size ≠ J.rows from hy)] at h
  cases h

/-- The rows are walked with the blocks as they are. -/
theorem multiply_eq (hx : x.size = total J.widths) :
    J.multiply x = productOf J.widths J.heights J.byRow x :=
  if_neg (not_not.mpr hx)

/-- The columns are walked with every block transposed. -/
theorem transposeMultiply_eq (hy : y.size = total J.heights) :
    J.transposeMultiply y = productOf J.heights J.widths
      (J.byCol.map (List.map fun b => (b.1, b.2.transpose))) y := by
  rw [transposeMultiply, if_neg (not_not.mpr (show y.size = J.rows from hy)), productOf,
    List.zip_map_right, List.mapM_map]
  rfl

omit [Arith K] in
/-- Under a row stand its blocks, in the order of the list. -/
theorem Lists.getD_byRow (hJ : J.Lists ts) (i : Nat) :
    J.byRow.getD i [] = (ts.filter fun t => t.row = i).map fun t => (t.col, t.block) :=
  hJ.row i

/-- Under a column stand the transposes of its blocks, in the order of the list. -/
theorem Lists.getD_byCol_transpose (hJ : J.Lists ts) (j : Nat) :
    (J.byCol.map (List.map fun b => (b.1, b.2.transpose))).getD j [] =
      (ts.filter fun t => t.col = j).map fun t => (t.row, t.block.transpose) := by
  have hcol := hJ.col j
  rw [BlockGrid.col, List.getD_eq_getElem?_getD] at hcol
  rw [List.getD_eq_getElem?_getD, List.getElem?_map]
  cases hj : J.byCol[j]? with
  | none =>
    rw [hj] at hcol
    have hnone : (ts.filter fun t => t.col = j) = [] := by simpa using hcol.symm
    rw [hnone]
    rfl
  | some blocks =>
    rw [hj] at hcol
    simp only [Option.getD_some] at hcol
    simp [hcol, Function.comp_def]

/-- The coordinates of `J·x` are sums over the blocks of a row. -/
theorem coord_multiply (hJ : J.Lists ts) (h : J.multiply x = .ok w) :
    w.size = total J.heights ∧ ∀ i l, l < J.heights.getD i 0 → w.coord φ J.heights i l =
      ((ts.filter fun t => t.row = i).map (PlacedBlock.forward φ J.widths x l)).sum := by
  have hx := size_of_multiply h
  rw [multiply_eq hx] at h
  have hrows : ∀ i, ∀ b ∈ J.byRow.getD i [], b.2.rows = J.heights.getD i 0 := by
    intro i b hb
    rw [hJ.getD_byRow] at hb
    obtain ⟨t, ht, rfl⟩ := List.mem_map.mp hb
    obtain ⟨ht, hti⟩ := List.mem_filter.mp ht
    rw [← of_decide_eq_true hti]
    exact hJ.height t ht
  obtain ⟨hsize, hcoord⟩ := coord_productOf φ hJ.rows hx hrows h
  refine ⟨hsize, fun i l hl => ?_⟩
  rw [hcoord i l hl, hJ.getD_byRow, List.map_map]
  rfl

/-- The coordinates of `Jᵀ·y` are sums over the blocks of a column. -/
theorem coord_transposeMultiply (hJ : J.Lists ts) (h : J.transposeMultiply y = .ok w) :
    w.size = total J.widths ∧ ∀ j a, a < J.widths.getD j 0 → w.coord φ J.widths j a =
      ((ts.filter fun t => t.col = j).map (PlacedBlock.backward φ J.heights y a)).sum := by
  have hy := size_of_transposeMultiply h
  rw [transposeMultiply_eq hy] at h
  have hrows : ∀ j, ∀ b ∈ (J.byCol.map (List.map fun b => (b.1, b.2.transpose))).getD j [],
      b.2.rows = J.widths.getD j 0 := by
    intro j b hb
    rw [hJ.getD_byCol_transpose] at hb
    obtain ⟨t, ht, rfl⟩ := List.mem_map.mp hb
    obtain ⟨ht, htj⟩ := List.mem_filter.mp ht
    rw [← of_decide_eq_true htj]
    exact hJ.width t ht
  obtain ⟨hsize, hcoord⟩ := coord_productOf φ (by rw [List.length_map, hJ.cols]) hy hrows h
  refine ⟨hsize, fun j a ha => ?_⟩
  rw [hcoord j a ha, hJ.getD_byCol_transpose, List.map_map]
  refine congrArg List.sum (List.map_congr_left fun t ht => ?_)
  obtain ⟨ht, htj⟩ := List.mem_filter.mp ht
  have hwidth : a < t.block.cols := by
    rw [hJ.width t ht, of_decide_eq_true htj]
    exact ha
  apply Finset.sum_congr rfl
  intro l hl
  have hl : l < t.block.rows := Finset.mem_range.mp hl
  simp only [Mat.get_transpose t.block hwidth hl]

/-- The product `J·x` succeeds when the blocks have the format of `x`. -/
theorem multiply_of_fits (hJ : J.Lists ts) (hx : x.size = total J.widths)
    (hf : x.format ≠ .boolean) (hformats : ∀ t ∈ ts, t.block.format = x.format) :
    ∃ w, J.multiply x = .ok w ∧ w.format = x.format := by
  rw [multiply_eq hx]
  apply productOf_of_fits hJ.rows hx hf
  intro i b hb
  rw [hJ.getD_byRow] at hb
  obtain ⟨t, ht, rfl⟩ := List.mem_map.mp hb
  have ht := (List.mem_filter.mp ht).1
  exact ⟨hformats t ht, hJ.width t ht⟩

/-- The product `Jᵀ·y` succeeds when the blocks have the format of `y`. -/
theorem transposeMultiply_of_fits (hJ : J.Lists ts) (hy : y.size = total J.heights)
    (hf : y.format ≠ .boolean) (hformats : ∀ t ∈ ts, t.block.format = y.format) :
    ∃ w, J.transposeMultiply y = .ok w ∧ w.format = y.format := by
  rw [transposeMultiply_eq hy]
  apply productOf_of_fits (by rw [List.length_map, hJ.cols]) hy hf
  intro j b hb
  rw [hJ.getD_byCol_transpose] at hb
  obtain ⟨t, ht, rfl⟩ := List.mem_map.mp hb
  have ht := (List.mem_filter.mp ht).1
  exact ⟨hformats t ht, hJ.height t ht⟩

omit [Arith K] in
/-- Sums over places of what is added by the blocks there are sums over the blocks. -/
theorem sum_range_filter {M : Type} [AddCommMonoid M] (place : PlacedBlock K → Nat) {n : Nat}
    (h : ∀ t ∈ ts, place t < n) (F : PlacedBlock K → M) :
    ∑ i ∈ Finset.range n, ((ts.filter fun t => place t = i).map F).sum = (ts.map F).sum := by
  induction ts with
  | nil => simp
  | cons t ts ih =>
    have hsplit : ∀ i, (((t :: ts).filter fun t => place t = i).map F).sum =
        (if place t = i then F t else 0) + ((ts.filter fun t => place t = i).map F).sum := by
      intro i
      by_cases hi : place t = i
      · simp [hi]
      · simp [hi]
    simp only [hsplit]
    rw [Finset.sum_add_distrib, ih fun u hu => h u (List.mem_cons_of_mem _ hu)]
    simp [h t (by simp)]

omit [Arith K] in
/-- A factor in front of a sum over a list goes to each summand. -/
theorem sum_mul_sum_map {s : Finset Nat} (c : Nat → R) (us : List (PlacedBlock K))
    (F : Nat → PlacedBlock K → R) :
    ∑ l ∈ s, c l * (us.map (F l)).sum = (us.map fun t => ∑ l ∈ s, c l * F l t).sum := by
  induction us with
  | nil => simp
  | cons t us ih =>
    simp only [List.map_cons, List.sum_cons, mul_add]
    rw [Finset.sum_add_distrib, ih]

/-- **Adjoint sums.** What is given for the rows against the blocks of the rows times `x` is `x`
against the blocks of the columns times what is given. -/
theorem Lists.sum_adjoint (hJ : J.Lists ts) (x : Vec K) (ρ : Nat → Nat → R) :
    ∑ i ∈ Finset.range J.heights.length, ∑ l ∈ Finset.range (J.heights.getD i 0),
      ρ i l * ((ts.filter fun t => t.row = i).map (PlacedBlock.forward φ J.widths x l)).sum =
    ∑ j ∈ Finset.range J.widths.length, ∑ a ∈ Finset.range (J.widths.getD j 0),
      x.coord φ J.widths j a * ((ts.filter fun t => t.col = j).map fun t =>
        ∑ l ∈ Finset.range t.block.rows, φ (t.block.get l a) * ρ t.row l).sum := by
  -- each side is a sum over the placed blocks
  have hleft : ∀ i ∈ Finset.range J.heights.length,
      ∑ l ∈ Finset.range (J.heights.getD i 0), ρ i l *
        ((ts.filter fun t => t.row = i).map (PlacedBlock.forward φ J.widths x l)).sum =
      ((ts.filter fun t => t.row = i).map fun t =>
        ∑ l ∈ Finset.range t.block.rows, ρ t.row l * t.forward φ J.widths x l).sum := by
    intro i _
    rw [sum_mul_sum_map]
    refine congrArg List.sum (List.map_congr_left fun t ht => ?_)
    obtain ⟨ht, hti⟩ := List.mem_filter.mp ht
    rw [hJ.height t ht, of_decide_eq_true hti]
  have hright : ∀ j ∈ Finset.range J.widths.length,
      ∑ a ∈ Finset.range (J.widths.getD j 0), x.coord φ J.widths j a *
        ((ts.filter fun t => t.col = j).map fun t =>
          ∑ l ∈ Finset.range t.block.rows, φ (t.block.get l a) * ρ t.row l).sum =
      ((ts.filter fun t => t.col = j).map fun t =>
        ∑ a ∈ Finset.range t.block.cols, x.coord φ J.widths t.col a *
          ∑ l ∈ Finset.range t.block.rows, φ (t.block.get l a) * ρ t.row l).sum := by
    intro j _
    rw [sum_mul_sum_map]
    refine congrArg List.sum (List.map_congr_left fun t ht => ?_)
    obtain ⟨ht, htj⟩ := List.mem_filter.mp ht
    rw [hJ.width t ht, of_decide_eq_true htj]
  rw [Finset.sum_congr rfl hleft, Finset.sum_congr rfl hright,
    sum_range_filter PlacedBlock.row hJ.row_lt, sum_range_filter PlacedBlock.col hJ.col_lt]
  exact congrArg List.sum (List.map_congr_left fun t _ => t.sum_forward φ _ x (ρ t.row))

/-- **Adjoint products.** `y` against `J·x` is `x` against `Jᵀ·y`. -/
theorem sum_multiply_eq (hJ : J.Lists ts) {Jx Jy : Vec K} (hx : J.multiply x = .ok Jx)
    (hy : J.transposeMultiply y = .ok Jy) :
    ∑ i ∈ Finset.range J.heights.length, ∑ l ∈ Finset.range (J.heights.getD i 0),
      y.coord φ J.heights i l * Jx.coord φ J.heights i l =
    ∑ j ∈ Finset.range J.widths.length, ∑ a ∈ Finset.range (J.widths.getD j 0),
      x.coord φ J.widths j a * Jy.coord φ J.widths j a := by
  obtain ⟨-, hJx⟩ := coord_multiply φ hJ hx
  obtain ⟨-, hJy⟩ := coord_transposeMultiply φ hJ hy
  have hadjoint := hJ.sum_adjoint φ x fun i l => y.coord φ J.heights i l
  have hforward : ∀ i, ∀ l ∈ Finset.range (J.heights.getD i 0),
      y.coord φ J.heights i l * Jx.coord φ J.heights i l = y.coord φ J.heights i l *
        ((ts.filter fun t => t.row = i).map (PlacedBlock.forward φ J.widths x l)).sum :=
    fun i l hl => by rw [hJx i l (Finset.mem_range.mp hl)]
  have hbackward : ∀ j, ∀ a ∈ Finset.range (J.widths.getD j 0),
      x.coord φ J.widths j a * Jy.coord φ J.widths j a = x.coord φ J.widths j a *
        ((ts.filter fun t => t.col = j).map (PlacedBlock.backward φ J.heights y a)).sum :=
    fun j a ha => by rw [hJy j a (Finset.mem_range.mp ha)]
  rw [Finset.sum_congr rfl fun i _ => Finset.sum_congr rfl (hforward i), hadjoint]
  exact Finset.sum_congr rfl fun j _ => (Finset.sum_congr rfl (hbackward j)).symm

end BlockGrid

end ConvexContact
