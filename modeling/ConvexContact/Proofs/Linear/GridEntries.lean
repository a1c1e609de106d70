import ConvexContact.Proofs.Linear.BlockGrid

/-!
# Entries of a block grid

A grid that stores at most one block at each place is a matrix, whose entries are zero where nothing
is stored (`BlockGrid.entry`). Sums over the blocks under a column or under a row of such a grid are
sums over all places in the column or the row, and the dense matrix has these entries
(`BlockGrid.Lists.get_toDense`).

Proof shape: that no place has two blocks is `BlockGrid.Scattered`, said of the list of placed
blocks and therefore kept under appending (`BlockGrid.Scattered.append`). With it the blocks at a
place are the one that is looked up there, or none (`BlockGrid.Lists.sum_place`), and sums over
lines follow by splitting them into places.
-/

namespace ConvexContact

/-! ## Assembled matrices -/

namespace Mat

variable {K : Type} [Arith K]

omit [Arith K] in
/-- Blocks in one format are joined in it. -/
theorem joinFormats_eq {f : Format} {As : List (Mat K)} (h : ∀ A ∈ As, A.format = f) :
    joinFormats f As = f := by
  cases As with
  | nil => rfl
  | cons A rest =>
    have hfold : ∀ Bs : List (Mat K), (∀ B ∈ Bs, B.format = f) →
        Bs.foldl (fun g B => g.join B.format) f = f := by
      intro Bs hBs
      induction Bs with
      | nil => rfl
      | cons B Bs ih =>
        rw [List.foldl_cons, hBs B (by simp), Format.join_self]
        exact ih fun C hC => hBs C (List.mem_cons_of_mem _ hC)
    change rest.foldl (fun g B => g.join B.format) A.format = f
    rw [h A (by simp)]
    exact hfold rest fun B hB => h B (List.mem_cons_of_mem _ hB)

omit [Arith K] in
/-- The joined format depends on the formats only. -/
theorem joinFormats_eq_foldl (f : Format) (As : List (Mat K)) : joinFormats f As =
    match As.map (·.format) with
    | [] => f
    | g :: rest => rest.foldl Format.join g := by
  cases As with
  | nil => rfl
  | cons A rest => exact List.foldl_map.symm

/-- Storing an entry in a format leaves it as it is read. -/
theorem map_entryIn {R : Type} [CommRing R] (φ : Reading K R) (f : Format) (A : Mat K) (i j : Nat) :
    φ (A.entryIn f i j) = φ (A.get i j) := by
  unfold entryIn
  split
  · rfl
  · exact φ.map_cast f _

/-- In its own format an entry is stored as it is. -/
@[simp] theorem entryIn_self (A : Mat K) (i j : Nat) : A.entryIn A.format i j = A.get i j :=
  if_pos rfl

/-- The entries of a matrix of blocks are those of the blocks. -/
theorem get_ofBlocks {f : Format} {heights widths : List Nat} {cells : List (List (Mat K))}
    {row : List (Mat K)} {cell : Mat K} {b a i j : Nat} (hrow : cells[b]? = some row)
    (hcell : row[a]? = some cell) (hi : i < heights.getD b 0) (hj : j < widths.getD a 0) :
    (ofBlocks f heights widths cells).get (offset heights b + i) (offset widths a + j) =
      cell.entryIn f i j := by
  have hlocate : ∀ {sizes : List Nat} {k l : Nat}, l < sizes.getD k 0 →
      locate sizes (offset sizes k + l) = (k, l) := by
    intro sizes k l hl
    have hk := lt_length_of_lt_size hl
    rw [List.getD_eq_getElem _ _ hk] at hl
    exact locate_offset_add (List.getElem?_eq_getElem hk) hl
  have hcells : (cells.getD b [])[a]? = some cell := by
    rw [List.getD_eq_getElem?_getD, hrow]
    exact hcell
  rw [ofBlocks, get_ofFn _ _ (offset_add_lt hi) (offset_add_lt hj), hlocate hi, hlocate hj]
  simp only [hcells]

end Mat

namespace BlockGrid

variable {K R : Type} {J : BlockGrid K} {ts : List (PlacedBlock K)}

/-- No two blocks of a row stand in one column. -/
def Scattered (ts : List (PlacedBlock K)) : Prop :=
  ∀ i, ((ts.filter fun t => t.row = i).map PlacedBlock.col).Nodup

/-- Places are different within every line just when no two agree in line and place. -/
theorem forall_nodup_iff (line place : PlacedBlock K → Nat) {ts : List (PlacedBlock K)} :
    (∀ i, ((ts.filter fun t => line t = i).map place).Nodup) ↔
      ts.Pairwise fun t u => ¬ (line t = line u ∧ place t = place u) := by
  have hline : ∀ i, ((ts.filter fun t => line t = i).map place).Nodup ↔
      ts.Pairwise fun t u => line t = i → line u = i → place t ≠ place u := by
    intro i
    rw [List.Nodup, List.pairwise_map, List.pairwise_filter]
    simp only [decide_eq_true_eq]
  simp only [hline, List.pairwise_iff_getElem]
  constructor
  · rintro h a b ha hb hab ⟨heq, hplace⟩
    exact h (line ts[b]) a b ha hb hab heq rfl hplace
  · rintro h i a b ha hb hab rfl heq hplace
    exact h a b ha hb hab ⟨heq.symm, hplace⟩

/-- A block at a free place leaves the blocks scattered. -/
theorem Scattered.append (hts : Scattered ts) {t : PlacedBlock K}
    (ht : ∀ u ∈ ts, ¬ (u.row = t.row ∧ u.col = t.col)) : Scattered (ts ++ [t]) := by
  rw [Scattered, forall_nodup_iff] at hts ⊢
  refine List.pairwise_append.mpr ⟨hts, List.pairwise_singleton _ _, fun u hu v hv => ?_⟩
  obtain rfl := List.mem_singleton.mp hv
  exact ht u hu

/-- No two blocks of a column stand in one row. -/
theorem Scattered.nodup_col (hts : Scattered ts) :
    ∀ j, ((ts.filter fun t => t.col = j).map PlacedBlock.row).Nodup := by
  rw [Scattered, forall_nodup_iff] at hts
  rw [forall_nodup_iff PlacedBlock.col PlacedBlock.row]
  exact hts.imp fun h hswap => h hswap.symm

/-- No block before stands where the next one does. -/
theorem Scattered.free {front back : List (PlacedBlock K)} {t : PlacedBlock K}
    (h : Scattered (front ++ t :: back)) : ∀ u ∈ front, ¬ (u.row = t.row ∧ u.col = t.col) := by
  rw [Scattered, forall_nodup_iff] at h
  exact fun u hu => (List.pairwise_append.mp h).2.2 u hu t (by simp)

/-- The blocks that stand under a row are those of the list. -/
theorem Lists.mem_row_iff (hJ : J.Lists ts) {i j : Nat} {B : Mat K} :
    (j, B) ∈ J.row i ↔ ⟨i, j, B⟩ ∈ ts := by
  rw [hJ.row]
  simp only [List.mem_map, List.mem_filter, decide_eq_true_eq, Prod.mk.injEq]
  constructor
  · rintro ⟨t, ⟨ht, rfl⟩, rfl, rfl⟩
    exact ht
  · exact fun h => ⟨_, ⟨h, rfl⟩, rfl, rfl⟩

/-- The blocks that stand under a column are those of the list. -/
theorem Lists.mem_col_iff (hJ : J.Lists ts) {i j : Nat} {B : Mat K} :
    (i, B) ∈ J.col j ↔ ⟨i, j, B⟩ ∈ ts := by
  rw [hJ.col]
  simp only [List.mem_map, List.mem_filter, decide_eq_true_eq, Prod.mk.injEq]
  constructor
  · rintro ⟨t, ⟨ht, rfl⟩, rfl, rfl⟩
    exact ht
  · exact fun h => ⟨_, ⟨h, rfl⟩, rfl, rfl⟩

/-- The place of the block that comes next is free. -/
theorem Lists.free_of_scattered {front back : List (PlacedBlock K)} {t : PlacedBlock K}
    (hJ : J.Lists front) (h : Scattered (front ++ t :: back)) :
    ∀ b ∈ J.row t.row, b.1 ≠ t.col :=
  fun _ hb hcol => h.free _ (hJ.mem_row_iff.mp hb) ⟨rfl, hcol⟩

/-- Lists by line hold all placed blocks together. -/
theorem sum_length_lines (place : PlacedBlock K → Nat) {lines : List (List (Nat × Mat K))}
    (hplace : ∀ t ∈ ts, place t < lines.length)
    (hlines : ∀ i, (lines.getD i []).length = (ts.filter fun t => place t = i).length) :
    (lines.map List.length).sum = ts.length := by
  have hones : ∀ us : List (PlacedBlock K), us.length = (us.map fun _ => 1).sum := by simp
  rw [sum_map_eq_sum_range List.length lines [], hones ts, ← sum_range_filter place hplace]
  exact Finset.sum_congr rfl fun i _ => (hlines i).trans (hones _)

/-- Every block stands under one row. -/
theorem Lists.sum_length_byRow (hJ : J.Lists ts) : (J.byRow.map List.length).sum = J.count := by
  rw [hJ.count]
  refine sum_length_lines PlacedBlock.row (by rw [hJ.rows]; exact hJ.row_lt) fun i => ?_
  rw [hJ.getD_byRow, List.length_map]

/-- Every block stands under one column. -/
theorem Lists.sum_length_byCol (hJ : J.Lists ts) : (J.byCol.map List.length).sum = J.count := by
  rw [hJ.count]
  refine sum_length_lines PlacedBlock.col (by rw [hJ.cols]; exact hJ.col_lt) fun j => ?_
  exact (congrArg List.length (hJ.col j)).trans (List.length_map _)

/-- A block that is stored is one of the list. -/
theorem Lists.mem_of_block? (hJ : J.Lists ts) {i j : Nat} {B : Mat K} (h : J.block? i j = some B) :
    ⟨i, j, B⟩ ∈ ts := by
  rw [block?, List.lookup_eq_some_iff] at h
  obtain ⟨front, rest, hrow, -⟩ := h
  exact hJ.mem_row_iff.mp (by simp [hrow])

/-- A block of the list is stored at its place. -/
theorem Lists.block?_of_mem (hJ : J.Lists ts) (hts : Scattered ts) {i j : Nat} {B : Mat K}
    (h : ⟨i, j, B⟩ ∈ ts) : J.block? i j = some B := by
  have hrow : ⟨i, j, B⟩ ∈ ts.filter fun t => t.row = i :=
    List.mem_filter.mpr ⟨h, decide_eq_true rfl⟩
  obtain ⟨front, back, hsplit⟩ := List.append_of_mem hrow
  have hnodup := hts i
  rw [hsplit, List.map_append, List.map_cons] at hnodup
  rw [block?, hJ.row, hsplit, List.map_append, List.map_cons, List.lookup_eq_some_iff]
  refine ⟨_, _, rfl, fun x hx => ?_⟩
  obtain ⟨t, ht, rfl⟩ := List.mem_map.mp hx
  exact bne_iff_ne.mpr
    ((List.nodup_append.mp hnodup).2.2 t.col (List.mem_map_of_mem ht) j (by simp)).symm

/-- A stored block has the size of its place. -/
theorem Lists.size_of_block? (hJ : J.Lists ts) {i j : Nat} {B : Mat K}
    (h : J.block? i j = some B) : B.rows = J.heights.getD i 0 ∧ B.cols = J.widths.getD j 0 :=
  ⟨hJ.height _ (hJ.mem_of_block? h), hJ.width _ (hJ.mem_of_block? h)⟩

/-! ## Sums over stored blocks

A sum over stored blocks knows where each of them stands, one over places has to look each block up.
They agree because no place has two blocks. -/

section Sums

variable {M : Type} [AddCommMonoid M]

/-- Where no column comes twice, the blocks in a column are the one that is looked up. -/
theorem sum_filter_col {us : List (PlacedBlock K)} (hus : (us.map PlacedBlock.col).Nodup) (j : Nat)
    (F : Mat K → M) :
    ((us.filter fun t => t.col = j).map fun t => F t.block).sum =
      ((us.map fun t => (t.col, t.block)).lookup j).elim 0 F := by
  induction us with
  | nil => rfl
  | cons t us ih =>
    obtain ⟨hnew, hus⟩ := List.nodup_cons.mp hus
    by_cases htj : t.col = j
    · subst htj
      -- no later block stands in the same column
      have hrest : (us.filter fun u => u.col = t.col) = [] := by
        rw [List.filter_eq_nil_iff]
        intro u hu hcol
        exact hnew (List.mem_map.mpr ⟨u, hu, of_decide_eq_true hcol⟩)
      simp [hrest]
    · have hjt : (j == t.col) = false := beq_false_of_ne (Ne.symm htj)
      rw [List.filter_cons_of_neg (by simpa using htj), ih hus, List.map_cons, List.lookup_cons,
        hjt]

/-- The blocks at one place are the one that is stored there, if any. -/
theorem Lists.sum_place (hJ : J.Lists ts) (hts : Scattered ts) (i j : Nat)
    (F : PlacedBlock K → M) :
    (((ts.filter fun t => t.row = i).filter fun t => t.col = j).map F).sum =
      (J.block? i j).elim 0 fun B => F ⟨i, j, B⟩ := by
  have hplace : ∀ t ∈ (ts.filter fun t => t.row = i).filter fun t => t.col = j,
      F t = F ⟨i, j, t.block⟩ := by
    intro t ht
    obtain ⟨ht, hcol⟩ := List.mem_filter.mp ht
    obtain ⟨-, hrow⟩ := List.mem_filter.mp ht
    rw [← of_decide_eq_true hcol, ← of_decide_eq_true hrow]
  rw [List.map_congr_left hplace, sum_filter_col (hts i) j fun B => F ⟨i, j, B⟩, block?, hJ.row]

/-- Sums over the blocks of a row are sums over the places in the row. -/
theorem Lists.sum_row (hJ : J.Lists ts) (hts : Scattered ts) (i : Nat) (F : PlacedBlock K → M) :
    ((ts.filter fun t => t.row = i).map F).sum =
      ∑ j ∈ Finset.range J.widths.length, (J.block? i j).elim 0 fun B => F ⟨i, j, B⟩ := by
  have hcol : ∀ t ∈ ts.filter fun t => t.row = i, t.col < J.widths.length :=
    fun t ht => hJ.col_lt t (List.mem_filter.mp ht).1
  rw [← sum_range_filter PlacedBlock.col hcol]
  exact Finset.sum_congr rfl fun j _ => hJ.sum_place hts i j F

/-- Sums over the blocks of a column are sums over the places in the column. -/
theorem Lists.sum_col (hJ : J.Lists ts) (hts : Scattered ts) (j : Nat) (F : PlacedBlock K → M) :
    ((ts.filter fun t => t.col = j).map F).sum =
      ∑ i ∈ Finset.range J.heights.length, (J.block? i j).elim 0 fun B => F ⟨i, j, B⟩ := by
  have hrow : ∀ t ∈ ts.filter fun t => t.col = j, t.row < J.heights.length :=
    fun t ht => hJ.row_lt t (List.mem_filter.mp ht).1
  rw [← sum_range_filter PlacedBlock.row hrow]
  apply Finset.sum_congr rfl
  intro i _
  rw [List.filter_comm]
  exact hJ.sum_place hts i j F

end Sums

/-! ## Entries -/

variable [Arith K] [CommRing R] (φ : Reading K R)

/-- Entry `l, q` of the block in block row `i` and block column `j`, zero where nothing is stored.
-/
def entry (J : BlockGrid K) (i j l q : Nat) : K := (J.block? i j).elim 0 fun B => B.get l q

/-- The blocks of a row against a vector, place by place. -/
theorem Lists.sum_forward_eq (hJ : J.Lists ts) (hts : Scattered ts) (x : Vec K) (i l : Nat) :
    ((ts.filter fun t => t.row = i).map (PlacedBlock.forward φ J.widths x l)).sum =
      ∑ j ∈ Finset.range J.widths.length, ∑ q ∈ Finset.range (J.widths.getD j 0),
        φ (J.entry i j l q) * x.coord φ J.widths j q := by
  rw [hJ.sum_row hts]
  apply Finset.sum_congr rfl
  intro j _
  unfold entry
  cases hB : J.block? i j with
  -- where nothing is stored the entries are zero
  | none =>
    refine (Finset.sum_eq_zero fun q _ => ?_).symm
    change φ 0 * _ = 0
    rw [φ.map_zero, zero_mul]
  | some B =>
    rw [← (hJ.size_of_block? hB).2]
    rfl

/-- The blocks of a column against what is given for the rows, place by place. -/
theorem Lists.sum_backward_eq (hJ : J.Lists ts) (hts : Scattered ts) (ρ : Nat → Nat → R)
    (j q : Nat) :
    ((ts.filter fun t => t.col = j).map fun t =>
      ∑ l ∈ Finset.range t.block.rows, φ (t.block.get l q) * ρ t.row l).sum =
      ∑ i ∈ Finset.range J.heights.length, ∑ l ∈ Finset.range (J.heights.getD i 0),
        φ (J.entry i j l q) * ρ i l := by
  rw [hJ.sum_col hts]
  apply Finset.sum_congr rfl
  intro i _
  unfold entry
  cases hB : J.block? i j with
  | none =>
    refine (Finset.sum_eq_zero fun l _ => ?_).symm
    change φ 0 * _ = 0
    rw [φ.map_zero, zero_mul]
  | some B =>
    rw [← (hJ.size_of_block? hB).1]
    rfl

omit [CommRing R] in
/-- The dense matrix has the entries of the blocks, and zeros where nothing is stored. -/
theorem get_toDense_cell {i j l q : Nat} (hl : l < J.heights.getD i 0)
    (hq : q < J.widths.getD j 0) :
    J.toDense.get (offset J.heights i + l) (offset J.widths j + q) =
      ((J.block? i j).getD (Mat.zeros J.format (J.heights.getD i 0) (J.widths.getD j 0))).entryIn
        (Mat.joinFormats J.format J.cells.flatten) l q := by
  have hi : i < J.heights.length := lt_length_of_lt_size hl
  have hj : j < J.widths.length := lt_length_of_lt_size hq
  have hrow : J.cells[i]? = some (J.widths.zipIdx.map fun nj =>
      (J.block? i nj.2).getD (Mat.zeros J.format (J.heights.getD i 0) nj.1)) := by
    simp [cells, hi]
  have hcell : (J.widths.zipIdx.map fun nj =>
      (J.block? i nj.2).getD (Mat.zeros J.format (J.heights.getD i 0) nj.1))[j]? =
        some ((J.block? i j).getD
          (Mat.zeros J.format (J.heights.getD i 0) (J.widths.getD j 0))) := by
    simp [hj]
  rw [toDense, Mat.get_ofBlocks hrow hcell hl hq]

/-- The dense matrix is read as the entries of the grid, whatever the formats. -/
theorem map_get_toDense {i j l q : Nat} (hl : l < J.heights.getD i 0)
    (hq : q < J.widths.getD j 0) :
    φ (J.toDense.get (offset J.heights i + l) (offset J.widths j + q)) =
      φ (J.entry i j l q) := by
  rw [get_toDense_cell hl hq, Mat.map_entryIn, entry]
  cases J.block? i j with
  | none => exact congrArg φ (Mat.get_ofFn _ _ hl hq)
  | some B => rfl

omit [CommRing R] in
/-- The dense matrix has the entries of the grid. -/
theorem Lists.get_toDense (hJ : J.Lists ts) (hformat : ∀ t ∈ ts, t.block.format = J.format)
    {i j l q : Nat} (hl : l < J.heights.getD i 0) (hq : q < J.widths.getD j 0) :
    J.toDense.get (offset J.heights i + l) (offset J.widths j + q) = J.entry i j l q := by
  have hjoin : Mat.joinFormats J.format J.cells.flatten = J.format := by
    apply Mat.joinFormats_eq
    intro A hA
    obtain ⟨row, hrow, hA⟩ := List.mem_flatten.mp hA
    obtain ⟨⟨height, i⟩, -, rfl⟩ := List.mem_map.mp hrow
    obtain ⟨⟨width, j⟩, -, rfl⟩ := List.mem_map.mp hA
    dsimp only
    cases hB : J.block? i j with
    | none => rfl
    | some B => exact hformat _ (hJ.mem_of_block? hB)
  rw [get_toDense_cell hl hq, hjoin, entry]
  cases hB : J.block? i j with
  | none => exact (Mat.entryIn_self _ l q).trans (Mat.get_ofFn _ _ hl hq)
  | some B =>
    have hstored : B.format = J.format := hformat _ (hJ.mem_of_block? hB)
    rw [← hstored]
    exact B.entryIn_self l q

end BlockGrid

end ConvexContact
