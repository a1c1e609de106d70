import ConvexContact.Proofs.Linear.GridEntries

/-!
# Histories of insertions

A caller hands blocks to a grid one after the other, and some of them are rejected. In place a block
is stored in steps: once it has been looked at it is listed under its row, then under its column,
and then counted (`BlockGrid.insertInPlace`). On values this is `BlockGrid.insert`
(`BlockGrid.run_insertInPlace`); a step that came before the last look would show there.

Every call is recorded with what it found and what it left (`Deposit`). One call either stores its
block or changes nothing (`BlockGrid.Lists.deposit_cases`), and any number of them, on a grid of any
sizes, leave a grid that lists what was accepted, in this order, under rows and under columns
(`BlockGrid.Lists.follows_deposits`).

Proof shape: whether a call is accepted is an `iff` about the call and the list of blocks so far
(`BlockGrid.Lists.insert_eq_ok_iff`), so that nothing of the grid itself is needed to tell. The run
is an induction on the calls with the grid and its list as parameters; `BlockGrid.Follows.cons` puts
one call in front. What the structure `BlockGrid.Kept` says beyond that is read off the list. Main
statement: `BlockGrid.kept_of_deposits`.
-/

namespace ConvexContact

variable {K : Type}

/-! ## Calls

A call may hand over anything at all: a place off the grid, a nested list, a tensor of another
shape. These lemmas say of the call alone whether its block fits. -/

/-- A block that a caller hands to a grid, with the place it is meant for. -/
structure Insertion (K : Type) where
  row : Int
  col : Int
  block : Given K

namespace Insertion

/-- The place is on a grid of the given heights and widths, and the block is a matrix of the size of
the place. -/
structure Fits (c : Insertion K) (heights widths : List Nat) : Prop where
  row_nonneg : 0 ≤ c.row
  row_lt : c.row < heights.length
  col_nonneg : 0 ≤ c.col
  col_lt : c.col < widths.length
  shape : ∃ t, c.block = .tensor t ∧
    t.shape = [heights.getD c.row.toNat 0, widths.getD c.col.toNat 0]

/-- None of the placed blocks stands at the place. -/
def Free (c : Insertion K) (ts : List (PlacedBlock K)) : Prop :=
  ∀ t ∈ ts, ¬ ((t.row : Int) = c.row ∧ (t.col : Int) = c.col)

/-- The block as a matrix at its place, if it is a matrix at all. -/
def placed? [Zero K] (c : Insertion K) : Option (PlacedBlock K) :=
  match c.block with
  | .tensor t => (Mat.ofTensor? t).map fun B => ⟨c.row.toNat, c.col.toNat, B⟩
  | .nested _ => none

variable {c : Insertion K} {heights widths : List Nat}

/-- At a place with natural coordinates a tensor fits when the place exists and has its shape. -/
theorem fits_tensor {i j : Nat} {t : Tensor K} :
    Fits ⟨i, j, .tensor t⟩ heights widths ↔
      (i < heights.length ∧ j < widths.length) ∧
        t.shape = [heights.getD i 0, widths.getD j 0] := by
  constructor
  · rintro ⟨-, hi, -, hj, u, hu, hshape⟩
    obtain rfl := Given.tensor.inj hu
    exact ⟨⟨Int.ofNat_lt.mp hi, Int.ofNat_lt.mp hj⟩, hshape⟩
  · rintro ⟨⟨hi, hj⟩, hshape⟩
    exact ⟨Int.natCast_nonneg i, Int.ofNat_lt.mpr hi, Int.natCast_nonneg j, Int.ofNat_lt.mpr hj, t,
      rfl, hshape⟩

/-- A nested list is no matrix, whatever stands in it. -/
theorem not_fits_nested {row col : Int} {t : Tensor K} :
    ¬ Fits ⟨row, col, .nested t⟩ heights widths := by
  rintro ⟨-, -, -, -, u, hu, -⟩
  cases hu

/-- A tensor with two axes is placed with the entries it has. -/
theorem placed?_of_shape [Zero K] {t : Tensor K} {height width : Nat} (h : c.block = .tensor t)
    (hshape : t.shape = [height, width]) :
    c.placed? =
      some ⟨c.row.toNat, c.col.toNat, Mat.ofEntries t.format height width t.data⟩ := by
  rw [placed?, h]
  simp only [Mat.ofTensor?, hshape, Option.map_some]

/-- What can be placed is a tensor, and keeps its format. -/
theorem exists_tensor_of_placed [Zero K] {t : PlacedBlock K} (h : c.placed? = some t) :
    ∃ u, c.block = .tensor u ∧ t.block.format = u.format := by
  unfold placed? at h
  split at h
  · rename_i u hu
    refine ⟨u, hu, ?_⟩
    obtain ⟨B, hB, rfl⟩ := Option.map_eq_some_iff.mp h
    unfold Mat.ofTensor? at hB
    split at hB
    · obtain rfl := Option.some.inj hB
      rfl
    · cases hB
  · cases h

/-- What fits can be placed. -/
theorem Fits.exists_placed [Zero K] (h : c.Fits heights widths) :
    ∃ t, c.placed? = some t ∧ (t.row : Int) = c.row ∧ (t.col : Int) = c.col ∧
      t.block.rows = heights.getD t.row 0 ∧ t.block.cols = widths.getD t.col 0 := by
  obtain ⟨t, hblock, hshape⟩ := h.shape
  exact ⟨_, placed?_of_shape hblock hshape, Int.toNat_of_nonneg h.row_nonneg,
    Int.toNat_of_nonneg h.col_nonneg, rfl, rfl⟩

end Insertion

namespace BlockGrid

variable {J : BlockGrid K} {ts : List (PlacedBlock K)} {c : Insertion K}

/-! ## Calls in place

A block that is stored goes through three writes. The check comes before the first of them, so a
call that is rejected has written nothing. -/

/-- Lists a block under its row. -/
def listUnderRow (i j : Nat) (B : Mat K) (J : BlockGrid K) : BlockGrid K :=
  { J with byRow := J.byRow.modify i (· ++ [(j, B)]) }

/-- Lists a block under its column. -/
def listUnderCol (i j : Nat) (B : Mat K) (J : BlockGrid K) : BlockGrid K :=
  { J with byCol := J.byCol.modify j (· ++ [(i, B)]) }

/-- Counts one more block. -/
def countOne (J : BlockGrid K) : BlockGrid K := { J with count := J.count + 1 }

/-- A grid begins empty, and begins at all just when no size is negative. -/
theorem empty?_eq_ok {f : Format} {heights widths : List Int} :
    empty? f heights widths = .ok J ↔ ((∀ n ∈ heights, 0 ≤ n) ∧ ∀ n ∈ widths, 0 ≤ n) ∧
      J = blank f (heights.map Int.toNat) (widths.map Int.toNat) := by
  unfold empty?
  split
  · rename_i h
    refine iff_of_false nofun fun hJ => ?_
    simp only [Bool.or_eq_true, List.any_eq_true, decide_eq_true_eq] at h
    rcases h with ⟨n, hn, hneg⟩ | ⟨n, hn, hneg⟩
    · exact absurd (hJ.1.1 n hn) (by omega)
    · exact absurd (hJ.1.2 n hn) (by omega)
  · rename_i h
    simp only [Bool.or_eq_true, List.any_eq_true, decide_eq_true_eq, not_or, not_exists, not_and,
      not_lt] at h
    rw [Except.ok.injEq]
    exact ⟨fun hJ => ⟨h, hJ.symm⟩, fun hJ => hJ.2.symm⟩

/-- A place is free when nothing stands under its row at its column. -/
theorem Lists.free_iff (hJ : J.Lists ts) {i j : Nat} {block : Given K} :
    Insertion.Free ⟨i, j, block⟩ ts ↔ ∀ b ∈ J.row i, b.1 ≠ j := by
  rw [hJ.row]
  simp only [Insertion.Free, List.forall_mem_map, List.mem_filter, decide_eq_true_eq, Nat.cast_inj,
    not_and, and_imp]

section InPlace

variable [Zero K]

/-- Looks at a block and its place as `insert` does, and answers with the block as a matrix. -/
def examine (J : BlockGrid K) (c : Insertion K) : Except (Error K) (Mat K) := do
  if c.row < 0 ∨ J.heights.length ≤ c.row ∨ c.col < 0 ∨ J.widths.length ≤ c.col then
    .error (.blockRange c.row c.col J.heights.length J.widths.length)
  else
    let block ← c.block.asTensor
    let height := J.heights.getD c.row.toNat 0
    let width := J.widths.getD c.col.toNat 0
    if block.shape ≠ [height, width] then
      .error (.blockShape c.row c.col height width block.shape)
    else if (J.row c.row.toNat).any (·.1 == c.col.toNat) then .error (.blockPresent c.row c.col)
    else .ok (Mat.ofEntries block.format height width block.data)

/-- Stores a block in place. -/
def insertInPlace (c : Insertion K) : ExceptT (Error K) (StateM (BlockGrid K)) Unit := do
  let J ← get
  let B ← ExceptT.mk (pure (J.examine c))
  modify (listUnderRow c.row.toNat c.col.toNat B)
  modify (listUnderCol c.row.toNat c.col.toNat B)
  modify countOne

/-- Storing a block is all that happens once it has been looked at. -/
theorem insert_eq_examine (J : BlockGrid K) (c : Insertion K) :
    J.insert c.row c.col c.block = J.store c.row.toNat c.col.toNat <$> J.examine c := by
  rw [insert, examine]
  split
  · rfl
  · cases c.block.asTensor with
    | error e => rfl
    | ok t =>
      simp only [bind, Except.bind]
      split
      · rfl
      · split <;> rfl

/-- **Refinement.** An insertion in place is the insertion on values: when it is accepted, the grid
is the one with the block; otherwise it is as it was. -/
theorem run_insertInPlace (J : BlockGrid K) (c : Insertion K) :
    (insertInPlace c).run.run J =
      match J.insert c.row c.col c.block with
      | .ok J' => (.ok (), J')
      | .error e => (.error e, J) := by
  rw [insertInPlace, insert_eq_examine]
  simp only [Outcome.run_bind, Outcome.run_get, Outcome.run_check, Outcome.run_modify]
  cases J.examine c with
  | error e => rfl
  | ok B => rfl

/-- A block that fits and whose place is free is appended to the list. -/
theorem Lists.store_placed (hJ : J.Lists ts) (hc : c.Fits J.heights J.widths ∧ c.Free ts)
    {t : PlacedBlock K} (ht : c.placed? = some t) :
    (J.store t.row t.col t.block).Lists (ts ++ [t]) ∧
      (Scattered ts → Scattered (ts ++ [t])) := by
  obtain ⟨u, hu, hrow, hcol, hrows, hcols⟩ := hc.1.exists_placed
  obtain rfl := Option.some.inj (ht.symm.trans hu)
  have hi : t.row < J.heights.length := Int.ofNat_lt.mp (hrow.trans_lt hc.1.row_lt)
  have hj : t.col < J.widths.length := Int.ofNat_lt.mp (hcol.trans_lt hc.1.col_lt)
  have hfree : ∀ u ∈ ts, ¬ (u.row = t.row ∧ u.col = t.col) := fun u hu heq =>
    hc.2 u hu ⟨by rw [heq.1, hrow], by rw [heq.2, hcol]⟩
  exact ⟨hJ.store hi hj hrows hcols, fun hts => hts.append hfree⟩

/-- A call is accepted when it fits and its place is free, and then the block is stored. -/
theorem Lists.insert_eq_ok_iff (hJ : J.Lists ts) {J' : BlockGrid K} :
    J.insert c.row c.col c.block = .ok J' ↔
      (c.Fits J.heights J.widths ∧ c.Free ts) ∧
        ∃ t, c.placed? = some t ∧ J' = J.store t.row t.col t.block := by
  obtain ⟨row, col, block⟩ := c
  by_cases hsigns : 0 ≤ row ∧ 0 ≤ col
  · obtain ⟨hrow, hcol⟩ := hsigns
    lift row to ℕ using hrow
    lift col to ℕ using hcol
    cases block with
    -- a nested list is refused whether its place exists or not
    | nested t =>
      refine iff_of_false ?_ fun h => Insertion.not_fits_nested h.1.1
      rw [insert]
      split <;> exact fun h => by cases h
    | tensor t =>
      rw [insert_eq_ok, hJ.free_iff, Insertion.fits_tensor]
      constructor
      · rintro ⟨hplace, hshape, hfree, rfl⟩
        exact ⟨⟨⟨hplace, hshape⟩, hfree⟩, _, Insertion.placed?_of_shape rfl hshape, rfl⟩
      · rintro ⟨⟨⟨hplace, hshape⟩, hfree⟩, u, hu, rfl⟩
        obtain rfl := Option.some.inj ((Insertion.placed?_of_shape rfl hshape).symm.trans hu)
        exact ⟨hplace, hshape, hfree, rfl⟩
  -- a negative coordinate is off the grid
  · refine iff_of_false ?_ fun h => hsigns ⟨h.1.1.row_nonneg, h.1.1.col_nonneg⟩
    have hout : row < 0 ∨ J.heights.length ≤ row ∨ col < 0 ∨ J.widths.length ≤ col := by omega
    rw [insert, if_pos hout]
    exact fun h => by cases h

end InPlace

end BlockGrid

/-! ## One call -/

/-- A call with what it found and what it left. -/
structure Deposit (K : Type) where
  before : BlockGrid K
  call : Insertion K
  answer : Except (Error K) Unit
  after : BlockGrid K

namespace Deposit

variable [Zero K]

/-- The blocks of the calls that were accepted, in the order of the calls. -/
def accepted (xs : List (Deposit K)) : List (PlacedBlock K) :=
  xs.filterMap fun x => if x.answer.isOk then x.call.placed? else none

/-- What was accepted first comes first. -/
theorem accepted_cons (x : Deposit K) (xs : List (Deposit K)) :
    accepted (x :: xs) = accepted [x] ++ accepted xs :=
  List.filterMap_append (l := [x])

/-- A call that was accepted adds its block. -/
theorem accepted_of_ok {x : Deposit K} {t : PlacedBlock K} (h : x.answer = .ok ())
    (ht : x.call.placed? = some t) : accepted [x] = [t] := by
  simp [accepted, h, ht, Except.isOk, Except.toBool]

/-- A call that was rejected adds nothing. -/
theorem accepted_of_error {x : Deposit K} {e : Error K} (h : x.answer = .error e) :
    accepted [x] = [] := by
  simp [accepted, h, Except.isOk, Except.toBool]

/-- The blocks on the list are those of calls that were accepted. -/
theorem mem_accepted {xs : List (Deposit K)} {t : PlacedBlock K} :
    t ∈ accepted xs ↔ ∃ x ∈ xs, x.answer = .ok () ∧ x.call.placed? = some t := by
  rw [accepted, List.mem_filterMap]
  refine exists_congr fun x => and_congr_right fun _ => ?_
  rcases hx : x.answer with e | ⟨⟨⟩⟩ <;> simp [Except.isOk, Except.toBool]

end Deposit

namespace BlockGrid

variable {J : BlockGrid K} {ts : List (PlacedBlock K)} {c : Insertion K} [Zero K]

/-- The call that hands a block over. -/
def deposit (J : BlockGrid K) (c : Insertion K) : Deposit K :=
  ⟨J, c, ((insertInPlace c).run.run J).1, ((insertInPlace c).run.run J).2⟩

/-- **Step.** A call whose block fits and whose place is free stores the block; any other call is
rejected, and leaves the grid as it was. -/
theorem Lists.deposit_cases (hJ : J.Lists ts) (c : Insertion K) :
    (c.Fits J.heights J.widths ∧ c.Free ts) ∧
      (∃ t, c.placed? = some t ∧ J.deposit c = ⟨J, c, .ok (), J.store t.row t.col t.block⟩) ∨
    ¬ (c.Fits J.heights J.widths ∧ c.Free ts) ∧ ∃ e, J.deposit c = ⟨J, c, .error e, J⟩ := by
  rw [deposit, run_insertInPlace]
  cases h : J.insert c.row c.col c.block with
  | ok J' =>
    obtain ⟨hc, t, ht, rfl⟩ := hJ.insert_eq_ok_iff.mp h
    exact Or.inl ⟨hc, t, ht, rfl⟩
  | error e =>
    refine Or.inr ⟨fun hc => ?_, e, rfl⟩
    obtain ⟨t, ht, -⟩ := hc.1.exists_placed
    rw [hJ.insert_eq_ok_iff.mpr ⟨hc, t, ht, rfl⟩] at h
    cases h

/-! ## Any number of calls

By induction on the calls, for a grid that lists any blocks to begin with: after an accepted call
the rest starts with one block more. -/

/-- The calls that hand over blocks one after the other, and the grid they leave. -/
def deposits (J : BlockGrid K) : List (Insertion K) → List (Deposit K) × BlockGrid K
  | [] => ([], J)
  | c :: cs =>
    let x := J.deposit c
    (x :: (x.after.deposits cs).1, (x.after.deposits cs).2)

/-- What calls `xs` make of a grid `J` that lists the blocks `ts`. -/
structure Follows (J : BlockGrid K) (ts : List (PlacedBlock K)) (xs : List (Deposit K))
    (J' : BlockGrid K) : Prop where
  heights : J'.heights = J.heights
  widths : J'.widths = J.widths
  lists : J'.Lists (ts ++ Deposit.accepted xs)
  scattered : Scattered (ts ++ Deposit.accepted xs)
  answer_iff : ∀ earlier x later, xs = earlier ++ x :: later →
    (x.answer = .ok () ↔
      x.call.Fits J.heights J.widths ∧ x.call.Free (ts ++ Deposit.accepted earlier))
  rejected : ∀ x ∈ xs, ∀ e, x.answer = .error e → x.after = x.before

/-- One call before the others. -/
theorem Follows.cons (J₁ : BlockGrid K) {J' : BlockGrid K} {x : Deposit K} {xs : List (Deposit K)}
    (h : J₁.Follows (ts ++ Deposit.accepted [x]) xs J') (hheights : J₁.heights = J.heights)
    (hwidths : J₁.widths = J.widths)
    (hanswer : x.answer = .ok () ↔ x.call.Fits J.heights J.widths ∧ x.call.Free ts)
    (hrejected : ∀ e, x.answer = .error e → x.after = x.before) : J.Follows ts (x :: xs) J' where
  heights := h.heights.trans hheights
  widths := h.widths.trans hwidths
  lists := by
    rw [Deposit.accepted_cons, ← List.append_assoc]
    exact h.lists
  scattered := by
    rw [Deposit.accepted_cons, ← List.append_assoc]
    exact h.scattered
  answer_iff earlier y later hsplit := by
    cases earlier with
    | nil =>
      obtain ⟨rfl, rfl⟩ := List.cons.inj hsplit
      rw [show Deposit.accepted ([] : List (Deposit K)) = [] from rfl, List.append_nil]
      exact hanswer
    | cons z earlier =>
      obtain ⟨rfl, rfl⟩ := List.cons.inj hsplit
      rw [Deposit.accepted_cons, ← List.append_assoc, ← hheights, ← hwidths]
      exact h.answer_iff earlier y later rfl
  rejected y hy := by
    rcases List.mem_cons.mp hy with rfl | hy
    · exact hrejected
    · exact h.rejected y hy

/-- **Run.** Calls follow each other from any grid that lists its blocks. -/
theorem Lists.follows_deposits (hJ : J.Lists ts) (hts : Scattered ts) (cs : List (Insertion K)) :
    J.Follows ts (J.deposits cs).1 (J.deposits cs).2 := by
  induction cs generalizing J ts with
  | nil =>
    have hnone : Deposit.accepted (J.deposits []).1 = [] := rfl
    exact {
      heights := rfl
      widths := rfl
      lists := by rwa [hnone, List.append_nil]
      scattered := by rwa [hnone, List.append_nil]
      answer_iff := by
        intro earlier x later h
        cases earlier <;> cases h
      rejected := fun x hx => absurd hx List.not_mem_nil }
  | cons c cs ih =>
    rw [deposits]
    rcases hJ.deposit_cases c with ⟨hc, t, ht, hx⟩ | ⟨hc, e, hx⟩
    -- accepted: the others follow from the grid with the block
    · have hone : Deposit.accepted [J.deposit c] = [t] :=
        Deposit.accepted_of_ok (by rw [hx]) (by rw [hx]; exact ht)
      obtain ⟨hlists, hscattered⟩ := hJ.store_placed hc ht
      have hrest := ih hlists (hscattered hts)
      refine Follows.cons (J.store t.row t.col t.block) ?_ rfl rfl ?_ ?_
      · rw [hone, hx]
        exact hrest
      · rw [hx]
        exact iff_of_true rfl hc
      · rw [hx]
        exact nofun
    -- rejected: the others follow from the same grid
    · have hnone : Deposit.accepted [J.deposit c] = [] :=
        Deposit.accepted_of_error (e := e) (by rw [hx])
      have hrest := ih hJ hts
      refine Follows.cons J ?_ rfl rfl ?_ ?_
      · rw [hnone, hx, List.append_nil]
        exact hrest
      · rw [hx]
        exact iff_of_false nofun hc
      · rw [hx]
        exact fun _ _ => rfl

/-! ## What is kept

All that is asked of a grid after a run is read off the list of accepted blocks. Lists by row and
lists by column are two filters of it, so each of them mirrors the other. -/

/-- The slices of blocks of these sizes are consecutive and disjoint, and cover what the sizes add
up to. -/
structure Tiles (K : Type) (sizes : List Nat) : Prop where
  slice : ∀ i < sizes.length,
    sliceAt (K := K) sizes i = .ok (offset sizes i, offset sizes (i + 1))
  size : ∀ i < sizes.length, offset sizes (i + 1) = offset sizes i + sizes.getD i 0
  first : offset sizes 0 = 0
  last : offset sizes sizes.length = total sizes
  disjoint : ∀ i i' k, offset sizes i ≤ k ∧ k < offset sizes (i + 1) →
    offset sizes i' ≤ k ∧ k < offset sizes (i' + 1) → i = i'
  cover : ∀ k, k < total sizes ↔
    ∃ i < sizes.length, offset sizes i ≤ k ∧ k < offset sizes (i + 1)

omit [Zero K] in
/-- Offsets are sums of sizes, so slices follow each other. -/
theorem tiles (sizes : List Nat) : Tiles K sizes := by
  have hmem : ∀ i k, offset sizes i ≤ k ∧ k < offset sizes (i + 1) ↔ k ∈ blockIndices sizes i := by
    intro i k
    rw [mem_blockIndices, offset_add_size]
    constructor
    · rintro ⟨hle, hlt⟩
      exact ⟨k - offset sizes i, by omega, by omega⟩
    · rintro ⟨l, hl, rfl⟩
      exact ⟨by omega, by omega⟩
  exact {
    slice := fun i hi => sliceAt_of_lt hi
    size := fun i _ => offset_add_size sizes i
    first := offset_zero sizes
    last := offset_length sizes
    disjoint := fun i i' k hi hi' => block_unique ((hmem i k).mp hi) ((hmem i' k).mp hi')
    cover := by
      intro k
      simp only [hmem, mem_blockIndices]
      constructor
      · intro hk
        obtain ⟨i, l, hl, rfl⟩ := exists_offset_add hk
        exact ⟨i, lt_length_of_lt_size hl, l, hl, rfl⟩
      · rintro ⟨i, -, l, hl, rfl⟩
        exact offset_add_lt hl }

/-- What a grid of the given heights and widths has become by the calls `xs`. -/
structure Kept (heights widths : List Nat) (xs : List (Deposit K)) (J : BlockGrid K) : Prop where
  sizes : J.heights = heights ∧ J.widths = widths
  lines : J.byRow.length = heights.length ∧ J.byCol.length = widths.length
  /-- a call is accepted just when it fits and no earlier one was accepted for its place -/
  accepted_iff : ∀ earlier x later, xs = earlier ++ x :: later →
    (x.answer = .ok () ↔ x.call.Fits heights widths ∧
      ∀ y ∈ earlier, y.answer = .ok () → ¬ (y.call.row = x.call.row ∧ y.call.col = x.call.col))
  rejected : ∀ x ∈ xs, ∀ e, x.answer = .error e → x.after = x.before
  /-- the lists are in the order of acceptance -/
  row : ∀ i, J.row i =
    ((Deposit.accepted xs).filter fun t => t.row = i).map fun t => (t.col, t.block)
  col : ∀ j, J.col j =
    ((Deposit.accepted xs).filter fun t => t.col = j).map fun t => (t.row, t.block)
  mirror : ∀ i j B, (j, B) ∈ J.row i ↔ (i, B) ∈ J.col j
  nodup_row : ∀ i, ((J.row i).map Prod.fst).Nodup
  nodup_col : ∀ j, ((J.col j).map Prod.fst).Nodup
  count_row : J.count = (J.byRow.map List.length).sum
  count_col : J.count = (J.byCol.map List.length).sum
  rows : Tiles K J.heights
  cols : Tiles K J.widths

/-- The place of a call is free when no earlier one was accepted for it. -/
theorem Follows.free_iff {J' : BlockGrid K} {earlier later : List (Deposit K)} {x : Deposit K}
    (h : J.Follows [] (earlier ++ x :: later) J') :
    x.call.Free (Deposit.accepted earlier) ↔ ∀ y ∈ earlier, y.answer = .ok () →
      ¬ (y.call.row = x.call.row ∧ y.call.col = x.call.col) := by
  have hplaced : ∀ y ∈ earlier, y.answer = .ok () → ∃ t, y.call.placed? = some t ∧
      (t.row : Int) = y.call.row ∧ (t.col : Int) = y.call.col := by
    intro y hy hok
    obtain ⟨before, after, rfl⟩ := List.append_of_mem hy
    have hsplit : before ++ y :: after ++ x :: later = before ++ y :: (after ++ x :: later) := by
      simp
    obtain ⟨t, ht, hrow, hcol, -⟩ := ((h.answer_iff before y _ hsplit).mp hok).1.exists_placed
    exact ⟨t, ht, hrow, hcol⟩
  constructor
  · intro hfree y hy hok hplace
    obtain ⟨t, ht, hrow, hcol⟩ := hplaced y hy hok
    refine hfree t (Deposit.mem_accepted.mpr ⟨y, hy, hok, ht⟩) ?_
    rw [hrow, hcol]
    exact hplace
  · intro hother t ht hplace
    obtain ⟨y, hy, hok, hyt⟩ := Deposit.mem_accepted.mp ht
    obtain ⟨u, hu, hrow, hcol⟩ := hplaced y hy hok
    obtain rfl := Option.some.inj (hyt.symm.trans hu)
    refine hother y hy hok ?_
    rw [← hrow, ← hcol]
    exact hplace

/-- **Storage invariant.** Of any calls that hand blocks to an empty grid one after the other, a
call is accepted just when its place is on the grid, its block is a matrix of the size of the place
and no earlier call was accepted for the place; a rejected call leaves the grid as it was. The grid
that they leave

* lists what was accepted, in this order, under rows and under columns, where the one list holds a
  block just when the other one does, and no list holds two blocks for one place;
* counts as many blocks as the lists under rows hold together, and as the lists under columns do;
* has slices for its rows and for its columns that follow each other without gaps or overlaps, from
  zero up to all rows and all columns. -/
theorem kept_of_deposits {f : Format} {heights widths : List Int}
    (hJ : empty? f heights widths = .ok J) (cs : List (Insertion K)) :
    Kept (heights.map Int.toNat) (widths.map Int.toNat) (J.deposits cs).1 (J.deposits cs).2 := by
  obtain ⟨-, rfl⟩ := empty?_eq_ok.mp hJ
  have h := (lists_blank f (heights.map Int.toNat) (widths.map Int.toNat)).follows_deposits
    (fun i => by simp) cs
  have hlists := h.lists
  have hscattered := h.scattered
  rw [List.nil_append] at hlists hscattered
  exact {
    sizes := ⟨h.heights, h.widths⟩
    lines := ⟨by rw [hlists.rows, h.heights]; rfl, by rw [hlists.cols, h.widths]; rfl⟩
    accepted_iff := by
      intro earlier x later hsplit
      rw [hsplit] at h
      rw [← h.free_iff]
      exact h.answer_iff earlier x later rfl
    rejected := h.rejected
    row := hlists.row
    col := hlists.col
    mirror := fun i j B => hlists.mem_row_iff.trans hlists.mem_col_iff.symm
    nodup_row := by
      intro i
      rw [hlists.row, List.map_map]
      exact hscattered i
    nodup_col := by
      intro j
      rw [hlists.col, List.map_map]
      exact hscattered.nodup_col j
    count_row := hlists.sum_length_byRow.symm
    count_col := hlists.sum_length_byCol.symm
    rows := tiles _
    cols := tiles _ }

/-- Calls on a grid of two by two places, one of them of height zero: the second call is for a place
that has its block already, the third one hands over a nested list, the fourth one is for a place
counted from the back, and the fifth one stores a block without entries. -/
def insertionsSample : List (Insertion ℚ) :=
  let block : Given ℚ := .tensor (.ofSlabs .double [1] [[1], [2]])
  [⟨0, 0, block⟩, ⟨0, 0, block⟩, ⟨0, 1, .nested (.ofSlabs .double [2] [[1, 2], [3, 4]])⟩,
    ⟨-1, 0, block⟩, ⟨1, 1, .tensor (.ofSlabs .double [2] [])⟩]

/-- Of the five calls the first and the last are accepted. -/
theorem kept_insertionsSample : ∃ J : BlockGrid ℚ, empty? .double [2, 0] [1, 2] = .ok J ∧
    (J.deposits insertionsSample).1.map (·.answer.isOk) = [true, false, false, false, true] ∧
    Kept [2, 0] [1, 2] (J.deposits insertionsSample).1 (J.deposits insertionsSample).2 := by
  obtain ⟨J, hJ, hanswers⟩ := Outcome.exists_of_check
    (x := (empty? .double [2, 0] [1, 2] : Except (Error ℚ) (BlockGrid ℚ)))
    (P := fun J => (J.deposits insertionsSample).1.map (·.answer.isOk) ==
      [true, false, false, false, true]) (by decide +kernel)
  exact ⟨J, hJ, eq_of_beq hanswers, kept_of_deposits hJ insertionsSample⟩

end BlockGrid

end ConvexContact
