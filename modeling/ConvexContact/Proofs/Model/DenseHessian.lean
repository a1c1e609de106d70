import ConvexContact.Proofs.Evaluation.Hessian
import ConvexContact.Proofs.Model.Blocks
import ConvexContact.Proofs.Model.Couplings
import ConvexContact.Proofs.Model.Morphism

/-!
# The dense Hessian

The dense Hessian is assembled from cells, one for each pair of cliques. A cell starts with the
dynamics matrix on the diagonal and with nothing elsewhere, and every constraint that couples both
cliques adds `J_bᵀ·G·J_a` to the cell in block row `b` and block column `a`. So its entries are
those of `A + Jᵀ·G·J`, and applying it is the product that never forms the matrix.

Proof shape: `Model.IsCell` says of a cell that may still be empty what its entries are, so the loop
that adds terms needs no case for the first one (`IsCell.foldl`). One constraint is
`exists_hessianTerm`, one cell `exists_hessianBlock`, and all cells `exists_hessian`. The agreement
with the product exchanges the sums over columns and over constraints (`sum_blocks_mul`).
-/

namespace ConvexContact

namespace Model

variable {K : Type} [ExactField K] {m : Model K} {ts : List (PlacedBlock K)} {G : List (Mat K)}
  {b a : Nat}

/-! ## Cells

A cell may be empty, and stands for zeros then. So the first term that is added to a cell is no case
of its own. -/

/-- A cell of the Hessian in block row `b` and block column `a`: a matrix in the format of the model
with the entries `E`, or nothing, which stands for zeros. -/
def IsCell (m : Model K) (b a : Nat) (E : Nat → Nat → K) : Option (Mat K) → Prop
  | none => ∀ i j, i < m.sizes.getD b 0 → j < m.sizes.getD a 0 → E i j = 0
  | some U => (U.rows = m.sizes.getD b 0 ∧ U.cols = m.sizes.getD a 0 ∧ U.format = m.format) ∧
    ∀ i j, i < m.sizes.getD b 0 → j < m.sizes.getD a 0 → U.get i j = E i j

/-- Cells with the same entries. -/
theorem IsCell.congr {E F : Nat → Nat → K} {T : Option (Mat K)} (hT : m.IsCell b a E T)
    (h : ∀ i j, i < m.sizes.getD b 0 → j < m.sizes.getD a 0 → E i j = F i j) :
    m.IsCell b a F T := by
  cases T with
  | none =>
    intro i j hi hj
    rw [← h i j hi hj, hT i j hi hj]
  | some U =>
    refine ⟨hT.1, fun i j hi hj => ?_⟩
    rw [hT.2 i j hi hj, h i j hi hj]

/-- **Step.** A term is added to a cell, or is its first one. -/
theorem IsCell.addTerm {E F : Nat → Nat → K} {sum : Option (Mat K)} {term : Mat K}
    (hsum : m.IsCell b a E sum) (hterm : m.IsCell b a F (some term)) :
    m.IsCell b a (fun i j => E i j + F i j) (addTerm sum term) := by
  obtain ⟨hfits, hget⟩ := hterm
  -- an empty cell stands for zeros, so the first term is the sum
  cases sum with
  | none =>
    refine ⟨hfits, fun i j hi hj => ?_⟩
    change term.get i j = E i j + F i j
    rw [hget i j hi hj, hsum i j hi hj, zero_add]
  | some s =>
    obtain ⟨⟨hrows, hcols, hformat⟩, hs⟩ := hsum
    refine ⟨⟨hrows, hcols, ?_⟩, fun i j hi hj => ?_⟩
    · change s.format.join term.format = m.format
      rw [hformat, hfits.2.2, Format.join_self]
    · have hadd := Mat.map_get_add Reading.exact (A := s) (B := term) (i := i) (j := j)
        (by rw [hrows]; exact hi) (by rw [hcols]; exact hj)
      simp only [Reading.exact_apply] at hadd
      rw [hadd, hs i j hi hj, hget i j hi hj]

/-- **Loop.** What is added to a cell, one term after the other, adds up. -/
theorem IsCell.foldl {terms : List (Option (Mat K))} {Es : List (Nat → Nat → K)}
    (h : List.Forall₂ (fun T E => m.IsCell b a E T) terms Es) {E : Nat → Nat → K}
    {start : Option (Mat K)} (hstart : m.IsCell b a E start) :
    m.IsCell b a (fun i j => E i j + (Es.map fun F => F i j).sum)
      ((terms.filterMap id).foldl Model.addTerm start) := by
  induction h generalizing E start with
  | nil => simpa using hstart
  | @cons T F terms Es hT _ ih =>
    -- a constraint that contributes nothing is skipped, and adds zeros
    cases T with
    | none =>
      refine (ih hstart).congr fun i j hi hj => ?_
      rw [List.map_cons, List.sum_cons, hT i j hi hj, zero_add]
    | some U =>
      refine (ih (hstart.addTerm hT)).congr fun i j _ _ => ?_
      rw [List.map_cons, List.sum_cons, add_assoc]

/-- Entry `i, j` of `J_bᵀ·G·J_a`, with the blocks of the `k`-th constraint. -/
def coupling (m : Model K) (G : List (Mat K)) (k b a i j : Nat) : K :=
  ∑ l ∈ Finset.range (m.stack.J.heights.getD k 0), m.stack.J.entry k b l i *
    ∑ q ∈ Finset.range (m.stack.J.heights.getD k 0), entryOf G k l q * m.stack.J.entry k a q j

/-- Entry `i, j` of the Hessian in block row `b` and block column `a`. -/
def hessianEntry (m : Model K) (G : List (Mat K)) (b a i j : Nat) : K :=
  (if a = b then entryOf m.dynamics a i j else 0) +
    ∑ k ∈ Finset.range G.length, m.coupling G k b a i j

/-- The constraints whose rows have blocks in columns `b` and `a`. -/
def touching (m : Model K) (G : List (Mat K)) (b a : Nat) : Finset Nat :=
  (Finset.range G.length).filter fun k =>
    (m.stack.J.block? k b).isSome ∧ (m.stack.J.block? k a).isSome

/-- A constraint that does not couple two cliques contributes nothing to their cell. -/
theorem coupling_eq_zero {k i j : Nat}
    (h : m.stack.J.block? k b = none ∨ m.stack.J.block? k a = none) :
    m.coupling G k b a i j = 0 := by
  rw [coupling]
  rcases h with h | h
  · refine Finset.sum_eq_zero fun l _ => ?_
    rw [BlockGrid.entry, h]
    exact zero_mul _
  · refine Finset.sum_eq_zero fun l _ => ?_
    rw [Finset.sum_eq_zero fun q _ => ?_, mul_zero]
    rw [BlockGrid.entry, h]
    exact mul_zero _

/-- Only constraints that touch both cliques contribute to a cell. -/
theorem sum_touching (m : Model K) (G : List (Mat K)) (b a i j : Nat) :
    ∑ k ∈ m.touching G b a, m.coupling G k b a i j =
      ∑ k ∈ Finset.range G.length, m.coupling G k b a i j := by
  refine Finset.sum_filter_of_ne fun k _ hne => ?_
  simp only [Option.isSome_iff_ne_none]
  exact ⟨fun hb => hne (coupling_eq_zero (Or.inl hb)), fun ha => hne (coupling_eq_zero (Or.inr ha))⟩

/-- What a constraint adds to a cell. -/
theorem WellFormed.exists_hessianTerm (h : m.WellFormed ts) (hG : m.FitsBlocks G) {k : Nat}
    {B : Mat K} (hB : G[k]? = some B) (b a : Nat) :
    ∃ T, m.hessianTerm b a k B = .ok T ∧ m.IsCell b a (m.coupling G k b a) T := by
  have hmem := List.mem_of_getElem? hB
  obtain ⟨hrows, hcols⟩ := hG.size hB
  have hne := ne_boolean_of_floating h.floating
  unfold hessianTerm
  cases hb : m.stack.J.block? k b with
  -- without a block in one of the columns there is nothing to add
  | none => exact ⟨none, rfl, fun i j _ _ => coupling_eq_zero (Or.inl hb)⟩
  | some Jb =>
    cases ha : m.stack.J.block? k a with
    | none => exact ⟨none, rfl, fun i j _ _ => coupling_eq_zero (Or.inr ha)⟩
    | some Ja =>
      obtain ⟨hbrows, hbcols⟩ := h.lists.size_of_block? hb
      obtain ⟨harows, hacols⟩ := h.lists.size_of_block? ha
      have hbformat : Jb.format = m.format := h.block_format _ (h.lists.mem_of_block? hb)
      have haformat : Ja.format = m.format := h.block_format _ (h.lists.mem_of_block? ha)
      rw [h.widths] at hbcols hacols
      -- first `G·J_a` and then `J_bᵀ` times that, each on operands that fit
      have hinner : B.product? Ja = .ok (B.product Ja) :=
        Mat.product?_of_fits ((hG.format B hmem).trans haformat.symm) (hcols.trans harows.symm)
          (by rw [hG.format B hmem]; exact hne)
      have houter : Jb.transpose.product? (B.product Ja) =
          .ok (Jb.transpose.product (B.product Ja)) :=
        Mat.product?_of_fits (hbformat.trans (hG.format B hmem).symm) (hbrows.trans hrows.symm)
          (by change Jb.format ≠ _; rw [hbformat]; exact hne)
      refine ⟨some (Jb.transpose.product (B.product Ja)), ?_, ⟨hbcols, hacols, hbformat⟩, ?_⟩
      · change (B.product? Ja >>= fun GJ => some <$> Jb.transpose.product? GJ) = _
        rw [hinner, Outcome.bind_of_ok _ rfl, houter]
        rfl
      · intro i j hi hj
        have hproduct := Mat.map_get_product Reading.exact (A := Jb.transpose) (B := B.product Ja)
          (i := i) (j := j) (hrows.trans hbrows.symm) (by change i < Jb.cols; rw [hbcols]; exact hi)
          (by change j < Ja.cols; rw [hacols]; exact hj)
        refine hproduct.trans ?_
        change ∑ l ∈ Finset.range Jb.rows, _ = _
        rw [coupling, hbrows]
        apply Finset.sum_congr rfl
        intro l hl
        have hl := Finset.mem_range.mp hl
        have hinnerget := Mat.map_get_product Reading.exact (A := B) (B := Ja) (i := l) (j := j)
          (harows.trans hcols.symm) (by rw [hrows]; exact hl) (by rw [hacols]; exact hj)
        simp only [Reading.exact_apply] at hinnerget ⊢
        rw [Mat.get_transpose Jb (by rw [hbcols]; exact hi) (by rw [hbrows]; exact hl), hinnerget,
          hcols, BlockGrid.entry, hb]
        refine congrArg _ (Finset.sum_congr rfl fun q _ => ?_)
        rw [entryOf, hB, BlockGrid.entry, ha]
        rfl

/-- **Cells.** A cell has the entries of the Hessian. -/
theorem WellFormed.exists_hessianBlock (h : m.WellFormed ts) (hG : m.FitsBlocks G) (b a : Nat) :
    ∃ T, m.hessianBlock G b a = .ok T ∧ m.IsCell b a (m.hessianEntry G b a) T := by
  have hterms : ∀ Bk ∈ G.zipIdx, ∃ T, m.hessianTerm b a Bk.2 Bk.1 = .ok T ∧
      m.IsCell b a (m.coupling G Bk.2 b a) T :=
    fun Bk hBk => h.exists_hessianTerm hG (List.mem_zipIdx_iff_getElem?.mp hBk) b a
  obtain ⟨terms, hterms⟩ := exists_forall₂ hterms
  have hstart : m.IsCell b a (fun i j => if a = b then entryOf m.dynamics a i j else 0)
      (if b = a then m.dynamics[b]? else none) := by
    by_cases hba : b = a
    · subst hba
      rw [if_pos rfl]
      -- beyond the cliques a cell has no entries
      cases hA : m.dynamics[b]? with
      | none =>
        intro i j hi _
        have hsize : m.sizes.getD b 0 = 0 := by
          rw [sizes, List.getD_eq_getElem?_getD, List.getElem?_map, hA]
          rfl
        omega
      | some A =>
        have hmem := List.mem_of_getElem? hA
        have hsize := (getD_sizes_of_dynamics hA).symm
        refine ⟨⟨hsize, (h.square A hmem).trans hsize, h.dynamics_format A hmem⟩, fun i j _ _ => ?_⟩
        change A.get i j = if b = b then entryOf m.dynamics b i j else 0
        rw [if_pos rfl, entryOf_of_getElem? hA]
    · rw [if_neg hba]
      exact fun i j _ _ => if_neg (Ne.symm hba)
  have hcells : List.Forall₂ (fun T E => m.IsCell b a E T) terms
      (G.zipIdx.map fun Bk => m.coupling G Bk.2 b a) := by
    rw [List.forall₂_map_right_iff]
    exact hterms.flip.imp fun _ _ h => h.2
  refine ⟨_, ?_, (IsCell.foldl hcells hstart).congr fun i j _ _ => ?_⟩
  · rw [hessianBlock_eq,
      Outcome.bind_of_ok _ (Outcome.mapM_eq_ok.mpr (hterms.imp fun _ _ h => h.1))]
  · rw [hessianEntry, List.map_map, sum_map_eq_sum_range _ _ (Mat.zeros .double 0 0, 0),
      List.length_zipIdx]
    refine congrArg _ (Finset.sum_congr rfl fun k hk => ?_)
    have hk := Finset.mem_range.mp hk
    simp [List.getD_eq_getElem?_getD, hk]

/-! ## The matrix -/

omit [ExactField K] in
/-- The format of the Hessian is read off the first block, and it is that of the model. -/
theorem FitsBlocks.hessianFormat_eq (hG : m.FitsBlocks G) : m.hessianFormat G = m.format := by
  cases G with
  | nil => rfl
  | cons B Bs => exact hG.format B (by simp)

/-- A matrix that is `A + Jᵀ·G·J`: it has a row and a column for each velocity, and the cell in
block row `b` and block column `a` is the sum of the dynamics matrix, where `a` is `b`, and of
`J_bᵀ·G·J_a` for each constraint that touches both. -/
structure IsHessian (m : Model K) (G : List (Mat K)) (H : Mat K) : Prop where
  rows : H.rows = m.velocityCount
  cols : H.cols = m.velocityCount
  get : ∀ b a i j, i < m.sizes.getD b 0 → j < m.sizes.getD a 0 →
    H.get (offset m.sizes b + i) (offset m.sizes a + j) =
      (if a = b then entryOf m.dynamics a i j else 0) +
        ∑ k ∈ m.touching G b a, m.coupling G k b a i j

/-- **Dense Hessian.** The matrix is `A + Jᵀ·G·J`. -/
theorem WellFormed.exists_hessian (h : m.WellFormed ts) (hG : m.FitsBlocks G) :
    ∃ H, m.hessianOf G = .ok H ∧ m.IsHessian G H ∧ H.format = m.format := by
  -- every cell is filled with zeros when nothing was added to it
  have hcell : ∀ nb ∈ m.sizes.zipIdx, ∀ na ∈ m.sizes.zipIdx, ∃ C,
      (do return (← m.hessianBlock G nb.2 na.2).getD (Mat.zeros (m.hessianFormat G) nb.1 na.1) :
        Except (Error K) (Mat K)) = .ok C ∧ C.format = m.format ∧
      ∀ i j, i < m.sizes.getD nb.2 0 → j < m.sizes.getD na.2 0 →
        C.get i j = m.hessianEntry G nb.2 na.2 i j := by
    rintro ⟨height, b⟩ hb ⟨width, a⟩ ha
    have hheight : m.sizes.getD b 0 = height := by
      rw [List.getD_eq_getElem?_getD, List.mem_zipIdx_iff_getElem?.mp hb]
      rfl
    have hwidth : m.sizes.getD a 0 = width := by
      rw [List.getD_eq_getElem?_getD, List.mem_zipIdx_iff_getElem?.mp ha]
      rfl
    obtain ⟨T, hT, hcell⟩ := h.exists_hessianBlock hG b a
    refine ⟨_, by rw [hT]; rfl, ?_⟩
    cases T with
    | none =>
      refine ⟨hG.hessianFormat_eq, fun i j hi hj => ?_⟩
      rw [hcell i j hi hj]
      exact Mat.get_ofFn _ _ (by rw [← hheight]; exact hi) (by rw [← hwidth]; exact hj)
    | some U => exact ⟨hcell.1.2.2, hcell.2⟩
  have hrow : ∀ nb ∈ m.sizes.zipIdx, ∃ row,
      (m.sizes.zipIdx.mapM fun na => do
        return (← m.hessianBlock G nb.2 na.2).getD (Mat.zeros (m.hessianFormat G) nb.1 na.1) :
          Except (Error K) (List (Mat K))) = .ok row ∧
      List.Forall₂ (fun na C => C.format = m.format ∧
        ∀ i j, i < m.sizes.getD nb.2 0 → j < m.sizes.getD na.2 0 →
          C.get i j = m.hessianEntry G nb.2 na.2 i j) m.sizes.zipIdx row := by
    intro nb hnb
    obtain ⟨row, hrow⟩ := exists_forall₂ (hcell nb hnb)
    exact ⟨row, Outcome.mapM_eq_ok.mpr (hrow.imp fun _ _ h => h.1), hrow.imp fun _ _ h => h.2⟩
  obtain ⟨cells, hcells⟩ := exists_forall₂ hrow
  have hformat : ∀ C ∈ cells.flatten, C.format = m.format := by
    intro C hC
    obtain ⟨row, hrow, hC⟩ := List.mem_flatten.mp hC
    obtain ⟨nb, -, -, hnb⟩ := exists_of_forall₂ hcells.flip hrow
    obtain ⟨na, -, hna⟩ := exists_of_forall₂ hnb.flip hC
    exact hna.1
  refine ⟨Mat.ofBlocks (Mat.joinFormats (m.hessianFormat G) cells.flatten) m.sizes m.sizes cells,
    ?_, ⟨rfl, rfl, fun b a i j hi hj => ?_⟩, ?_⟩
  · exact Outcome.bind_of_ok _ (Outcome.mapM_eq_ok.mpr (hcells.imp fun _ _ h => h.1))
  -- an entry of the joined matrix is one of its cell
  · have hzip : ∀ {k l : Nat}, l < m.sizes.getD k 0 →
        m.sizes.zipIdx[k]? = some (m.sizes.getD k 0, k) := by
      intro k l hl
      have hk := lt_length_of_lt_size hl
      simp [hk, List.getD_eq_getElem?_getD]
    obtain ⟨row, hrowb, -, hrow⟩ := getElem?_of_forall₂ hcells (hzip hi)
    obtain ⟨C, hCa, -, hget⟩ := getElem?_of_forall₂ hrow (hzip hj)
    have hentry := Mat.get_ofBlocks (f := Mat.joinFormats (m.hessianFormat G) cells.flatten) hrowb
      hCa hi hj
    rw [sum_touching, hentry]
    exact (Mat.map_entryIn Reading.exact _ C i j).trans (hget i j hi hj)
  · change Mat.joinFormats (m.hessianFormat G) cells.flatten = m.format
    rw [hG.hessianFormat_eq]
    exact Mat.joinFormats_eq hformat

/-! ## Applying the matrix

Both sides are double sums over constraints and cliques. On one side the cliques come first, on the
other the constraints. -/

/-- Weighted sums of entries, applied to a vector that is cut into blocks. -/
theorem sum_blocks_mul (sizes : List Nat) (s : Finset Nat) (c : Nat → K)
    (F : Nat → Nat → Nat → K) (w : Nat → Nat → K) :
    ∑ a ∈ Finset.range sizes.length, ∑ q ∈ Finset.range (sizes.getD a 0),
      (∑ l ∈ s, c l * F l a q) * w a q =
    ∑ l ∈ s, c l * ∑ a ∈ Finset.range sizes.length, ∑ q ∈ Finset.range (sizes.getD a 0),
      F l a q * w a q := by
  simp only [Finset.mul_sum, Finset.sum_mul]
  rw [Finset.sum_comm]
  apply Finset.sum_congr rfl
  intro a _
  rw [Finset.sum_comm]
  exact Finset.sum_congr rfl fun q _ => Finset.sum_congr rfl fun l _ => mul_assoc _ _ _

/-- The motions of constraints, place by place. -/
theorem WellFormed.motion_eq (h : m.WellFormed ts) (hts : BlockGrid.Scattered ts) (w : Vec K)
    (k l : Nat) :
    m.motion ts w k l =
      ∑ a ∈ Finset.range m.sizes.length, ∑ q ∈ Finset.range (m.sizes.getD a 0),
        m.stack.J.entry k a l q * w.coord Reading.exact m.sizes a q := by
  have hsum := h.lists.sum_forward_eq Reading.exact hts w k l
  rw [h.widths] at hsum
  exact hsum

/-- What a constraint adds to the cells of a row, applied to a vector. -/
theorem WellFormed.sum_coupling_mul (h : m.WellFormed ts) (hts : BlockGrid.Scattered ts)
    (G : List (Mat K)) (w : Vec K) (k b i : Nat) :
    ∑ a ∈ Finset.range m.sizes.length, ∑ q ∈ Finset.range (m.sizes.getD a 0),
      m.coupling G k b a i q * w.coord Reading.exact m.sizes a q =
    ∑ l ∈ Finset.range (m.stack.J.heights.getD k 0),
      m.stack.J.entry k b l i * m.resistance ts G w k l := by
  simp only [coupling, resistance]
  rw [sum_blocks_mul]
  refine Finset.sum_congr rfl fun l _ => congrArg _ ?_
  rw [sum_blocks_mul]
  refine Finset.sum_congr rfl fun q _ => congrArg _ ?_
  exact (h.motion_eq hts w k q).symm

/-- The entries of a row of the Hessian, applied to a vector. -/
theorem WellFormed.sum_hessianEntry_mul (h : m.WellFormed ts) (hts : BlockGrid.Scattered ts)
    (hG : m.FitsBlocks G) (w : Vec K) {b i : Nat} (hi : i < m.sizes.getD b 0) :
    ∑ a ∈ Finset.range m.sizes.length, ∑ q ∈ Finset.range (m.sizes.getD a 0),
      m.hessianEntry G b a i q * w.coord Reading.exact m.sizes a q =
    (∑ j ∈ Finset.range (m.sizes.getD b 0),
      entryOf m.dynamics b i j * w.coord Reading.exact m.sizes b j) +
    ((ts.filter fun t => t.col = b).map fun t =>
      ∑ l ∈ Finset.range t.block.rows, t.block.get l i * m.resistance ts G w t.row l).sum := by
  -- of the dynamics only the cell on the diagonal counts
  have hdiagonal : ∑ a ∈ Finset.range m.sizes.length, ∑ q ∈ Finset.range (m.sizes.getD a 0),
      (if a = b then entryOf m.dynamics a i q else 0) * w.coord Reading.exact m.sizes a q =
      ∑ j ∈ Finset.range (m.sizes.getD b 0),
        entryOf m.dynamics b i j * w.coord Reading.exact m.sizes b j := by
    rw [Finset.sum_eq_single b]
    · exact Finset.sum_congr rfl fun q _ => by rw [if_pos rfl]
    · exact fun a _ hab => Finset.sum_eq_zero fun q _ => by rw [if_neg hab, zero_mul]
    · exact fun hb => absurd (Finset.mem_range.mpr (lt_length_of_lt_size hi)) hb
  have hcoupled := sum_blocks_mul m.sizes (Finset.range G.length) (fun _ => 1)
    (fun k a q => m.coupling G k b a i q) fun a q => w.coord Reading.exact m.sizes a q
  simp only [one_mul, h.sum_coupling_mul hts] at hcoupled
  have hback := h.lists.sum_backward_eq Reading.exact hts (m.resistance ts G w) b i
  simp only [Reading.exact_apply] at hback
  -- both sides are sums over columns now
  rw [hback, ← hdiagonal, ← hG.length, ← hcoupled, ← Finset.sum_add_distrib]
  apply Finset.sum_congr rfl
  intro a _
  rw [← Finset.sum_add_distrib]
  exact Finset.sum_congr rfl fun q _ => add_mul _ _ _

/-- **Agreement.** Applying the matrix is the product that never forms it. -/
theorem WellFormed.mulVec_hessian (h : m.WellFormed ts) (hts : BlockGrid.Scattered ts)
    (hG : m.FitsBlocks G) {H : Mat K} (hH : m.IsHessian G H) (hformat : H.format = m.format)
    {w : Vec K} (hw : m.Fits w) : m.multiplyHessianOf G w = .ok (H.mulVec w) := by
  obtain ⟨x, hx, hxsize, hxformat, hxcoord⟩ := h.exists_product hG hw
  refine hx.trans (congrArg Except.ok (Eq.symm (Vec.ext_get ?_ ?_ fun n hn => ?_)))
  · exact hformat.trans hxformat.symm
  · rw [Mat.size_mulVec, hH.rows, hxsize]
  · rw [Mat.size_mulVec, hH.rows] at hn
    obtain ⟨b, i, hi, rfl⟩ := exists_offset_add hn
    have hproduct := Mat.map_get_mulVec Reading.exact (hw.size.trans hH.cols.symm)
      (offset m.sizes b + i)
    refine hproduct.trans (Eq.trans ?_ (hxcoord b i hi).symm)
    rw [← h.sum_hessianEntry_mul hts hG w hi, hH.cols, velocityCount, sum_range_sum]
    refine Finset.sum_congr rfl fun a _ => Finset.sum_congr rfl fun q hq => ?_
    rw [hH.get b a i q hi (Finset.mem_range.mp hq), sum_touching]
    rfl

/-! ## Models of problems -/

section Built

variable {p : ContactProblem K} {Ls : List (CholeskyFactor K)} {v : Vec K}

/-- Without constraints the Hessian is empty, whatever the format. -/
theorem Steps.hessian_without_constraints (h : Steps p m Ls) (hnone : p.constraints = [])
    (hG : m.valueAt v .constraintsHessian = .ok G) :
    G = [] ∧ ∃ H : Mat K, m.hessianOf G = .ok H ∧ m.IsHessian G H ∧
      ∀ w, m.Fits w → m.multiplyHessianOf G w = .ok (H.mulVec w) := by
  obtain ⟨hdynamics, hmembers, hheights⟩ := h.without_constraints hnone
  have hsizes : m.sizes = [] := by rw [sizes, hdynamics]; rfl
  have hcount : m.velocityCount = 0 := by rw [velocityCount, hsizes]; rfl
  obtain rfl : G = [] := by
    rw [valueAt_constraintsHessian] at hG
    obtain ⟨y, -, hG⟩ := Outcome.bind_eq_ok.mp hG
    obtain ⟨answer, hanswer, hG⟩ := Outcome.bind_eq_ok.mp hG
    obtain rfl := Except.ok.inj hG
    rw [Stack.projectWithHessian, Stack.projectAll, hmembers] at hanswer
    split at hanswer
    · cases hanswer
    · exact (congrArg Prod.snd (Except.ok.inj hanswer)).symm
  have hH : m.hessianOf [] = .ok (Mat.ofBlocks m.format [] [] []) := by
    rw [hessianOf, hsizes]
    rfl
  have hempty : m.IsHessian [] (Mat.ofBlocks m.format [] [] []) := by
    refine ⟨hcount.symm, hcount.symm, fun b a i j hi _ => ?_⟩
    have hlt := offset_add_lt hi
    rw [← velocityCount, hcount] at hlt
    exact absurd hlt (Nat.not_lt_zero _)
  refine ⟨rfl, _, hH, hempty, fun w hw => ?_⟩
  have hwsize : w.size = 0 := hw.size.trans hcount
  have hcols : m.stack.J.cols = 0 := by
    obtain ⟨laws, hparts⟩ := h.exists_parts
    rw [BlockGrid.cols, hparts.widths_eq, ← h.sizes_eq, hsizes]
    rfl
  have hJ : m.stack.J.multiply w = .ok (Vec.concat w.format []) := by
    rw [BlockGrid.multiply, if_neg (not_not.mpr (hwsize.trans hcols.symm)), hheights]
    rfl
  have hA : m.multiplyDynamics w = .ok (Vec.concat w.format []) := by
    rw [multiplyDynamics, hdynamics, multiplyBlocks]
    exact if_neg (not_not.mpr hwsize)
  have hback : ∀ x, m.takeBack [] w x = .ok (Vec.zeros w.format w.size) := fun _ => rfl
  rw [multiplyHessianOf_eq, hJ, Outcome.bind_of_ok _ rfl, hback, Outcome.bind_of_ok _ rfl, hA]
  refine congrArg Except.ok (Vec.ext_get ?_ rfl fun n hn => absurd hn (Nat.not_lt_zero n))
  change w.format.join w.format = m.format
  rw [Format.join_self, hw.format]

/-- **The dense and the matrix-free Hessian agree.** Let a model be built from a problem whose
projections keep the format, and let the blocks `G` of the Hessian have a value at velocities `v`,
from some state. From there the dense Hessian has a value, and it is `A + Jᵀ·G·J`, cell by cell. So
it is zero where no cluster couples two different cliques. Applying it to a vector is the product
with the Hessian.

No block needs to be symmetric, and the problem may lack constraints. That the format is kept is a
matter of rules of their own: a Jacobian in a wider format than the model could not be multiplied
with the blocks of the model at all, and no named projection answers with one. -/
theorem hessian_eq_product (hp : p.Constructed) (hm : build? p = .ok m)
    (hkeep : ∀ c ∈ p.constraints, c.projection.KeepsFormat) (hv : m.Fits v)
    {s : ModelState K (Quantity.Value K)} (hs : s.size = m.velocityCount)
    (hG : m.evalAt s .constraintsHessian (.tensor v.toTensor) = .ok G) :
    ∃ H : Mat K, m.evalAt s .hessian (.tensor v.toTensor) = .ok H ∧
      G.length = p.constraints.length ∧ m.IsHessian G H ∧
      (∀ b a i j, i < m.sizes.getD b 0 → j < m.sizes.getD a 0 → a ≠ b → ¬ m.couples a b →
        H.get (offset m.sizes b + i) (offset m.sizes a + j) = 0) ∧
      ∀ w, m.Fits w →
        m.productAt s (.tensor v.toTensor) (.tensor w.toTensor) = .ok (H.mulVec w) := by
  obtain ⟨Ls, h⟩ := exists_steps hm
  have hwf := hp.wellFormed
  rw [evalAt_constraintsHessian hs hv.size] at hG
  have hvalue : ∃ H : Mat K, m.hessianOf G = .ok H ∧ G.length = p.constraints.length ∧
      m.IsHessian G H ∧ ∀ w, m.Fits w → m.multiplyHessianOf G w = .ok (H.mulVec w) := by
    -- without constraints no matrix has been factored, so the format is unknown and nothing above
    -- applies
    by_cases hnone : p.constraints = []
    · obtain ⟨rfl, H, hH, hhessian, hproduct⟩ := h.hessian_without_constraints hnone hG
      exact ⟨H, hH, by rw [hnone]; rfl, hhessian, hproduct⟩
    · have hmodel := Steps.wellFormed hwf (h.floating hwf fun h => absurd h hnone) h
      have hfits := hmodel.fits_of_blocks hv
        (h.forall_members (P := fun P _ => P.KeepsFormat) hkeep) hG
      obtain ⟨H, hH, hhessian, hformat⟩ := hmodel.exists_hessian hfits
      refine ⟨H, hH, ?_, hhessian, fun w hw => ?_⟩
      · rw [hfits.length, hmodel.heights, List.length_map, h.length_members]
      · exact hmodel.mulVec_hessian (h.scattered hwf) hfits hhessian hformat hw
  obtain ⟨H, hH, hlength, hhessian, hproduct⟩ := hvalue
  refine ⟨H, ?_, hlength, hhessian, fun b a i j hi hj hne hapart => ?_, fun w hw => ?_⟩
  · rw [evalAt_hessian hs hv.size, valueAt_hessian, hG]
    exact hH
  -- a constraint that touches both cliques would be in a cluster with them
  · rw [hhessian.get b a i j hi hj, if_neg hne, zero_add]
    refine Finset.sum_eq_zero fun k hk => absurd ?_ hapart
    obtain ⟨-, hb, ha⟩ := Finset.mem_filter.mp hk
    obtain ⟨B, hB⟩ := Option.isSome_iff_exists.mp hb
    obtain ⟨A, hA⟩ := Option.isSome_iff_exists.mp ha
    exact h.couples_of_block? hA hB
  · rw [productAt_eq hs hv.size, hG]
    exact hproduct w hw

/-- Constraints on one clique and between two, with several kinds of projections. -/
theorem hessian_eq_product_sample :
    ∃ (p : ContactProblem ℚ) (m : Model ℚ) (G : List (Mat ℚ)) (H : Mat ℚ),
      ContactProblem.mixedSample? = .ok p ∧ build? p = .ok m ∧
      m.evalAt m.makeState .constraintsHessian
        (.tensor (Vec.mk .double [1, -2, 3, 0, 1]).toTensor) = .ok G ∧
      m.evalAt m.makeState .hessian (.tensor (Vec.mk .double [1, -2, 3, 0, 1]).toTensor) = .ok H ∧
      m.IsHessian G H ∧
      m.productAt m.makeState (.tensor (Vec.mk .double [1, -2, 3, 0, 1]).toTensor)
        (.tensor (Vec.mk .double [0, 1, 4, -1, 2]).toTensor) =
          .ok (H.mulVec ⟨.double, [0, 1, 4, -1, 2]⟩) := by
  obtain ⟨p, hp, h⟩ := Outcome.exists_of_check (x := ContactProblem.mixedSample?)
    (P := fun p => p.constraints.all (fun c => !c.projection.isRule) &&
      (build? p).toOption.any fun m => m.velocityCount == 5 && m.format == .double &&
        (m.evalAt m.makeState .constraintsHessian
          (.tensor (Vec.mk .double [1, -2, 3, 0, 1]).toTensor)).toOption.any fun _ => true)
    (by decide +kernel)
  simp only [Bool.and_eq_true, List.all_eq_true, Bool.not_eq_true'] at h
  obtain ⟨hnamed, h⟩ := h
  obtain ⟨m, hm, h⟩ := Outcome.exists_of_check h
  simp only [Bool.and_eq_true, beq_iff_eq] at h
  obtain ⟨⟨hcount, hformat⟩, h⟩ := h
  obtain ⟨G, hG, -⟩ := Outcome.exists_of_check h
  have hfits : ∀ entries : List ℚ, entries.length = 5 → m.Fits ⟨.double, entries⟩ :=
    fun _ hlength => ⟨hlength.trans hcount.symm, hformat.symm⟩
  obtain ⟨H, hH, -, hhessian, -, hproduct⟩ :=
    hessian_eq_product (ContactProblem.constructed_mixedSample hp) hm
      (fun c hc => Projection.keepsFormat_of_named (hnamed c hc)) (hfits [1, -2, 3, 0, 1] rfl) rfl
      hG
  exact ⟨p, m, G, H, hp, hm, hG, hH, hhessian, hproduct _ (hfits [0, 1, 4, -1, 2] rfl)⟩

end Built

end Model

end ConvexContact
