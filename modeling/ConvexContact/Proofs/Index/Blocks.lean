import Mathlib.Algebra.BigOperators.Intervals
import Mathlib.Data.List.GetD
import ConvexContact.Index.Offsets

/-!
# Entries by block

A place in a list cut into blocks is named in two ways: by its index, and by a block `k` with a
place `l` in it. `offset sizes k + l` goes from the second name to the first. This module has what
is needed to go back and forth: every index below the total has such a name, sums over all indices
are sums over the blocks, and lists that are joined end to end have the joined ones as their blocks.

The facts about offsets go by induction on the sizes, where the first block is taken off and the
rest is shifted by `offset_cons_succ`. Sizes are read with `getD _ 0`, so that a block that is not
there has no entries and needs no case of its own.
-/

namespace ConvexContact

variable {α : Type}

/-- The total is the sum of the sizes. -/
theorem total_eq_sum (sizes : List Nat) : total sizes = sizes.sum := by
  induction sizes with
  | nil => rfl
  | cons n sizes ih => rw [total_cons, ih, List.sum_cons]

/-- With one more block in front, every later one begins that much later. -/
theorem offset_cons_succ (n : Nat) (sizes : List Nat) (k : Nat) :
    offset (n :: sizes) (k + 1) = n + offset sizes k := by
  simp [offset]

/-- The next block begins where a block ends. -/
theorem offset_add_size (sizes : List Nat) (k : Nat) :
    offset sizes (k + 1) = offset sizes k + sizes.getD k 0 := by
  cases h : sizes[k]? with
  | none =>
    have hlen : sizes.length ≤ k := List.getElem?_eq_none_iff.mp h
    simp [offset, List.getD_eq_getElem?_getD, h, List.take_of_length_le hlen,
      List.take_of_length_le (Nat.le_succ_of_le hlen)]
  | some n => simp [offset_succ h, List.getD_eq_getElem?_getD, h]

/-- A block that has entries is one of the list. -/
theorem lt_length_of_lt_size {sizes : List Nat} {k l : Nat} (h : l < sizes.getD k 0) :
    k < sizes.length := by
  by_contra hk
  rw [List.getD_eq_default _ _ (by omega)] at h
  omega

/-- A place in a block lies below the total. -/
theorem offset_add_lt {sizes : List Nat} {k l : Nat} (h : l < sizes.getD k 0) :
    offset sizes k + l < total sizes := by
  induction sizes generalizing k with
  | nil => simp at h
  | cons n sizes ih =>
    cases k with
    | zero =>
      have hl : l < n := by simpa using h
      simp only [offset_zero, total_cons]
      omega
    | succ k =>
      have hrest : offset sizes k + l < total sizes := ih (by simpa using h)
      rw [offset_cons_succ, total_cons]
      omega

/-- Every index below the total lies in some block. -/
theorem exists_offset_add {sizes : List Nat} {i : Nat} (h : i < total sizes) :
    ∃ k l, l < sizes.getD k 0 ∧ i = offset sizes k + l := by
  induction sizes generalizing i with
  | nil => simp at h
  | cons n sizes ih =>
    rw [total_cons] at h
    by_cases hi : i < n
    · exact ⟨0, i, by simpa using hi, by simp⟩
    · obtain ⟨k, l, hl, hil⟩ := ih (i := i - n) (by omega)
      refine ⟨k + 1, l, by simpa using hl, ?_⟩
      rw [offset_cons_succ]
      omega

/-- Sums over all indices are sums over the blocks of sums over their places. -/
theorem sum_range_sum {M : Type} [AddCommMonoid M] (sizes : List Nat) (F : Nat → M) :
    ∑ i ∈ Finset.range (total sizes), F i =
      ∑ k ∈ Finset.range sizes.length, ∑ l ∈ Finset.range (sizes.getD k 0),
        F (offset sizes k + l) := by
  induction sizes generalizing F with
  | nil => rfl
  | cons n sizes ih =>
    rw [total_cons, Finset.sum_range_add, List.length_cons, Finset.sum_range_succ', ih, add_comm]
    congr 1
    · refine Finset.sum_congr rfl fun k _ => Finset.sum_congr (by simp) fun l _ => ?_
      rw [offset_cons_succ, Nat.add_assoc]
    · simp

/-! ## Lists by block -/

/-- The entries of a block are entries of the list. -/
theorem getD_blockOf {sizes : List Nat} {k l : Nat} (h : l < sizes.getD k 0) (xs : List α) (d : α) :
    (blockOf sizes xs k).getD l d = xs.getD (offset sizes k + l) d := by
  have hl : l < offset sizes (k + 1) - offset sizes k := by
    rw [offset_add_size]
    omega
  simp [blockOf, slice, List.getD_eq_getElem?_getD, hl]

/-- The blocks of a list with as many entries as the sizes say have these sizes. -/
theorem length_blockOf {sizes : List Nat} {xs : List α} (h : xs.length = total sizes) (k : Nat) :
    (blockOf sizes xs k).length = sizes.getD k 0 := by
  rw [blockOf, length_slice, offset_add_size, h]
  by_cases hk : 0 < sizes.getD k 0
  · have hinside : sizes.getD k 0 - 1 < sizes.getD k 0 := by omega
    -- the last place of the block is below the total, so the block ends by then
    have hlast := offset_add_lt hinside
    omega
  · omega

/-- Lists joined end to end are read at the offsets of their lengths. -/
theorem getD_flatten {xss : List (List α)} {k l : Nat} (h : l < (xss.getD k []).length) (d : α) :
    xss.flatten.getD (offset (xss.map List.length) k + l) d = (xss.getD k []).getD l d := by
  induction xss generalizing k with
  | nil => simp at h
  | cons xs xss ih =>
    cases k with
    | zero =>
      have hl : l < xs.length := by simpa using h
      simp [List.getD_eq_getElem?_getD, List.getElem?_append_left hl]
    | succ k =>
      have hl : l < (xss.getD k []).length := by simpa using h
      rw [List.map_cons, offset_cons_succ, List.flatten_cons, Nat.add_assoc,
        List.getD_append_right _ _ _ _ (by omega), Nat.add_sub_cancel_left, ih hl]
      simp

/-! ## Chosen blocks -/

/-- The indices of a block are its places, counted from where it begins. -/
theorem mem_blockIndices {sizes : List Nat} {k i : Nat} :
    i ∈ blockIndices sizes k ↔ ∃ l, l < sizes.getD k 0 ∧ i = offset sizes k + l := by
  simp only [blockIndices, List.mem_map, List.mem_range]
  exact ⟨fun ⟨l, hl, h⟩ => ⟨l, hl, h.symm⟩, fun ⟨l, hl, h⟩ => ⟨l, hl, h.symm⟩⟩

/-- An index lies in one block only. -/
theorem block_unique {sizes : List Nat} {k k' i : Nat} (h : i ∈ blockIndices sizes k)
    (h' : i ∈ blockIndices sizes k') : k = k' := by
  have hlocate : ∀ b, i ∈ blockIndices sizes b → (locate sizes i).1 = b := by
    intro b hb
    obtain ⟨l, hl, rfl⟩ := mem_blockIndices.mp hb
    have hlt := lt_length_of_lt_size hl
    rw [List.getD_eq_getElem _ _ hlt] at hl
    rw [locate_offset_add (List.getElem?_eq_getElem hlt) hl]
  rw [← hlocate k h, hlocate k' h']

/-- The indices of different blocks are different. -/
theorem nodup_flatMap_blockIndices (sizes : List Nat) {ks : List Nat} (h : ks.Nodup) :
    (ks.flatMap (blockIndices sizes)).Nodup := by
  refine List.nodup_flatMap.mpr ⟨fun k _ => ?_, h.imp fun {k k'} hne => ?_⟩
  · refine List.Nodup.map (fun a b hab => ?_) List.nodup_range
    exact Nat.add_left_cancel hab
  · exact fun i hi hi' => hne (block_unique hi hi')

/-- The indices of blocks lie below the total. -/
theorem lt_of_mem_flatMap_blockIndices {sizes ks : List Nat} {i : Nat}
    (h : i ∈ ks.flatMap (blockIndices sizes)) : i < total sizes := by
  obtain ⟨k, -, hi⟩ := List.mem_flatMap.mp h
  obtain ⟨l, hl, rfl⟩ := mem_blockIndices.mp hi
  exact offset_add_lt hl

/-- Entries picked out block by block, in an order of one's own, have the chosen blocks as their
blocks. -/
theorem getD_map_flatMap_blockIndices {sizes ks : List Nat} (F : Nat → α) (d : α) {k b l : Nat}
    (hb : ks[k]? = some b) (hl : l < sizes.getD b 0) :
    ((ks.flatMap (blockIndices sizes)).map F).getD
      (offset (ks.map fun b => sizes.getD b 0) k + l) d = F (offset sizes b + l) := by
  have hblocks : (ks.flatMap (blockIndices sizes)).map F =
      (ks.map fun b => (blockIndices sizes b).map F).flatten := by
    rw [List.map_flatMap]
    rfl
  have hlengths : (ks.map fun b => sizes.getD b 0) =
      (ks.map fun b => (blockIndices sizes b).map F).map List.length := by
    rw [List.map_map]
    exact List.map_congr_left fun b _ => by simp [blockIndices]
  have hpart : (ks.map fun b => (blockIndices sizes b).map F).getD k [] =
      (blockIndices sizes b).map F := by
    simp [List.getD_eq_getElem?_getD, hb]
  rw [hblocks, hlengths, getD_flatten (by rw [hpart]; simpa [blockIndices] using hl), hpart]
  have hl' : l < (List.range (sizes.getD b 0)).length := by rw [List.length_range]; exact hl
  rw [blockIndices, List.map_map, List.getD_eq_getElem _ _ (by rw [List.length_map]; exact hl')]
  simp

/-- Chosen blocks have as many indices as their sizes add up to. -/
theorem length_flatMap_blockIndices (sizes ks : List Nat) :
    (ks.flatMap (blockIndices sizes)).length = total (ks.map fun b => sizes.getD b 0) := by
  rw [List.length_flatMap, total_eq_sum]
  exact congrArg List.sum (List.map_congr_left fun b _ => by simp [blockIndices])

end ConvexContact
