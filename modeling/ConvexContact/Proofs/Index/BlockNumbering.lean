import ConvexContact.Proofs.Index.Slabs

/-!
# Numberings by block

The velocities of a model and the equations of its constraints are numbered block by block: the
blocks are taken in some order, and the indices of each block get the next numbers
(`PartialPermutation.NumbersBlocks`). Such a numbering does with indices what the order does with
blocks:

* an index has a number when its block is one of those that are taken, and keeps its place in the
  block (`NumbersBlocks.number?_offset_add`, `NumbersBlocks.number?_eq_none`);
* what is gathered from joined blocks are the blocks in their order, joined
  (`NumbersBlocks.gather_flatten`).
-/

namespace ConvexContact.PartialPermutation

variable {K : Type}

/-- A numbering of the indices of the blocks `ks`, block by block. -/
structure NumbersBlocks (r : PartialPermutation) (sizes ks : List Nat) : Prop where
  valid : r.Valid
  domainSize : r.domainSize = total sizes
  inverse : r.inverse = ks.flatMap (blockIndices sizes)

/-- The indices of blocks can be pushed. -/
theorem exists_pushAll_blocks (sizes ks : List Nat) :
    ∃ r, (blank (total sizes)).pushAll (K := K)
      ((ks.flatMap (blockIndices sizes)).map Int.ofNat) = .ok r := by
  apply exists_pushAll
  intro i hi
  obtain ⟨n, hn, rfl⟩ := List.mem_map.mp hi
  have hdomain : (blank (total sizes)).domainSize = total sizes := List.length_replicate
  rw [hdomain]
  exact ⟨Int.natCast_nonneg n, Int.ofNat_lt.mpr (lt_of_mem_flatMap_blockIndices hn)⟩

namespace NumbersBlocks

variable {r : PartialPermutation} {sizes ks : List Nat} {k c l : Nat}

/-- Pushing the indices of blocks numbers them. -/
theorem of_pushAll (hks : ks.Nodup) (h : (blank (total sizes)).pushAll (K := K)
    ((ks.flatMap (blockIndices sizes)).map Int.ofNat) = .ok r) : r.NumbersBlocks sizes ks := by
  obtain ⟨hvalid, hdomain, -⟩ := (valid_blank _).pushAll h
  exact ⟨hvalid, hdomain.trans List.length_replicate,
    (valid_blank _).inverse_pushAll (nodup_flatMap_blockIndices sizes hks) h⟩

/-- The indices of a block have their numbers one after the other, behind those of the blocks that
are taken before. -/
theorem number?_offset_add (h : r.NumbersBlocks sizes ks) (hk : ks[k]? = some c)
    (hl : l < sizes.getD c 0) :
    r.number? (offset sizes c + l) = some (offset (ks.map fun c => sizes.getD c 0) k + l) := by
  have hsize : (ks.map fun c => sizes.getD c 0).getD k 0 = sizes.getD c 0 := by
    rw [List.getD_eq_getElem?_getD, List.getElem?_map, hk]
    rfl
  have hlt : offset (ks.map fun c => sizes.getD c 0) k + l < r.inverse.length := by
    rw [h.inverse, length_flatMap_blockIndices]
    exact offset_add_lt (by rw [hsize]; exact hl)
  have hentry := getD_map_flatMap_blockIndices id 0 hk hl
  rw [List.map_id, ← h.inverse, List.getD_eq_getElem _ _ hlt] at hentry
  rw [h.valid.number?_eq_some_iff, List.getElem?_eq_getElem hlt, hentry]
  rfl

/-- The indices of a block that is not taken have no numbers. -/
theorem number?_eq_none (h : r.NumbersBlocks sizes ks) (hc : c ∉ ks) (hl : l < sizes.getD c 0) :
    r.number? (offset sizes c + l) = none := by
  rw [h.valid.number?_eq_none_iff, h.inverse]
  intro hmem
  obtain ⟨c', hc', hmem⟩ := List.mem_flatMap.mp hmem
  obtain rfl := block_unique hmem (mem_blockIndices.mpr ⟨l, hl, rfl⟩)
  exact hc hc'

/-- Where all blocks are taken, all indices have numbers. -/
theorem mem_inverse (h : r.NumbersBlocks sizes ks) (hks : ∀ c < sizes.length, c ∈ ks) {i : Nat}
    (hi : i < r.domainSize) : i ∈ r.inverse := by
  rw [h.domainSize] at hi
  obtain ⟨c, l, hl, rfl⟩ := exists_offset_add hi
  rw [h.inverse]
  exact List.mem_flatMap.mpr ⟨c, hks c (lt_length_of_lt_size hl), mem_blockIndices.mpr ⟨l, hl, rfl⟩⟩

/-- There are as many numbers as the blocks that are taken have indices. -/
theorem length_inverse (h : r.NumbersBlocks sizes ks) :
    r.inverse.length = total (ks.map fun c => sizes.getD c 0) := by
  rw [h.inverse, length_flatMap_blockIndices]

end NumbersBlocks

/-! ## Gathering by block -/

section Gather

variable {α : Type} {r : PartialPermutation} {ks : List Nat} {xss : List (List α)}

/-- What a numbering picks from joined blocks are the blocks that are taken, joined. -/
theorem NumbersBlocks.pick_flatten (h : r.NumbersBlocks (xss.map List.length) ks)
    (hks : ∀ c ∈ ks, c < xss.length) : pick xss.flatten r.inverse = (pick xss ks).flatten := by
  cases hflat : xss.flatten with
  | nil =>
    -- without entries there is nothing to pick
    have hnone : (pick xss ks).flatten = [] := by
      rw [List.flatten_eq_nil_iff] at hflat ⊢
      intro xs hxs
      obtain ⟨c, -, hc⟩ := List.mem_filterMap.mp hxs
      exact hflat xs (List.mem_of_getElem? hc)
    rw [hnone]
    exact List.filterMap_eq_nil_iff.mpr fun _ _ => rfl
  | cons x _ =>
    have hlt : ∀ i ∈ r.inverse, i < xss.flatten.length := by
      intro i hi
      have hi := h.valid.lt_of_mem hi
      rwa [h.domainSize, total_eq_sum, ← List.length_flatten] at hi
    -- with an entry to stand for places that do not exist, both sides are maps over the indices
    rw [← hflat, flatten_pick hks x, ← h.inverse]
    exact pick_eq_map hlt x

/-- **Lists.** Gathering from joined blocks gives the blocks that are taken, joined. -/
theorem NumbersBlocks.gather_flatten (h : r.NumbersBlocks (xss.map List.length) ks)
    (hks : ∀ c ∈ ks, c < xss.length) :
    r.gather (K := K) xss.flatten = .ok (pick xss ks).flatten := by
  rw [gather_eq_ok, h.domainSize, total_eq_sum, List.length_flatten, h.pick_flatten hks]
  exact ⟨rfl, rfl⟩

end Gather

/-! ## Tensors by block -/

section Tensors

variable [Zero K] {r : PartialPermutation} {ks : List Nat} {shape : List Nat}

/-- **Tensors.** Gathering from a tensor whose slabs are joined blocks gives the blocks that are
taken, joined. -/
theorem NumbersBlocks.gatherTensor_ofSlabs (f : Format) {xss : List (List (List K))}
    (h : r.NumbersBlocks (xss.map List.length) ks) (hks : ∀ c ∈ ks, c < xss.length)
    (hshape : ∀ xs ∈ xss, ∀ x ∈ xs, x.length = Shape.size shape) :
    r.gatherTensor (Tensor.ofSlabs f shape xss.flatten) =
      .ok (Tensor.ofSlabs f shape (pick xss ks).flatten) := by
  have hrows : ∀ x ∈ xss.flatten, x.length = Shape.size shape := by
    intro x hx
    obtain ⟨xs, hxs, hx⟩ := List.mem_flatten.mp hx
    exact hshape xs hxs x hx
  rw [h.valid.gatherTensor_ofSlabs hrows, h.gather_flatten hks]
  rfl

end Tensors

end ConvexContact.PartialPermutation
