import Mathlib.Data.List.Forall2
import ConvexContact.Proofs.Index.Blocks

/-!
# Entries at chosen places

`pick xs is` lists the entries of `xs` at the places `is`. Picking the places of a numbering is what
gathering does, and picking a rearrangement of all places rearranges the list. Whatever is done
entry by entry can be done before or after picking.

The first section is about lists that agree entry by entry (`List.Forall₂`). Most facts about `pick`
are read off `forall₂_pick`, which says so of places and the entries found there. Places that do not
exist are left out by `pick`, so equations about it that mention lengths ask for places that do.
-/

namespace ConvexContact

variable {α β : Type} {xs : List α} {ys : List β} {is : List Nat}

/-! ## Answers to the entries of a list -/

/-- Answers to all entries of a list make a list of answers. -/
theorem exists_forall₂ {P : α → β → Prop} (h : ∀ x ∈ xs, ∃ y, P x y) :
    ∃ ys, List.Forall₂ P xs ys := by
  induction xs with
  | nil => exact ⟨[], List.Forall₂.nil⟩
  | cons x xs ih =>
    obtain ⟨y, hy⟩ := h x (by simp)
    obtain ⟨ys, hys⟩ := ih fun z hz => h z (List.mem_cons_of_mem _ hz)
    exact ⟨y :: ys, List.Forall₂.cons hy hys⟩

/-- What agrees with a list entry by entry has an answer to each entry. -/
theorem exists_of_forall₂ {P : α → β → Prop} (h : List.Forall₂ P xs ys) {x : α} (hx : x ∈ xs) :
    ∃ y ∈ ys, P x y := by
  induction h with
  | nil => cases hx
  | cons hxy _ ih =>
    rcases List.mem_cons.mp hx with rfl | hx
    · exact ⟨_, by simp, hxy⟩
    · obtain ⟨y, hy, hP⟩ := ih hx
      exact ⟨y, List.mem_cons_of_mem _ hy, hP⟩

/-- Related lists are related place by place. -/
theorem getElem?_of_forall₂ {P : α → β → Prop} (h : List.Forall₂ P xs ys) {k : Nat} {x : α}
    (hx : xs[k]? = some x) : ∃ y, ys[k]? = some y ∧ P x y := by
  obtain ⟨hk, rfl⟩ := List.getElem?_eq_some_iff.mp hx
  have hk' : k < ys.length := by rw [← h.length_eq]; exact hk
  exact ⟨_, List.getElem?_eq_getElem hk', (List.forall₂_iff_get.mp h).2 k hk hk'⟩

/-- An entry stands with its place in the list of entries with their places. -/
theorem getElem?_zipIdx_of_eq {k : Nat} {x : α} (h : xs[k]? = some x) :
    xs.zipIdx[k]? = some (x, k) := by
  rw [List.getElem?_zipIdx, h]
  simp

/-- Entries with their places agree with a list of the same length when they do place by place. -/
theorem forall₂_zipIdx {P : α × Nat → β → Prop} (hlength : xs.length = ys.length)
    (h : ∀ k x y, xs[k]? = some x → ys[k]? = some y → P (x, k) y) :
    List.Forall₂ P xs.zipIdx ys := by
  rw [List.forall₂_iff_get]
  refine ⟨by rw [List.length_zipIdx, hlength], fun k hk hk' => ?_⟩
  have hkx : k < xs.length := by rw [hlength]; exact hk'
  have hP := h k _ _ (List.getElem?_eq_getElem hkx) (List.getElem?_eq_getElem hk')
  simpa using hP

/-- Related lists are related with their places. -/
theorem forall₂_zipIdx_zipIdx {P : α → β → Prop} (h : List.Forall₂ P xs ys) (n : Nat) :
    List.Forall₂ (fun x y => P x.1 y.1 ∧ x.2 = y.2) (xs.zipIdx n) (ys.zipIdx n) := by
  induction h generalizing n with
  | nil => exact List.Forall₂.nil
  | cons hxy _ ih => exact List.Forall₂.cons ⟨hxy, rfl⟩ (ih (n + 1))

/-- Functions that agree on related entries make one list of related lists. -/
theorem map_eq_of_forall₂ {γ : Type} {P : α → β → Prop} {f : α → γ} {g : β → γ}
    (h : List.Forall₂ P xs ys) (hfg : ∀ x y, P x y → g y = f x) : ys.map g = xs.map f := by
  rw [← List.forall₂_eq_eq_eq, List.forall₂_map_left_iff, List.forall₂_map_right_iff]
  exact h.flip.imp fun y x hxy => hfg x y hxy

/-- Related lists stay related when each entry is combined with what stands at its place. -/
theorem forall₂_zipWith {ι γ δ : Type} {P : α → β → Prop} {Q : γ → δ → Prop} {f : ι → α → γ}
    {g : ι → β → δ} (h : List.Forall₂ P xs ys) (hfg : ∀ i x y, P x y → Q (f i x) (g i y))
    (is : List ι) : List.Forall₂ Q (List.zipWith f is xs) (List.zipWith g is ys) := by
  induction h generalizing is with
  | nil => simp
  | cons hxy _ ih =>
    cases is with
    | nil => simp
    | cons i is => exact List.Forall₂.cons (hfg i _ _ hxy) (ih is)

/-- The last entry is changed at its place. -/
theorem modify_length_append (xs : List α) (x : α) (f : α → α) :
    (xs ++ [x]).modify xs.length f = xs ++ [f x] := by
  induction xs with
  | nil => rfl
  | cons y xs ih => simp [ih]

/-! ## Picking -/

/-- The entries at given places, places behind the last one left out. -/
def pick (xs : List α) (is : List Nat) : List α := is.filterMap fun i => xs[i]?

/-- Places that exist have one entry each. -/
theorem forall₂_pick (h : ∀ i ∈ is, i < xs.length) :
    List.Forall₂ (fun i x => xs[i]? = some x) is (pick xs is) := by
  induction is with
  | nil => exact List.Forall₂.nil
  | cons i is ih =>
    have hlt : i < xs.length := h i (by simp)
    have hi : xs[i]? = some xs[i] := List.getElem?_eq_getElem hlt
    rw [pick, List.filterMap_cons_some hi]
    exact List.Forall₂.cons hi (ih fun j hj => h j (List.mem_cons_of_mem _ hj))

/-- Places that exist are answered each. -/
theorem length_pick (h : ∀ i ∈ is, i < xs.length) : (pick xs is).length = is.length :=
  (forall₂_pick h).length_eq.symm

/-- What is picked stands in the order of the places. -/
theorem getElem?_pick (h : ∀ i ∈ is, i < xs.length) {k i : Nat} (hk : is[k]? = some i) :
    (pick xs is)[k]? = xs[i]? := by
  obtain ⟨hlt, rfl⟩ := List.getElem?_eq_some_iff.mp hk
  have hlt' : k < (pick xs is).length := by rw [length_pick h]; exact hlt
  rw [List.getElem?_eq_getElem hlt']
  exact (List.forall₂_iff_get.mp (forall₂_pick h) |>.2 k hlt hlt').symm

/-- Where all places exist, picking is a map with any entry for those that do not. -/
theorem pick_eq_map (h : ∀ i ∈ is, i < xs.length) (d : α) :
    pick xs is = is.map fun i => xs.getD i d := by
  rw [← List.forall₂_eq_eq_eq, List.forall₂_map_right_iff]
  apply (forall₂_pick h).flip.imp
  intro x i hx
  rw [List.getD_eq_getElem?_getD, hx, Option.getD_some]

/-- A function of the entries may be applied before picking, since it makes no place come or go. -/
theorem map_pick (f : α → β) (xs : List α) (is : List Nat) :
    (pick xs is).map f = pick (xs.map f) is := by
  rw [pick, pick, List.map_filterMap]
  refine congrArg (fun g => is.filterMap g) (funext fun i => ?_)
  rw [List.getElem?_map]

/-- Picking all places in their order changes nothing. -/
theorem pick_range (xs : List α) : pick xs (List.range xs.length) = xs := by
  apply List.ext_getElem?
  intro k
  by_cases hk : k < xs.length
  · exact getElem?_pick (by simp) (List.getElem?_range hk)
  · rw [List.getElem?_eq_none_iff.mpr, List.getElem?_eq_none_iff.mpr (by omega)]
    rw [length_pick (by simp), List.length_range]
    omega

/-- Picking a rearrangement of all places rearranges the list. -/
theorem pick_perm (h : is.Perm (List.range xs.length)) : (pick xs is).Perm xs := by
  have hperm := h.filterMap fun i => xs[i]?
  have hrange : (List.range xs.length).filterMap (fun i => xs[i]?) = xs := pick_range xs
  rw [hrange] at hperm
  exact hperm

/-- Lists that agree entry by entry agree at the chosen places. -/
theorem forall₂_pick_pick {P : α → β → Prop} (h : List.Forall₂ P xs ys) (is : List Nat) :
    List.Forall₂ P (pick xs is) (pick ys is) := by
  induction is with
  | nil => exact List.Forall₂.nil
  | cons i is ih =>
    have hlen := h.length_eq
    by_cases hi : i < xs.length
    · have hi' : i < ys.length := by omega
      have hx : xs[i]? = some xs[i] := List.getElem?_eq_getElem hi
      have hy : ys[i]? = some ys[i] := List.getElem?_eq_getElem hi'
      rw [pick, pick, List.filterMap_cons_some hx, List.filterMap_cons_some hy]
      exact List.Forall₂.cons (List.forall₂_iff_get.mp h |>.2 i hi hi') ih
    -- a place behind the end of one list is behind the end of both
    · have hx : xs[i]? = none := List.getElem?_eq_none_iff.mpr (by omega)
      have hy : ys[i]? = none := List.getElem?_eq_none_iff.mpr (by omega)
      rw [pick, pick, List.filterMap_cons_none hx, List.filterMap_cons_none hy]
      exact ih

/-- Two lists of one length are picked from together. -/
theorem zip_pick (h : xs.length = ys.length) (is : List Nat) :
    (pick xs is).zip (pick ys is) = pick (xs.zip ys) is := by
  induction is with
  | nil => rfl
  | cons i is ih =>
    by_cases hi : i < xs.length
    · have hx : xs[i]? = some xs[i] := List.getElem?_eq_getElem hi
      have hy : ys[i]? = some ys[i] := List.getElem?_eq_getElem (by omega)
      have hxy : (xs.zip ys)[i]? = some (xs[i], ys[i]) := List.getElem?_zip_eq_some.mpr ⟨hx, hy⟩
      rw [pick, pick, pick, List.filterMap_cons_some hx, List.filterMap_cons_some hy,
        List.filterMap_cons_some hxy, List.zip_cons_cons]
      exact congrArg _ ih
    · have hx : xs[i]? = none := List.getElem?_eq_none_iff.mpr (by omega)
      have hy : ys[i]? = none := List.getElem?_eq_none_iff.mpr (by omega)
      have hxy : (xs.zip ys)[i]? = none := List.getElem?_eq_none_iff.mpr (by simp; omega)
      rw [pick, pick, pick, List.filterMap_cons_none hx, List.filterMap_cons_none hy,
        List.filterMap_cons_none hxy]
      exact ih

/-- What is picked at the indices of a block is the block. -/
theorem pick_blockIndices {sizes : List Nat} (h : xs.length = total sizes) (k : Nat) :
    pick xs (blockIndices sizes k) = blockOf sizes xs k := by
  have hlt : ∀ i ∈ blockIndices sizes k, i < xs.length := by
    intro i hi
    obtain ⟨l, hl, rfl⟩ := mem_blockIndices.mp hi
    exact (offset_add_lt hl).trans_eq h.symm
  have hlength : (pick xs (blockIndices sizes k)).length = (blockOf sizes xs k).length := by
    rw [length_pick hlt, length_blockOf h, blockIndices, List.length_map, List.length_range]
  apply List.ext_getElem hlength
  intro l hl hl'
  have hsize : l < sizes.getD k 0 := by rwa [length_blockOf h] at hl'
  have hindex : (blockIndices sizes k)[l]? = some (offset sizes k + l) := by
    simp only [blockIndices, List.getElem?_map, List.getElem?_range hsize, Option.map_some]
  have hentry := getElem?_pick hlt hindex
  have hbound : offset sizes k + l < xs.length := (offset_add_lt hsize).trans_eq h.symm
  have hblock := getD_blockOf hsize xs xs[offset sizes k + l]
  rw [List.getD_eq_getElem _ _ hl', List.getD_eq_getElem _ _ hbound] at hblock
  rw [List.getElem?_eq_getElem hl, List.getElem?_eq_getElem hbound] at hentry
  exact (Option.some.inj hentry).trans hblock.symm

/-- What is picked at the indices of chosen blocks are these blocks, joined. -/
theorem pick_flatMap_blockIndices {sizes : List Nat} (h : xs.length = total sizes)
    (ks : List Nat) :
    pick xs (ks.flatMap (blockIndices sizes)) = ks.flatMap (blockOf sizes xs) := by
  rw [pick, List.filterMap_flatMap]
  exact congrArg (fun f => ks.flatMap f) (funext (pick_blockIndices h))

/-- Chosen lists, joined, are read from all lists, joined, at the indices of the chosen blocks. -/
theorem flatten_pick {xss : List (List α)} (h : ∀ i ∈ is, i < xss.length) (d : α) :
    (pick xss is).flatten =
      (is.flatMap (blockIndices (xss.map List.length))).map fun i => xss.flatten.getD i d := by
  rw [pick_eq_map h [], List.map_flatMap, List.flatMap]
  refine congrArg List.flatten (List.map_congr_left fun i hi => ?_)
  have hlength : (xss.map List.length).getD i 0 = (xss.getD i []).length := by
    simp [List.getD_eq_getElem?_getD, h i hi]
  have hlengths : (xss.getD i []).length =
      ((blockIndices (xss.map List.length) i).map fun i => xss.flatten.getD i d).length := by
    rw [List.length_map, blockIndices, List.length_map, List.length_range, hlength]
  apply List.ext_getElem hlengths
  intro l hl hl'
  have hentry := getD_flatten hl d
  rw [List.getD_eq_getElem _ _ hl] at hentry
  simpa [blockIndices] using hentry.symm

end ConvexContact
