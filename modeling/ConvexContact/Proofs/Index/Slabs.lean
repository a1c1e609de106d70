import ConvexContact.Proofs.Index.Gathering
import ConvexContact.Proofs.Index.Pushes
import ConvexContact.Proofs.Linear.Coordinates

/-!
# Gathering and scattering tensors

Along its first axis a tensor is a stack of slabs of one shape, and slabs can be stacked and taken
apart without a loss (`Tensor.slabs_ofSlabs`, `Tensor.ofSlabs_slabs`). What a permutation does to
tensors is what it does to their lists of slabs (`PartialPermutation.Valid.gatherTensor_ofSlabs`,
`PartialPermutation.Valid.scatterTensor_ofSlabs`,
`PartialPermutation.Valid.scatterTensorOntoZeros_ofSlabs`), so the laws for lists are laws for
tensors. Vectors are the stacks whose slabs have one entry each.

Proof shape: a tensor stores its entries in one list, and slabs are cut out of it by counting. The
two lemmas about cutting and joining (`map_take_drop_flatten`, `flatten_map_take_drop`) are the only
ones that count; from there on a tensor is a stack of slabs and the laws are carried over by one
equation per direction (`PartialPermutation.Valid.undoes_ofSlabs`). Main statement:
`PartialPermutation.gathering_undoes_scattering`.
-/

namespace ConvexContact

variable {K : Type}

/-! ## Stacks of slabs -/

/-- Lists of one length that have been joined are found back by counting. -/
theorem map_take_drop_flatten {n : Nat} {slabs : List (List K)} (h : ∀ xs ∈ slabs, xs.length = n) :
    (List.range slabs.length).map (fun i => (slabs.flatten.drop (i * n)).take n) = slabs := by
  induction slabs with
  | nil => rfl
  | cons xs slabs ih =>
    obtain ⟨rfl, hrest⟩ := List.forall_mem_cons.mp h
    have hbehind : ∀ i, (((xs :: slabs).flatten.drop ((i + 1) * xs.length)).take xs.length) =
        (slabs.flatten.drop (i * xs.length)).take xs.length := by
      intro i
      rw [List.flatten_cons, Nat.succ_mul, Nat.add_comm, ← List.drop_drop, List.drop_left]
    rw [List.length_cons, List.range_succ_eq_map, List.map_cons, List.map_map]
    refine congrArg₂ List.cons (by simp) ?_
    exact (List.map_congr_left fun i _ => hbehind i).trans (ih hrest)

/-- A piece that is cut out of a list that is long enough has its full length. -/
theorem length_take_drop {n k i : Nat} {data : List K} (h : data.length = k * n) (hi : i < k) :
    ((data.drop (i * n)).take n).length = n := by
  -- the piece ends where the next one begins, which is within the list
  have hfit := Nat.mul_le_mul_right n (Nat.succ_le_of_lt hi)
  rw [Nat.succ_mul] at hfit
  rw [List.length_take, List.length_drop]
  omega

/-- A list that has been cut into pieces of one length is joined again. -/
theorem flatten_map_take_drop {n k : Nat} {data : List K} (h : data.length = k * n) :
    ((List.range k).map fun i => (data.drop (i * n)).take n).flatten = data := by
  induction k generalizing data with
  | zero =>
    rw [Nat.zero_mul] at h
    rw [List.eq_nil_of_length_eq_zero h]
    rfl
  | succ k ih =>
    have hlength : (data.drop n).length = k * n := by
      rw [List.length_drop, h, Nat.succ_mul, Nat.add_sub_cancel]
    have hbehind : (List.range k).map ((fun i => (data.drop (i * n)).take n) ∘ Nat.succ) =
        (List.range k).map fun i => ((data.drop n).drop (i * n)).take n := by
      refine List.map_congr_left fun i _ => ?_
      rw [Function.comp_apply, List.drop_drop, Nat.succ_mul, Nat.add_comm]
    rw [List.range_succ_eq_map, List.map_cons, List.map_map, List.flatten_cons, hbehind,
      ih hlength, Nat.zero_mul, List.drop_zero, List.take_append_drop]

/-- At a place that exists, reading with a default reads the entry. -/
theorem some_getD {xs : List K} {i : Nat} (h : i < xs.length) (d : K) :
    some (xs.getD i d) = xs[i]? := by
  rw [List.getD_eq_getElem _ _ h, List.getElem?_eq_getElem h]

namespace Tensor

variable {t : Tensor K} {n : Nat} {shape : List Nat} {f : Format} {rows : List (List K)}

/-- Tensors with the same entries in the same shape and format are equal. -/
theorem ext_parts {s t : Tensor K} (hf : s.format = t.format) (hs : s.shape = t.shape)
    (hd : s.data = t.data) : s = t := by
  cases s
  cases t
  subst hf hs hd
  rfl

/-- There are as many slabs as the first axis is long. -/
theorem length_slabs (h : t.shape = n :: shape) : t.slabs.length = n := by
  simp [slabs, h]

/-- The slabs of a tensor have as many entries as their shape asks for. -/
theorem length_of_mem_slabs (h : t.shape = n :: shape) :
    ∀ xs ∈ t.slabs, xs.length = Shape.size shape := by
  intro xs hxs
  simp only [slabs, h, List.mem_map, List.mem_range] at hxs
  obtain ⟨i, hi, rfl⟩ := hxs
  have hdata : t.data.length = n * Shape.size shape := by
    rw [t.length_data, h, Shape.size_cons]
  exact length_take_drop hdata hi

variable [Zero K]

/-- A slab of zeros. -/
def zeroSlab (shape : List Nat) : List K := List.replicate (Shape.size shape) 0

/-- A slab of zeros fits its shape. -/
@[simp] theorem length_zeroSlab (shape : List Nat) :
    (zeroSlab (K := K) shape).length = Shape.size shape := List.length_replicate

/-- Slabs that fit are joined as they are. -/
theorem flatMap_fit (h : ∀ xs ∈ rows, xs.length = n) : rows.flatMap (fit n) = rows.flatten := by
  rw [List.flatMap, List.map_congr_left fun xs hxs => ?_, List.map_id]
  rw [← h xs hxs]
  exact fit_length xs

/-- The slabs of a stack are those it was made of. -/
theorem slabs_ofSlabs (f : Format) (h : ∀ xs ∈ rows, xs.length = Shape.size shape) :
    (ofSlabs f shape rows).slabs = rows := by
  simp only [slabs, ofSlabs, flatMap_fit h]
  exact map_take_drop_flatten h

/-- A tensor is the stack of its slabs. -/
theorem ofSlabs_slabs (h : t.shape = n :: shape) : ofSlabs t.format shape t.slabs = t := by
  refine ext_parts rfl ?_ ?_
  · rw [h]
    exact congrArg (· :: shape) (length_slabs h)
  · have hdata : t.data.length = n * Shape.size shape := by
      rw [t.length_data, h, Shape.size_cons]
    refine (flatMap_fit (length_of_mem_slabs h)).trans ?_
    simp only [slabs, h]
    exact flatten_map_take_drop hdata

/-- A tensor of zeros is a stack of slabs of zeros. -/
theorem zeros_cons (f : Format) (n : Nat) (shape : List Nat) :
    zeros (K := K) f (n :: shape) = ofSlabs f shape (List.replicate n (zeroSlab shape)) := by
  refine ext_parts rfl ?_ ?_
  · simp [zeros, ofSlabs]
  · refine Eq.trans ?_ (flatMap_fit fun xs hxs => ?_).symm
    · simp [zeros, zeroSlab]
    · rw [List.eq_of_mem_replicate hxs, length_zeroSlab]

end Tensor

namespace PartialPermutation

variable {p : PartialPermutation}

/-! ## Directions on stacks

One equation for each direction: on a stack of slabs it does what it does to the list of slabs. -/

section Stacks

variable [Zero K] {f : Format} {shape : List Nat} {part full : List (List K)}

/-- **Gathering.** What is gathered from a stack is the stack of what is gathered from its slabs. -/
theorem Valid.gatherTensor_ofSlabs (hp : p.Valid)
    (hfull : ∀ xs ∈ full, xs.length = Shape.size shape) :
    p.gatherTensor (Tensor.ofSlabs f shape full) = Tensor.ofSlabs f shape <$> p.gather full := by
  have hextent : extent (Tensor.ofSlabs f shape full) =
      (.ok full.length : Except (Error K) Nat) := rfl
  rw [gatherTensor, Outcome.bind_of_ok _ hextent, gather, Tensor.slabs_ofSlabs f hfull]
  split
  · rfl
  · rename_i hlength
    have hlt : ∀ i ∈ p.inverse, i < full.length := fun i hi =>
      (hp.lt_of_mem hi).trans_eq (not_not.mp hlength).symm
    exact congrArg (fun rows => Except.ok (Tensor.ofSlabs f shape rows)) (pick_eq_map hlt []).symm

/-- Putting slabs into a stack writes them into the list of its slabs. -/
theorem Valid.putSlabs_ofSlabs (hp : p.Valid) (hpart : ∀ xs ∈ part, xs.length = Shape.size shape)
    (hfull : ∀ xs ∈ full, xs.length = Shape.size shape) {out : List (List K)}
    (h : p.scatter (K := K) part full = .ok out) :
    p.putSlabs (Tensor.ofSlabs f shape part) (Tensor.ofSlabs f shape full) =
      Tensor.ofSlabs f shape out := by
  obtain ⟨⟨hpartsize, hfullsize⟩, -⟩ := scatter_eq_ok.mp h
  rw [putSlabs, Tensor.slabs_ofSlabs f hpart, Tensor.slabs_ofSlabs f hfull]
  refine congrArg (Tensor.ofSlabs f shape) (List.ext_getElem? fun i => ?_)
  by_cases hi : i < p.domainSize
  · rw [List.getElem?_map, List.getElem?_range hi, hp.getElem?_scatter h, Option.map_some]
    cases hn : p.number? i with
    | none => exact some_getD (hi.trans_eq hfullsize.symm) []
    | some n =>
      have hget := (hp.number?_eq_some_iff i n).mp hn
      refine some_getD ?_ []
      rw [hpartsize]
      exact (List.getElem?_eq_some_iff.mp hget).1
  · rw [List.getElem?_eq_none_iff.mpr (by simpa using hi), List.getElem?_eq_none_iff.mpr]
    rw [(hp.merges h).length]
    omega

/-- **Scattering.** What is scattered from a stack onto another one is the stack of what is
scattered from slabs onto slabs. -/
theorem Valid.scatterTensor_ofSlabs (hp : p.Valid)
    (hpart : ∀ xs ∈ part, xs.length = Shape.size shape)
    (hfull : ∀ xs ∈ full, xs.length = Shape.size shape) :
    p.scatterTensor (Tensor.ofSlabs f shape part) (Tensor.ofSlabs f shape full) =
      Tensor.ofSlabs f shape <$> p.scatter part full := by
  have hextent : ∀ rows, extent (Tensor.ofSlabs f shape rows) =
      (.ok rows.length : Except (Error K) Nat) := fun _ => rfl
  rw [scatterTensor, Outcome.bind_of_ok _ (hextent part), scatter]
  split
  · rfl
  · rename_i hpartsize
    rw [Outcome.bind_of_ok _ (hextent full)]
    split
    · rfl
    · rename_i hfullsize
      -- a part of the right shape is not stretched
      have hstretch : (Tensor.ofSlabs f shape part).stretchTo? (p.size :: shape) =
          some (Tensor.ofSlabs f shape part) := by
        rw [← not_not.mp hpartsize]
        exact Tensor.stretchTo?_shape _
      have hscatter : p.scatter (K := K) part full = .ok (write full p.inverse part) :=
        scatter_eq_ok.mpr ⟨⟨not_not.mp hpartsize, not_not.mp hfullsize⟩, rfl⟩
      have hformat : (Tensor.ofSlabs f shape part).format = (Tensor.ofSlabs f shape full).format :=
        rfl
      have hshape : (Tensor.ofSlabs f shape full).shape.drop 1 = shape := rfl
      rw [if_neg (not_not.mpr hformat), hshape, hstretch]
      exact congrArg Except.ok (hp.putSlabs_ofSlabs hpart hfull hscatter)

/-- Scattering onto zeros is scattering onto slabs of zeros. -/
theorem Valid.scatterTensorOntoZeros_ofSlabs (hp : p.Valid)
    (hpart : ∀ xs ∈ part, xs.length = Shape.size shape) :
    p.scatterTensorOntoZeros (Tensor.ofSlabs f shape part) =
      Tensor.ofSlabs f shape <$> p.scatterOnto (Tensor.zeroSlab shape) part := by
  have hextent : extent (Tensor.ofSlabs f shape part) =
      (.ok part.length : Except (Error K) Nat) := rfl
  rw [scatterTensorOntoZeros, Outcome.bind_of_ok _ hextent, scatterOnto, scatter]
  split
  · rfl
  · rename_i hpartsize
    -- the zeros have the right number of slabs, so only the part can be rejected
    have hblanks : ∀ xs ∈ List.replicate p.domainSize (Tensor.zeroSlab (K := K) shape),
        xs.length = Shape.size shape := by
      intro xs hxs
      rw [List.eq_of_mem_replicate hxs, Tensor.length_zeroSlab]
    have hscatter := scatter_eq_ok (K := K).mpr ⟨⟨not_not.mp hpartsize,
      List.length_replicate (a := Tensor.zeroSlab (K := K) shape)⟩, rfl⟩
    rw [if_neg (not_not.mpr List.length_replicate)]
    refine congrArg Except.ok (Eq.trans ?_ (hp.putSlabs_ofSlabs hpart hblanks hscatter))
    exact congrArg (p.putSlabs _) (Tensor.zeros_cons f p.domainSize shape)

end Stacks

/-! ## Vectors -/

section Vectors

variable [Arith K]

/-- A vector is a stack of slabs of one entry each. -/
theorem toTensor_eq_ofSlabs (v : Vec K) :
    v.toTensor = Tensor.ofSlabs v.format [] (v.entries.map fun x => [x]) := by
  refine Tensor.ext_parts rfl ?_ ?_
  · simp [Tensor.ofSlabs, Vec.toTensor, Vec.shape, Vec.size]
  · simp [Tensor.ofSlabs, Vec.toTensor, List.flatMap_map, Tensor.fit]

omit [Arith K] in
/-- The slabs of a vector fit the shape of a number. -/
theorem length_of_mem_singletons (entries : List K) :
    ∀ xs ∈ entries.map fun x => [x], xs.length = Shape.size [] := by
  simp

/-- The slabs of a vector are its entries. -/
theorem getD_slabs_toTensor {v : Vec K} {i : Nat} (h : i < v.size) :
    v.toTensor.slabs.getD i [] = [v.get i] := by
  have hi : i < v.entries.length := h
  rw [toTensor_eq_ofSlabs, Tensor.slabs_ofSlabs _ (length_of_mem_singletons v.entries)]
  simp [Vec.get, hi]

/-- Gathering from a vector lists its entries at the indices that take part. -/
theorem Valid.gatherTensor_toTensor (hp : p.Valid) {v : Vec K} (hv : v.size = p.domainSize) :
    p.gatherTensor v.toTensor = .ok (Vec.mk v.format (p.inverse.map v.get)).toTensor := by
  have hlt : ∀ i ∈ p.inverse, i < v.entries.length := fun i hi =>
    (hp.lt_of_mem hi).trans_eq hv.symm
  have hgather : p.gather (K := K) (v.entries.map fun x => [x]) =
      .ok ((p.inverse.map v.get).map fun x => [x]) := by
    refine gather_eq_ok.mpr ⟨(List.length_map _).trans hv, ?_⟩
    rw [← map_pick, pick_eq_map hlt 0]
    rfl
  rw [toTensor_eq_ofSlabs, hp.gatherTensor_ofSlabs (length_of_mem_singletons v.entries), hgather,
    toTensor_eq_ofSlabs]
  rfl

/-- A vector with an entry for each number, as a full vector that is zero elsewhere. -/
def spread (p : PartialPermutation) (w : Vec K) : Vec K :=
  ⟨w.format, (List.range p.domainSize).map fun i =>
    match p.number? i with
    | some n => w.get n
    | none => 0⟩

/-- At an index that takes part stands the entry with its number, and zero at the others. -/
theorem get_spread (w : Vec K) {i : Nat} (hi : i < p.domainSize) :
    (p.spread w).get i =
      match p.number? i with
      | some n => w.get n
      | none => 0 := by
  simp [spread, Vec.get, List.getD_eq_getElem?_getD, hi]

/-- Scattering onto zeros puts each entry at the index that has its number. -/
theorem Valid.scatterTensorOntoZeros_toTensor (hp : p.Valid) {w : Vec K} (hw : w.size = p.size) :
    p.scatterTensorOntoZeros w.toTensor = .ok (p.spread w).toTensor := by
  have hscatter : p.scatterOnto (K := K) (Tensor.zeroSlab []) (w.entries.map fun x => [x]) =
      .ok ((p.spread w).entries.map fun x => [x]) := by
    have hout : p.scatterOnto (K := K) (Tensor.zeroSlab []) (w.entries.map fun x => [x]) =
        .ok (write _ p.inverse _) :=
      scatter_eq_ok.mpr ⟨⟨(List.length_map _).trans hw, List.length_replicate⟩, rfl⟩
    rw [hout]
    refine congrArg Except.ok (List.ext_getElem? fun i => ?_)
    rw [hp.getElem?_scatter hout, spread, List.getElem?_map, List.getElem?_map]
    by_cases hi : i < p.domainSize
    · rw [List.getElem?_range hi, Option.map_some, Option.map_some]
      cases hn : p.number? i with
      | none => simp [hi, Tensor.zeroSlab]
      | some n =>
        have hlt : n < w.entries.length := by
          refine Nat.lt_of_lt_of_eq ?_ hw.symm
          exact (List.getElem?_eq_some_iff.mp ((hp.number?_eq_some_iff i n).mp hn)).1
        simp [Vec.get, hlt]
    · have hn : p.number? i = none :=
        hp.number?_eq_none_iff.mpr fun hmem => hi (hp.lt_of_mem hmem)
      simp [hn, hi]
  rw [toTensor_eq_ofSlabs, hp.scatterTensorOntoZeros_ofSlabs (length_of_mem_singletons w.entries),
    hscatter, toTensor_eq_ofSlabs]
  rfl

/-- Entries that come from the indices that take part go back to them. -/
theorem spread_map (hp : p.Valid) (f : Format) (F : Nat → K) :
    p.spread ⟨f, p.inverse.map F⟩ =
      ⟨f, (List.range p.domainSize).map fun i => if i ∈ p.inverse then F i else 0⟩ := by
  refine congrArg (Vec.mk f) (List.map_congr_left fun i _ => ?_)
  cases hn : p.number? i with
  | none => rw [if_neg (hp.number?_eq_none_iff.mp hn)]
  | some n =>
    have hget := (hp.number?_eq_some_iff i n).mp hn
    rw [if_pos (List.mem_of_getElem? hget)]
    simp [Vec.get, List.getD_eq_getElem?_getD, hget]

end Vectors

/-! ## Laws

What was proved for lists is carried over to tensors by these equations. Only the blank entry
differs, a slab of zeros here. -/

section Laws

variable [Zero K] {shape : List Nat}

/-- The two directions on tensors. -/
def onTensors (p : PartialPermutation) : Directions K (Tensor K) (List K) where
  count := extent
  rows := Tensor.slabs
  gather := p.gatherTensor
  scatter := p.scatterTensor
  spread := p.scatterTensorOntoZeros

/-- What undoes each other on lists of slabs does so on stacks of them. -/
theorem Valid.undoes_ofSlabs (hp : p.Valid) {f : Format}
    {part full picked out blanks : List (List K)}
    (hpart : ∀ xs ∈ part, xs.length = Shape.size shape)
    (hfull : ∀ xs ∈ full, xs.length = Shape.size shape)
    (hpicked : ∀ xs ∈ picked, xs.length = Shape.size shape)
    (hout : ∀ xs ∈ out, xs.length = Shape.size shape)
    (hblanks : ∀ xs ∈ blanks, xs.length = Shape.size shape)
    (h : p.Undoes (p.onLists (K := K) (Tensor.zeroSlab shape)) (Tensor.zeroSlab shape)
      part full picked out blanks) :
    p.Undoes p.onTensors (Tensor.zeroSlab shape) (Tensor.ofSlabs f shape part)
      (Tensor.ofSlabs f shape full) (Tensor.ofSlabs f shape picked) (Tensor.ofSlabs f shape out)
      (Tensor.ofSlabs f shape blanks) := by
  have hstack : ∀ {x : Except (Error K) (List (List K))} {rows : List (List K)}, x = .ok rows →
      Tensor.ofSlabs f shape <$> x = .ok (Tensor.ofSlabs f shape rows) := by
    rintro _ rows rfl
    rfl
  constructor
  · exact (hp.gatherTensor_ofSlabs hfull).trans (hstack h.gather)
  · exact (hp.scatterTensor_ofSlabs hpart hfull).trans (hstack h.scatter)
  · exact (hp.scatterTensorOntoZeros_ofSlabs hpart).trans (hstack h.spread)
  · exact (hp.gatherTensor_ofSlabs hout).trans (hstack h.gather_scatter)
  · exact (hp.gatherTensor_ofSlabs hblanks).trans (hstack h.gather_spread)
  · exact (hp.scatterTensor_ofSlabs hpicked hfull).trans (hstack h.scatter_gather)
  · simp only [onTensors, Tensor.slabs_ofSlabs f hpart, Tensor.slabs_ofSlabs f hfull,
      Tensor.slabs_ofSlabs f hout]
    exact h.merges
  · simp only [onTensors, Tensor.slabs_ofSlabs f hpart, Tensor.slabs_ofSlabs f hblanks]
    exact h.merges_blank

/-- What is said about tensors of one format and one shape of slabs: gathering and scattering undo
each other, make tensors of this kind, and do with slabs what they do with the entries of lists. -/
structure UndoesStacks (p : PartialPermutation) (f : Format) (shape : List Nat)
    (part full picked out blanks : Tensor K) : Prop where
  undoes : p.Undoes p.onTensors (Tensor.zeroSlab shape) part full picked out blanks
  stacked : ∀ t ∈ [picked, out, blanks], t = Tensor.ofSlabs f shape t.slabs
  undoes_slabs : p.Undoes (p.onLists (K := K) (Tensor.zeroSlab shape)) (Tensor.zeroSlab shape)
    part.slabs full.slabs picked.slabs out.slabs blanks.slabs
  leavesInputs : p.LeavesInputs K (Tensor.zeroSlab shape) part.slabs full.slabs picked.slabs
    out.slabs blanks.slabs

/-- **Tensors.** Gathering and scattering tensors undo each other where the numbers of slabs are
right. -/
theorem Valid.undoesStacks (hp : p.Valid) {part full : Tensor K}
    (hformat : part.format = full.format) (hpart : part.shape = p.size :: shape)
    (hfull : full.shape = p.domainSize :: shape) :
    ∃ picked out blanks, p.UndoesStacks full.format shape part full picked out blanks := by
  obtain ⟨picked, out, blanks, h, hinputs⟩ := hp.undoes (K := K) (Tensor.zeroSlab shape)
    (Tensor.length_slabs hpart) (Tensor.length_slabs hfull)
  have hpartrows := Tensor.length_of_mem_slabs hpart
  have hfullrows := Tensor.length_of_mem_slabs hfull
  -- slabs are moved about and never changed, so that all of them fit
  obtain ⟨hpicked, hout, hblanks⟩ :=
    h.forall_mem hpartrows hfullrows (Tensor.length_zeroSlab shape)
  have hstacks := hp.undoes_ofSlabs (f := full.format) hpartrows hfullrows hpicked hout hblanks h
  rw [Tensor.ofSlabs_slabs hfull, ← hformat, Tensor.ofSlabs_slabs hpart, hformat] at hstacks
  have hpicked := Tensor.slabs_ofSlabs full.format hpicked
  have hout := Tensor.slabs_ofSlabs full.format hout
  have hblanks := Tensor.slabs_ofSlabs full.format hblanks
  refine ⟨_, _, _, hstacks, ?_, ?_, ?_⟩
  · simp only [List.forall_mem_cons, hpicked, hout, hblanks, true_and]
    exact fun _ ht => absurd ht (List.not_mem_nil)
  · rwa [hpicked, hout, hblanks]
  · rwa [hpicked, hout, hblanks]

/-- Tensors with another number of slabs are rejected. -/
theorem rejects_onTensors (p : PartialPermutation) : p.Rejects (p.onTensors (K := K)) where
  gather full n hn hne := by
    refine ⟨.fullLength p.domainSize n, ?_, rfl⟩
    change p.gatherTensor full = _
    rw [gatherTensor, Outcome.bind_of_ok (x := extent full) _ hn, if_pos hne]
  scatter part full m n hm hn hne := by
    by_cases hpart : m = p.size
    · refine ⟨.fullLength p.domainSize n, ?_, rfl⟩
      change p.scatterTensor part full = _
      rw [scatterTensor, Outcome.bind_of_ok (x := extent part) _ hm, if_neg (not_not.mpr hpart),
        Outcome.bind_of_ok (x := extent full) _ hn, if_pos (hne.resolve_left (not_not.mpr hpart))]
    · refine ⟨.permutedLength p.size m, ?_, rfl⟩
      change p.scatterTensor part full = _
      rw [scatterTensor, Outcome.bind_of_ok (x := extent part) _ hm, if_pos hpart]
  spread part m hm hne := by
    refine ⟨.permutedLength p.size m, ?_, rfl⟩
    change p.scatterTensorOntoZeros part = _
    rw [scatterTensorOntoZeros, Outcome.bind_of_ok (x := extent part) _ hm, if_pos hne]

/-- **Gathering and scattering.** After any run of pushes, a permutation that has been read from a
vector, or has begun blank, gathers what it has scattered and scatters what it has gathered: on
lists of any entries, with any entry for the blank one, and on tensors with slabs of any shape. Each
way the tensors' slabs are treated as the entries of lists are, and whatever has another length is
rejected. -/
theorem gathering_undoes_scattering (hp : Begins K p) (is : List Int) :
    let q := (p.pushEach (K := K) is).2
    (∀ (α : Type) (blank : α) (part full : List α), part.length = q.size →
      full.length = q.domainSize → ∃ picked out blanks,
        q.Undoes (q.onLists (K := K) blank) blank part full picked out blanks ∧
          q.LeavesInputs K blank part full picked out blanks) ∧
    (∀ (α : Type) (blank : α), q.Rejects (q.onLists (K := K) blank)) ∧
    (∀ (shape : List Nat) (part full : Tensor K), part.format = full.format →
      part.shape = q.size :: shape → full.shape = q.domainSize :: shape →
      ∃ picked out blanks, q.UndoesStacks full.format shape part full picked out blanks) ∧
    q.Rejects (q.onTensors (K := K)) := by
  intro q
  have hq : q.Valid := (hp.valid.follows (K := K) is).1
  exact ⟨fun α blank part full hpart hfull => hq.undoes blank hpart hfull,
    fun α blank => q.rejects_onLists blank,
    fun shape part full hformat hpart hfull => hq.undoesStacks hformat hpart hfull,
    q.rejects_onTensors⟩

/-- A vector that has been read and grown: lists of words, and tensors whose slabs are pairs. -/
theorem gathering_undoes_scattering_sample :
    ∃ p q, ofVector (K := ℚ) [-1, 0, -1] = .ok p ∧ q = (p.pushEach (K := ℚ) [2, 5]).2 ∧
      (∃ picked out blanks : List (Option String),
        q.Undoes (q.onLists (K := ℚ) none) none [some "x", some "y"]
          [some "a", some "b", some "c"] picked out blanks) ∧
      q.scatter (K := ℚ) [some "x", some "y"] [some "a", some "b", some "c"] =
        .ok [some "a", some "x", some "y"] ∧
      ∃ picked out blanks : Tensor ℚ,
        q.UndoesStacks .double [2] ⟨.double, [2, 2], [1, 2, 3, 4], rfl⟩
          ⟨.double, [3, 2], [5, 6, 7, 8, 9, 10], rfl⟩ picked out blanks := by
  have h := gathering_undoes_scattering (K := ℚ) (.vector [-1, 0, -1] rfl) [2, 5]
  obtain ⟨picked, out, blanks, hlists, -⟩ := h.1 (Option String) none [some "x", some "y"]
    [some "a", some "b", some "c"] rfl rfl
  have htensors := h.2.2.1 [2] ⟨.double, [2, 2], [1, 2, 3, 4], rfl⟩
    ⟨.double, [3, 2], [5, 6, 7, 8, 9, 10], rfl⟩ rfl rfl rfl
  exact ⟨_, _, rfl, rfl, ⟨picked, out, blanks, hlists⟩, rfl, htensors⟩

end Laws

end PartialPermutation

end ConvexContact
