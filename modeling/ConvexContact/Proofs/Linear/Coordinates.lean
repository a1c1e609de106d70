import Mathlib.Algebra.BigOperators.Ring.Finset
import ConvexContact.Proofs.Arithmetic.Reading
import ConvexContact.Proofs.Index.Blocks
import ConvexContact.Proofs.Outcome
import ConvexContact.Linear.Checked
import ConvexContact.Linear.Mat

/-!
# Coordinates

A vector that is cut into blocks has coordinates `k, l`: the entry at place `l` of block `k`. Read
through a `Reading`, the coordinates of a sum, a product or an inner product are given by the
formula of the ring, without the formats that the operations go through. Reading an entry behind the
last gives zero, so most of these formulas hold at every place.

Each operation has up to three lemmas: its size, its format, and its entries under a reading. What
is proved about models goes through these and never opens an operation.
-/

namespace ConvexContact

variable {K R : Type} [Arith K] [CommRing R] (φ : Reading K R)

/-- The sum of a list is the sum over its places. -/
theorem sum_map_eq_sum_range {α M : Type} [AddCommMonoid M] (F : α → M) (xs : List α) (d : α) :
    (xs.map F).sum = ∑ i ∈ Finset.range xs.length, F (xs.getD i d) := by
  induction xs with
  | nil => rfl
  | cons x xs ih =>
    rw [List.map_cons, List.sum_cons, ih, List.length_cons, Finset.sum_range_succ', add_comm]
    simp

namespace Vec

variable {a b v : Vec K}

/-- The entry at place `l` of block `k`, read in the ring. -/
def coord (sizes : List Nat) (v : Vec K) (k l : Nat) : R := φ (v.get (offset sizes k + l))

/-- Behind the last entry there are zeros. -/
theorem get_of_size_le {i : Nat} (h : v.size ≤ i) : v.get i = 0 :=
  List.getD_eq_default _ _ h

/-- Vectors are determined by their format, their size and their entries. -/
theorem ext_get {w : Vec K} (hf : v.format = w.format) (hs : v.size = w.size)
    (h : ∀ i, i < v.size → v.get i = w.get i) : v = w := by
  obtain ⟨f, xs⟩ := v
  obtain ⟨g, ys⟩ := w
  obtain rfl : f = g := hf
  refine congrArg (Vec.mk f) (List.ext_getElem hs fun i hi hi' => ?_)
  have hget := h i hi
  rwa [get, get, List.getD_eq_getElem _ _ hi, List.getD_eq_getElem _ _ hi'] at hget

/-- The zeros reach behind the last entry as well. -/
@[simp] theorem get_zeros (f : Format) (n i : Nat) : (zeros f n : Vec K).get i = 0 := by
  by_cases h : i < n
  · simp [get, zeros, replicate, List.getD_eq_getElem?_getD, h]
  · exact get_of_size_le (by simpa [zeros, replicate, size] using h)

omit [Arith K] in
@[simp] theorem size_replicate (f : Format) (n : Nat) (x : K) : (replicate f n x).size = n := by
  simp [replicate, size]

@[simp] theorem size_zeros (f : Format) (n : Nat) : (zeros f n : Vec K).size = n :=
  size_replicate f n 0

/-- An entry of an entrywise combination. -/
theorem get_zipIn (op : Format → K → K → K) {i : Nat} (ha : i < a.size) (hb : i < b.size) :
    (zipIn op a b).get i =
      op (a.format.join b.format) (Arith.cast (a.format.join b.format) (a.get i))
        (Arith.cast (a.format.join b.format) (b.get i)) := by
  have ha' : i < a.entries.length := ha
  have hb' : i < b.entries.length := hb
  simp [zipIn, get, List.getD_eq_getElem?_getD, ha', hb']

/-- An entrywise combination is read entry by entry, if it sends two zeros to zero. -/
theorem map_get_zipIn {op : Format → K → K → K} {F : R → R → R}
    (hop : ∀ f x y, φ (op f x y) = F (φ x) (φ y)) (hzero : F 0 0 = 0) (h : a.size = b.size)
    (i : Nat) : φ ((zipIn op a b).get i) = F (φ (a.get i)) (φ (b.get i)) := by
  by_cases hi : i < a.size
  · rw [get_zipIn op hi (by omega), hop, φ.map_cast, φ.map_cast]
  -- behind the last entry there are zeros on both sides, which the operation sends to zero
  · have hsize : (zipIn op a b).size ≤ i := by
      rw [size_zipIn]
      omega
    rw [get_of_size_le hsize, get_of_size_le (by omega), get_of_size_le (v := b) (by omega),
      φ.map_zero, hzero]

/-- The entries of a sum are added. -/
theorem map_get_add (h : a.size = b.size) (i : Nat) :
    φ ((a.add b).get i) = φ (a.get i) + φ (b.get i) :=
  map_get_zipIn φ φ.map_addIn (add_zero 0) h i

/-- The entries of a difference are subtracted. -/
theorem map_get_sub (h : a.size = b.size) (i : Nat) :
    φ ((a.sub b).get i) = φ (a.get i) - φ (b.get i) :=
  map_get_zipIn φ φ.map_subIn (sub_zero 0) h i

/-- The entries of an entrywise product are multiplied. -/
theorem map_get_mul (h : a.size = b.size) (i : Nat) :
    φ ((a.mul b).get i) = φ (a.get i) * φ (b.get i) :=
  map_get_zipIn φ φ.map_mulIn (mul_zero 0) h i

/-- The entries of the opposite are negated. -/
theorem map_get_neg (i : Nat) : φ (v.neg.get i) = -φ (v.get i) := by
  by_cases hi : i < v.size
  · have hi' : i < v.entries.length := hi
    have hentry : v.neg.get i = Arith.cast v.format (-v.get i) := by
      simp [neg, map, get, List.getD_eq_getElem?_getD, hi']
    rw [hentry, φ.map_cast, φ.map_neg]
  · rw [get_of_size_le (by rw [size_neg]; omega), get_of_size_le (v := v) (by omega), φ.map_zero,
      neg_zero]

@[simp] theorem size_add (a b : Vec K) : (a.add b).size = min a.size b.size := size_zipIn _ a b

@[simp] theorem size_sub (a b : Vec K) : (a.sub b).size = min a.size b.size := size_zipIn _ a b

@[simp] theorem size_mul (a b : Vec K) : (a.mul b).size = min a.size b.size := size_zipIn _ a b

@[simp] theorem format_add (a b : Vec K) : (a.add b).format = a.format.join b.format := rfl

@[simp] theorem format_sub (a b : Vec K) : (a.sub b).format = a.format.join b.format := rfl

@[simp] theorem format_mul (a b : Vec K) : (a.mul b).format = a.format.join b.format := rfl

@[simp] theorem format_neg (v : Vec K) : v.neg.format = v.format := rfl

/-- The sum of the entries is read as the sum over the places. -/
theorem map_sum (v : Vec K) : φ v.sum.value = ∑ i ∈ Finset.range v.size, φ (v.get i) := by
  rw [sum, φ.map_sum, sum_map_eq_sum_range φ v.entries 0]
  rfl

/-- The inner product is read as the sum of the products. -/
theorem map_dot (h : a.size = b.size) :
    φ (a.dot b).value = ∑ i ∈ Finset.range a.size, φ (a.get i) * φ (b.get i) := by
  rw [dot, map_sum, size_mul, ← h, Nat.min_self]
  exact Finset.sum_congr rfl fun i _ => map_get_mul φ h i

/-- The inner product by blocks. -/
theorem map_dot_blocks {sizes : List Nat} (ha : a.size = total sizes) (hb : b.size = total sizes) :
    φ (a.dot b).value =
      ∑ k ∈ Finset.range sizes.length, ∑ l ∈ Finset.range (sizes.getD k 0),
        a.coord φ sizes k l * b.coord φ sizes k l := by
  rw [map_dot φ (ha.trans hb.symm), ha, sum_range_sum]
  rfl

/-! ## Blocks -/

omit [Arith K] in
/-- A block has the size that is listed for it. -/
theorem size_block {sizes : List Nat} (h : v.size = total sizes) (k : Nat) :
    (v.block sizes k).size = sizes.getD k 0 :=
  length_blockOf h k

omit [Arith K] in
@[simp] theorem format_block (sizes : List Nat) (v : Vec K) (k : Nat) :
    (v.block sizes k).format = v.format := rfl

/-- The entries of a block are entries of the vector, from its offset on. -/
theorem get_block {sizes : List Nat} {k l : Nat} (h : l < sizes.getD k 0) (v : Vec K) :
    (v.block sizes k).get l = v.get (offset sizes k + l) :=
  getD_blockOf h v.entries 0

/-- The entries of a block are coordinates. -/
theorem map_get_block {sizes : List Nat} {k l : Nat} (h : l < sizes.getD k 0) (v : Vec K) :
    φ ((v.block sizes k).get l) = v.coord φ sizes k l := by
  rw [get_block h, coord]

/-! ## Vectors joined end to end -/

section Concat

variable {f : Format} {vs : List (Vec K)}

@[simp] theorem entriesIn_self (v : Vec K) : entriesIn v.format v = v.entries := if_pos rfl

@[simp] theorem length_entriesIn (f : Format) (v : Vec K) : (entriesIn f v).length = v.size := by
  unfold entriesIn
  split
  · rfl
  · exact List.length_map _

/-- Storing a vector in a format leaves its entries as they are read. -/
theorem map_getD_entriesIn (f : Format) (v : Vec K) (l : Nat) :
    φ ((entriesIn f v).getD l 0) = φ (v.get l) := by
  unfold entriesIn
  split
  · rfl
  · rw [get, List.getD_eq_getElem?_getD, List.getElem?_map, List.getD_eq_getElem?_getD]
    cases v.entries[l]? with
    | none => rfl
    | some x => exact φ.map_cast f x

/-- Joined vectors have the entries of the parts, each stored in the common format. -/
theorem entries_concat (f : Format) (vs : List (Vec K)) :
    (concat f vs).entries = vs.flatMap (entriesIn (concat f vs).format) := by
  cases vs <;> rfl

/-- Joined vectors are as long as all of them together. -/
@[simp] theorem size_concat (f : Format) (vs : List (Vec K)) :
    (concat f vs).size = total (vs.map size) := by
  rw [size, entries_concat, List.length_flatMap, total_eq_sum]
  exact congrArg List.sum (List.map_congr_left fun w _ => length_entriesIn _ w)

/-- Vectors of one format are joined in it. -/
theorem format_concat (h : ∀ v ∈ vs, v.format = f) : (concat f vs).format = f := by
  cases vs with
  | nil => rfl
  | cons v vs =>
    have hfold : ∀ ws : List (Vec K), (∀ w ∈ ws, w.format = f) →
        ws.foldl (fun g w => g.join w.format) f = f := by
      intro ws hws
      induction ws with
      | nil => rfl
      | cons w ws ih =>
        rw [List.foldl_cons, hws w (by simp), Format.join_self]
        exact ih fun u hu => hws u (List.mem_cons_of_mem _ hu)
    change vs.foldl (fun g w => g.join w.format) v.format = f
    rw [h v (by simp)]
    exact hfold vs fun w hw => h w (List.mem_cons_of_mem _ hw)

/-- The entries of a part stand together, each stored in the common format. -/
theorem get_concat {w : Vec K} {k l : Nat} (hw : vs[k]? = some w) (hl : l < w.size) :
    (concat f vs).get (offset (vs.map size) k + l) =
      (entriesIn (concat f vs).format w).getD l 0 := by
  have hentries := entries_concat f vs
  generalize (concat f vs).format = g at hentries ⊢
  have hpart : (vs.map (entriesIn g)).getD k [] = entriesIn g w := by
    simp [List.getD_eq_getElem?_getD, hw]
  have hsizes : vs.map size = (vs.map (entriesIn g)).map List.length := by
    rw [List.map_map]
    exact List.map_congr_left fun w _ => (length_entriesIn g w).symm
  rw [get, hentries, List.flatMap, hsizes, getD_flatten (by rw [hpart]; simpa using hl), hpart]

/-- The blocks of joined vectors are the vectors. -/
theorem coord_concat {w : Vec K} {k l : Nat} (hw : vs[k]? = some w) (hl : l < w.size) :
    (concat f vs).coord φ (vs.map size) k l = φ (w.get l) := by
  rw [coord, get_concat hw hl, map_getD_entriesIn]

/-- The blocks of vectors joined in their common format are these vectors. -/
theorem block_concat {w : Vec K} (hf : ∀ v ∈ vs, v.format = f) {k : Nat}
    (hk : vs[k]? = some w) : (concat f vs).block (vs.map size) k = w := by
  have hjoined : (concat f vs).format = w.format := by
    rw [format_concat hf, hf w (List.mem_of_getElem? hk)]
  have hsize : (vs.map size).getD k 0 = w.size := by
    simp [List.getD_eq_getElem?_getD, hk]
  have hblock : ((concat f vs).block (vs.map size) k).size = w.size := by
    rw [size_block (size_concat f vs), hsize]
  refine ext_get hjoined hblock fun l hl => ?_
  rw [hblock] at hl
  rw [get_block (by rw [hsize]; exact hl), get_concat hk hl, hjoined, entriesIn_self]
  rfl

end Concat

/-- The difference of vectors of numbers succeeds. -/
theorem difference_of_floating (ha : a.format.isFloating = true) (hb : b.format = a.format) :
    a.difference b = .ok (a.sub b) := by
  have hne : a.format ≠ .boolean := by
    intro h
    rw [h] at ha
    cases ha
  exact difference_of_numeric hne (by rwa [hb])

end Vec

/-! ## Products with matrices -/

namespace Mat

/-- Outside a matrix there are zeros. -/
theorem get_of_rows_le {A : Mat K} {i : Nat} (h : A.rows ≤ i) (j : Nat) : A.get i j = 0 := by
  rw [get, List.getD_eq_default A.entries _ (by rw [A.length_entries]; exact h)]
  rfl

/-- Storing a matrix in a format leaves its entries as they are read. -/
theorem map_get_cast (f : Format) (A : Mat K) (i j : Nat) :
    φ ((A.cast f).get i j) = φ (A.get i j) := by
  have hrow : (A.entries.map (List.map (Arith.cast f))).getD i [] =
      (A.entries.getD i []).map (Arith.cast f) := by
    rw [List.getD_eq_getElem?_getD, List.getElem?_map, List.getD_eq_getElem?_getD]
    cases A.entries[i]? <;> rfl
  change φ (((A.entries.map (List.map (Arith.cast f))).getD i []).getD j 0) =
    φ ((A.entries.getD i []).getD j 0)
  rw [hrow]
  generalize A.entries.getD i [] = row
  rw [List.getD_eq_getElem?_getD, List.getElem?_map, List.getD_eq_getElem?_getD]
  cases row[j]? with
  | none => rfl
  | some a => exact φ.map_cast f a

/-- An entry of a product with a vector is the inner product of a row with it. -/
theorem map_get_mulVec {A : Mat K} {v : Vec K} (h : v.size = A.cols) (i : Nat) :
    φ ((A.mulVec v).get i) = ∑ j ∈ Finset.range A.cols, φ (A.get i j) * φ (v.get j) := by
  by_cases hi : i < A.rows
  · have hi' : i < A.entries.length := by rw [A.length_entries]; exact hi
    have hrow : A.entries[i].length = A.cols := A.length_row _ (List.getElem_mem hi')
    have hentry : (A.mulVec v).get i = Arith.dot A.format A.entries[i] v.entries := by
      simp [mulVec, Vec.get, List.getD_eq_getElem?_getD, hi']
    have hget : ∀ j, A.get i j = A.entries[i].getD j 0 := by
      intro j
      simp [get, List.getD_eq_getElem?_getD, hi']
    have hzip : List.zipWith (fun x y => φ x * φ y) A.entries[i] v.entries =
        (List.range A.cols).map fun j => φ (A.get i j) * φ (v.get j) := by
      have hv : v.entries.length = A.cols := h
      apply List.ext_getElem (by simp [hrow, hv])
      intro j hj hj'
      have hjc : j < A.cols := by simpa using hj'
      simp [hget, Vec.get, List.getD_eq_getElem?_getD, hrow, hv, hjc]
    rw [hentry, φ.map_dot, hzip, sum_map_eq_sum_range _ _ 0, List.length_range]
    apply Finset.sum_congr rfl
    intro j hj
    have hjc : j < A.cols := Finset.mem_range.mp hj
    simp [List.getD_eq_getElem?_getD, hjc]
  -- below the last row there are zeros
  · rw [Vec.get_of_size_le (by rw [size_mulVec]; omega), φ.map_zero]
    refine (Finset.sum_eq_zero fun j _ => ?_).symm
    rw [get_of_rows_le (by omega), φ.map_zero, zero_mul]

/-- What a product that succeeds says about its operands. -/
theorem mulVec?_eq_ok {A : Mat K} {v w : Vec K} (h : A.mulVec? v = .ok w) :
    w = A.mulVec v ∧ A.format = v.format ∧ A.cols = v.size := by
  obtain ⟨⟨⟩, hcheck, rfl⟩ := Outcome.map_eq_ok.mp h
  obtain ⟨hformat, hsize, -⟩ := checkProduct_eq_ok.mp hcheck
  exact ⟨rfl, hformat, hsize⟩

@[simp] theorem format_mulVec (A : Mat K) (v : Vec K) : (A.mulVec v).format = A.format := rfl

end Mat

end ConvexContact
