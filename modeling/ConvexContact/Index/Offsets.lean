/-!
# Offsets of consecutive blocks

A list of sizes cuts the indices `0 … n - 1` of their sum into consecutive blocks. `offsets` lists
where each block begins, with the total at the end; `locate` finds the block an index lies in and
its place there; `slice` takes a block out of a list.
-/

namespace ConvexContact

/-- How many indices blocks of these sizes have together. -/
def total : List Nat → Nat
  | [] => 0
  | n :: sizes => n + total sizes

/-- Running sums that start from `start`. -/
def offsetsFrom (start : Nat) : List Nat → List Nat
  | [] => [start]
  | n :: sizes => start :: offsetsFrom (start + n) sizes

/-- Where each block begins, and the total behind the last. -/
def offsets (sizes : List Nat) : List Nat := offsetsFrom 0 sizes

/-- Where block `i` begins. -/
def offset (sizes : List Nat) (i : Nat) : Nat := total (sizes.take i)

/-- The indices of block `i`. -/
def blockIndices (sizes : List Nat) (i : Nat) : List Nat :=
  (List.range (sizes.getD i 0)).map (offset sizes i + ·)

/-- The block an index lies in, and its place in that block. -/
def locate : List Nat → Nat → Nat × Nat
  | [], k => (0, k)
  | n :: sizes, k =>
    if k < n then (0, k)
    else
      let (b, l) := locate sizes (k - n)
      (b + 1, l)

/-- The entries of a list from `start` up to `stop`. -/
def slice {α : Type} (xs : List α) (start stop : Nat) : List α :=
  (xs.drop start).take (stop - start)

/-- The entries of a list that belong to block `i`. -/
def blockOf {α : Type} (sizes : List Nat) (xs : List α) (i : Nat) : List α :=
  slice xs (offset sizes i) (offset sizes (i + 1))

@[simp] theorem total_nil : total [] = 0 := rfl

@[simp] theorem total_cons (n : Nat) (sizes : List Nat) : total (n :: sizes) = n + total sizes :=
  rfl

@[simp] theorem total_append (sizes sizes' : List Nat) :
    total (sizes ++ sizes') = total sizes + total sizes' := by
  induction sizes with
  | nil => simp
  | cons n sizes ih => simp [ih, Nat.add_assoc]

@[simp] theorem length_offsetsFrom (start : Nat) (sizes : List Nat) :
    (offsetsFrom start sizes).length = sizes.length + 1 := by
  induction sizes generalizing start with
  | nil => rfl
  | cons n sizes ih => simp [offsetsFrom, ih]

@[simp] theorem length_offsets (sizes : List Nat) : (offsets sizes).length = sizes.length + 1 :=
  length_offsetsFrom 0 sizes

theorem getElem?_offsetsFrom (start : Nat) (sizes : List Nat) {i : Nat} (h : i ≤ sizes.length) :
    (offsetsFrom start sizes)[i]? = some (start + offset sizes i) := by
  induction sizes generalizing start i with
  | nil =>
    obtain rfl : i = 0 := by simpa using h
    rfl
  | cons n sizes ih =>
    cases i with
    | zero => rfl
    | succ i =>
      have hi : i ≤ sizes.length := by simpa using h
      simp only [offsetsFrom, List.getElem?_cons_succ]
      rw [ih (start + n) hi]
      simp [offset, Nat.add_assoc]

/-- The table of offsets lists the offset of each block. -/
theorem getElem?_offsets (sizes : List Nat) {i : Nat} (h : i ≤ sizes.length) :
    (offsets sizes)[i]? = some (offset sizes i) := by
  rw [offsets, getElem?_offsetsFrom 0 sizes h, Nat.zero_add]

@[simp] theorem offset_zero (sizes : List Nat) : offset sizes 0 = 0 := rfl

theorem offset_length (sizes : List Nat) : offset sizes sizes.length = total sizes := by
  simp [offset]

theorem offset_succ {sizes : List Nat} {i n : Nat} (h : sizes[i]? = some n) :
    offset sizes (i + 1) = offset sizes i + n := by
  simp [offset, List.take_add_one, h]

/-- The place of an index inside its block is found back from the block's offset. -/
theorem locate_offset_add {sizes : List Nat} {b n l : Nat} (hb : sizes[b]? = some n) (hl : l < n) :
    locate sizes (offset sizes b + l) = (b, l) := by
  induction sizes generalizing b with
  | nil => simp at hb
  | cons m sizes ih =>
    cases b with
    | zero =>
      simp only [List.getElem?_cons_zero, Option.some.injEq] at hb
      subst hb
      simp [locate, hl]
    | succ b =>
      simp only [List.getElem?_cons_succ] at hb
      have h : offset (m :: sizes) (b + 1) + l = m + (offset sizes b + l) := by
        simp [offset, Nat.add_assoc]
      rw [h]
      simp [locate, ih hb]

@[simp] theorem length_slice {α : Type} (xs : List α) (start stop : Nat) :
    (slice xs start stop).length = min (stop - start) (xs.length - start) := by
  simp [slice]

end ConvexContact
