import ConvexContact.Linear.Checked

/-!
# Matrices

Dense matrices of run-time size, kept as a list of rows. `Mat.ofFn` builds a matrix from a formula
for its entries and `Mat.get` reads an entry, so `get_ofFn` and `Mat.ext_get` are all that a proof
about entries needs. Products require both operands in one format.
-/

namespace ConvexContact

/-- A dense matrix: `rows` lists of `cols` entries each. -/
structure Mat (K : Type) where
  format : Format
  rows : Nat
  cols : Nat
  entries : List (List K)
  length_entries : entries.length = rows
  length_row : ∀ row ∈ entries, row.length = cols

namespace Mat

variable {K : Type}

/-- The matrix with the entry `f i j` in row `i` and column `j`. -/
def ofFn (format : Format) (rows cols : Nat) (f : Nat → Nat → K) : Mat K where
  format := format
  rows := rows
  cols := cols
  entries := (List.range rows).map fun i => (List.range cols).map (f i)
  length_entries := by simp
  length_row := by
    intro row h
    obtain ⟨i, -, rfl⟩ := List.mem_map.mp h
    simp

/-- The shape of a matrix. -/
def shape (A : Mat K) : List Nat := [A.rows, A.cols]

/-- Applies a function to each entry. -/
def map {L : Type} (f : K → L) (A : Mat K) : Mat L where
  format := A.format
  rows := A.rows
  cols := A.cols
  entries := A.entries.map (List.map f)
  length_entries := by simp [A.length_entries]
  length_row := by
    intro row h
    obtain ⟨r, hr, rfl⟩ := List.mem_map.mp h
    simp [A.length_row r hr]

theorem length_flatten (A : Mat K) : A.entries.flatten.length = A.rows * A.cols := by
  rw [List.length_flatten, ← A.length_entries]
  have h : A.entries.map List.length = List.replicate A.entries.length A.cols :=
    List.eq_replicate_iff.mpr ⟨by simp, fun n hn => by
      obtain ⟨row, hrow, rfl⟩ := List.mem_map.mp hn
      exact A.length_row row hrow⟩
  rw [h]
  simp

/-- The matrix as a tensor of rank two. -/
def toTensor (A : Mat K) : Tensor K :=
  ⟨A.format, A.shape, A.entries.flatten, by simp [shape, A.length_flatten]⟩

section Zero

variable [Zero K]

/-- The entry in row `i` and column `j`. -/
def get (A : Mat K) (i j : Nat) : K := (A.entries.getD i []).getD j 0

/-- The matrix with given entries, row by row. -/
def ofEntries (f : Format) (rows cols : Nat) (data : List K) : Mat K :=
  ofFn f rows cols fun i j => data.getD (i * cols + j) 0

/-- Reads a tensor of rank two. -/
def ofTensor? (t : Tensor K) : Option (Mat K) :=
  match t.shape with
  | [rows, cols] => some (ofEntries t.format rows cols t.data)
  | _ => none

/-- The matrix of zeros. -/
def zeros (f : Format) (rows cols : Nat) : Mat K := ofFn f rows cols fun _ _ => 0

/-- Rows and columns exchanged. -/
def transpose (A : Mat K) : Mat K := ofFn A.format A.cols A.rows fun i j => A.get j i

/-- The entries on the diagonal. -/
def diagonal (A : Mat K) : Vec K :=
  ⟨A.format, (List.range (min A.rows A.cols)).map fun i => A.get i i⟩

/-- The matrix with given entries on its diagonal and zeros elsewhere. -/
def diag (v : Vec K) : Mat K :=
  ofFn v.format v.size v.size fun i j => if i = j then v.entries.getD i 0 else 0

theorem get_ofFn (f : Format) {rows cols i j : Nat} (g : Nat → Nat → K) (hi : i < rows)
    (hj : j < cols) : (ofFn f rows cols g).get i j = g i j := by
  simp [get, ofFn, List.getD_eq_getElem?_getD, hi, hj]

@[simp] theorem get_transpose (A : Mat K) {i j : Nat} (hi : i < A.cols) (hj : j < A.rows) :
    A.transpose.get i j = A.get j i :=
  get_ofFn _ _ hi hj

theorem get_diag (v : Vec K) {i j : Nat} (hi : i < v.size) (hj : j < v.size) :
    (diag v).get i j = if i = j then v.entries.getD i 0 else 0 :=
  get_ofFn _ _ hi hj

/-- Matrices are determined by their format, their size and their entries. -/
theorem ext_get {A B : Mat K} (hf : A.format = B.format) (hr : A.rows = B.rows)
    (hc : A.cols = B.cols) (h : ∀ i j, i < A.rows → j < A.cols → A.get i j = B.get i j) :
    A = B := by
  have hrows : A.entries = B.entries := by
    refine List.ext_getElem (by rw [A.length_entries, B.length_entries, hr]) ?_
    intro i hiA hiB
    have hA := A.length_row _ (List.getElem_mem hiA)
    have hB := B.length_row _ (List.getElem_mem hiB)
    refine List.ext_getElem (by rw [hA, hB, hc]) ?_
    intro j hjA hjB
    have hij := h i j (by rw [← A.length_entries]; exact hiA) (by rw [← hA]; exact hjA)
    simpa [get, List.getD_eq_getElem?_getD, hiA, hiB, hjA, hjB] using hij
  cases A
  cases B
  subst hf hr hc hrows
  rfl

end Zero

variable [Arith K]

/-- Stores every entry in a format. -/
def cast (f : Format) (A : Mat K) : Mat K := { A.map (Arith.cast f) with format := f }

/-- The identity matrix. -/
def identity (f : Format) (n : Nat) : Mat K := ofFn f n n fun i j => if i = j then 1 else 0

/-- A plain real number times a matrix. -/
def scale (c : K) (A : Mat K) : Mat K :=
  let f := A.format.real
  { A.map (fun x => Arith.mulIn f (Arith.cast f c) (Arith.cast f x)) with format := f }

/-- Multiplies column `j` by entry `j` of a vector. -/
def scaleColumns (A : Mat K) (v : Vec K) : Mat K :=
  let f := A.format.join v.format
  ofFn f A.rows A.cols fun i j => Arith.mulIn f (Arith.cast f (A.get i j)) (Arith.cast f (v.get j))

/-- The product with a vector, entry by entry an inner product. -/
def mulVec (A : Mat K) (v : Vec K) : Vec K :=
  ⟨A.format, A.entries.map fun row => Arith.dot A.format row v.entries⟩

/-- The product of two matrices, entry by entry an inner product of a row and a column. -/
def product (A B : Mat K) : Mat K where
  format := A.format
  rows := A.rows
  cols := B.cols
  entries :=
    let columns := B.transpose.entries
    A.entries.map fun row => columns.map fun column => Arith.dot A.format row column
  length_entries := by simp [A.length_entries]
  length_row := by
    intro row h
    obtain ⟨r, -, rfl⟩ := List.mem_map.mp h
    simp [B.transpose.length_entries]
    rfl

/-- The sum of two matrices of one size in the wider format. -/
def add (A B : Mat K) : Mat K :=
  let f := A.format.join B.format
  ofFn f A.rows A.cols fun i j =>
    Arith.addIn f (Arith.cast f (A.get i j)) (Arith.cast f (B.get i j))

/-- The Euclidean length of all entries. -/
def norm (A : Mat K) : Scalar K := ⟨A.format, Arith.norm A.format A.entries.flatten⟩

/-- Whether a product has its operands in one format and of fitting size. Truth values are not
multiplied: `work` is how many multiplications the product takes, and only one that takes none is
defined for them. -/
def checkProduct (fa fb : Format) (inner outer work : Nat) : Except (Error K) Unit :=
  if fa ≠ fb then .error .formatMismatch
  else if inner ≠ outer then .error .shapeMismatch
  else if fa = .boolean ∧ work ≠ 0 then .error .notNumeric
  else .ok ()

omit [Arith K] in
theorem checkProduct_eq_ok {fa fb : Format} {inner outer work : Nat} :
    (checkProduct fa fb inner outer work : Except (Error K) Unit) = .ok () ↔
      fa = fb ∧ inner = outer ∧ (fa = .boolean → work = 0) := by
  unfold checkProduct
  by_cases hf : fa = fb
  · by_cases hs : inner = outer
    · simp [hf, hs]
    · simp [hf, hs]
  · simp [hf]

/-- The product with a vector. -/
def mulVec? (A : Mat K) (v : Vec K) : Except (Error K) (Vec K) :=
  (checkProduct A.format v.format A.cols v.size (A.rows * A.cols)).map fun _ => A.mulVec v

/-- The product of two matrices. -/
def product? (A B : Mat K) : Except (Error K) (Mat K) :=
  (checkProduct A.format B.format A.cols B.rows (A.rows * A.cols * B.cols)).map fun _ => A.product B

/-- An entry of a matrix in a format, which is left as it is if the matrix has it. -/
def entryIn (f : Format) (A : Mat K) (i j : Nat) : K :=
  if A.format = f then A.get i j else Arith.cast f (A.get i j)

/-- Assembles blocks of the given heights and widths into one matrix, `cells` listing them row by
row. -/
def ofBlocks (f : Format) (heights widths : List Nat) (cells : List (List (Mat K))) : Mat K :=
  ofFn f (total heights) (total widths) fun i j =>
    let (a, k) := locate heights i
    let (b, l) := locate widths j
    match (cells.getD a [])[b]? with
    | some cell => cell.entryIn f k l
    | none => 0

/-- The widest format among blocks; `f` is the format when there are none. -/
def joinFormats (f : Format) : List (Mat K) → Format
  | [] => f
  | A :: rest => rest.foldl (fun g B => g.join B.format) A.format

@[simp] theorem mulVec?_of_fits {A : Mat K} {v : Vec K} (hf : A.format = v.format)
    (hs : A.cols = v.size) (hb : A.format ≠ .boolean) : A.mulVec? v = .ok (A.mulVec v) := by
  rw [mulVec?, checkProduct_eq_ok.mpr ⟨hf, hs, fun h => absurd h hb⟩]
  rfl

@[simp] theorem product?_of_fits {A B : Mat K} (hf : A.format = B.format)
    (hs : A.cols = B.rows) (hb : A.format ≠ .boolean) : A.product? B = .ok (A.product B) := by
  rw [product?, checkProduct_eq_ok.mpr ⟨hf, hs, fun h => absurd h hb⟩]
  rfl

@[simp] theorem size_mulVec (A : Mat K) (v : Vec K) : (A.mulVec v).size = A.rows := by
  simp [mulVec, Vec.size, A.length_entries]

end Mat

end ConvexContact
