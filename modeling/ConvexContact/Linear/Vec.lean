import ConvexContact.Index.Offsets
import ConvexContact.Linear.Tensor

/-!
# Vectors and scalars

Vectors are the tensors of rank one and scalars those of rank zero. Each operation on two vectors
takes the wider of their formats and stores every result in it.
-/

namespace ConvexContact

/-- A single number with its format. -/
structure Scalar (K : Type) where
  format : Format
  value : K

/-- A list of numbers with their format. -/
structure Vec (K : Type) where
  format : Format
  entries : List K

namespace Scalar

variable {K : Type}

/-- The scalar as a tensor without axes. -/
def toTensor (s : Scalar K) : Tensor K := Tensor.scalar s.format s.value

variable [Arith K]

/-- The sum of two scalars. -/
def add (a b : Scalar K) : Scalar K :=
  let f := a.format.join b.format
  ⟨f, Arith.addIn f (Arith.cast f a.value) (Arith.cast f b.value)⟩

/-- Half of a scalar. -/
def half (a : Scalar K) : Scalar K :=
  let f := a.format.real
  ⟨f, Arith.mulIn f (Arith.cast f Arith.half) (Arith.cast f a.value)⟩

end Scalar

namespace Vec

variable {K : Type}

/-- How many entries a vector has. -/
def size (v : Vec K) : Nat := v.entries.length

/-- The shape of a vector. -/
def shape (v : Vec K) : List Nat := [v.size]

/-- The vector as a tensor of rank one. -/
def toTensor (v : Vec K) : Tensor K := ⟨v.format, v.shape, v.entries, by simp [shape, size]⟩

/-- Reads a tensor of rank one. -/
def ofTensor? (t : Tensor K) : Option (Vec K) :=
  match t.shape with
  | [_] => some ⟨t.format, t.data⟩
  | _ => none

/-- Applies a function to each entry. -/
def map {L : Type} (f : K → L) (v : Vec K) : Vec L := ⟨v.format, v.entries.map f⟩

/-- The entries from `start` up to `stop`. -/
def slice (v : Vec K) (start stop : Nat) : Vec K :=
  ⟨v.format, ConvexContact.slice v.entries start stop⟩

/-- The entries that belong to block `i` of a list of sizes. -/
def block (sizes : List Nat) (v : Vec K) (i : Nat) : Vec K :=
  ⟨v.format, blockOf sizes v.entries i⟩

/-- The vector of `n` equal entries. -/
def replicate (f : Format) (n : Nat) (x : K) : Vec K := ⟨f, List.replicate n x⟩

variable [Arith K]

/-- The entry at place `i`. -/
def get (v : Vec K) (i : Nat) : K := v.entries.getD i 0

/-- Stores every entry in a format. -/
def cast (f : Format) (v : Vec K) : Vec K := ⟨f, v.entries.map (Arith.cast f)⟩

/-- The vector of zeros. -/
def zeros (f : Format) (n : Nat) : Vec K := replicate f n 0

/-- Combines two vectors entry by entry in the wider format. -/
def zipIn (op : Format → K → K → K) (a b : Vec K) : Vec K :=
  let f := a.format.join b.format
  ⟨f, List.zipWith (fun x y => op f (Arith.cast f x) (Arith.cast f y)) a.entries b.entries⟩

/-- The sum of two vectors. -/
def add (a b : Vec K) : Vec K := zipIn Arith.addIn a b

/-- The difference of two vectors. -/
def sub (a b : Vec K) : Vec K := zipIn Arith.subIn a b

/-- The difference of two vectors, which truth values do not have. -/
def sub? (a b : Vec K) : Option (Vec K) :=
  if a.format = .boolean ∨ b.format = .boolean then none else some (a.sub b)

/-- The entrywise product of two vectors. -/
def mul (a b : Vec K) : Vec K := zipIn Arith.mulIn a b

/-- The entrywise product of two vectors, one of which may be stretched from a single entry. -/
def mul? (a b : Vec K) : Option (Vec K) :=
  if a.size = b.size then some (a.mul b)
  else if b.size = 1 then some (a.mul (replicate b.format a.size (b.get 0)))
  else if a.size = 1 then some ((replicate a.format b.size (a.get 0)).mul b)
  else none

/-- The negative of a vector. -/
def neg (v : Vec K) : Vec K := v.map fun x => Arith.cast v.format (-x)

/-- The negative of a vector, which truth values do not have. -/
def neg? (v : Vec K) : Option (Vec K) := if v.format = .boolean then none else some v.neg

/-- A plain real number times a vector. -/
def scale (c : K) (v : Vec K) : Vec K :=
  let f := v.format.real
  ⟨f, v.entries.map fun x => Arith.mulIn f (Arith.cast f c) (Arith.cast f x)⟩

/-- A vector divided by a plain real number. -/
def divideBy (v : Vec K) (c : K) : Vec K :=
  let f := v.format.real
  ⟨f, v.entries.map fun x => Arith.divIn f (Arith.cast f x) (Arith.cast f c)⟩

/-- The reciprocals of the entries. -/
def inverse (v : Vec K) : Vec K :=
  let f := v.format.real
  ⟨f, v.entries.map fun x => Arith.divIn f (Arith.cast f 1) (Arith.cast f x)⟩

/-- The square roots of the entries. -/
def sqrt (v : Vec K) : Vec K :=
  let f := v.format.real
  ⟨f, v.entries.map fun x => Arith.cast f (Arith.sqrt (Arith.cast f x))⟩

/-- The sum of the entries. -/
def sum (v : Vec K) : Scalar K := ⟨v.format, Arith.sum v.format v.entries⟩

/-- The Euclidean length. -/
def norm (v : Vec K) : Scalar K := ⟨v.format, Arith.norm v.format v.entries⟩

/-- The inner product of two vectors. -/
def dot (a b : Vec K) : Scalar K := (a.mul b).sum

/-- The largest absolute value of the entries, and zero of an empty vector. -/
def maxAbs (v : Vec K) : Scalar K :=
  match v.entries.map Arith.abs with
  | [] => ⟨v.format, 0⟩
  | x :: xs => ⟨v.format, xs.foldl Arith.larger x⟩

/-- The entries of a vector in a format, which are left as they are if the vector has it. -/
def entriesIn (f : Format) (v : Vec K) : List K :=
  if v.format = f then v.entries else v.entries.map (Arith.cast f)

/-- Joins vectors end to end in their widest format; `f` is the format when there are none. -/
def concat (f : Format) (vs : List (Vec K)) : Vec K :=
  match vs with
  | [] => zeros f 0
  | v :: rest =>
    let g := rest.foldl (fun g w => g.join w.format) v.format
    ⟨g, vs.flatMap (entriesIn g)⟩

@[simp] theorem size_cast (f : Format) (v : Vec K) : (v.cast f).size = v.size := by
  simp [cast, size]

@[simp] theorem size_neg (v : Vec K) : v.neg.size = v.size := by
  simp [neg, map, size]

@[simp] theorem size_zipIn (op : Format → K → K → K) (a b : Vec K) :
    (zipIn op a b).size = min a.size b.size := by
  simp [zipIn, size]

@[simp] theorem format_zipIn (op : Format → K → K → K) (a b : Vec K) :
    (zipIn op a b).format = a.format.join b.format := rfl

omit [Arith K] in
@[simp] theorem ofTensor?_toTensor (v : Vec K) : ofTensor? v.toTensor = some v := rfl

end Vec

end ConvexContact
