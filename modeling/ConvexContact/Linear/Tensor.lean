import ConvexContact.Linear.Shape
import ConvexContact.Numeric.Arith

/-!
# Tensors

A tensor is what enters and leaves the library: entries of one format in a shape of any rank. The
computations themselves run on vectors and matrices, which are read off tensors of rank one and two.

`Given` is a tensor as a caller hands it over. It may come as a nested list, which has no format of
its own and takes the one of its destination.
-/

namespace ConvexContact

/-- Entries of one format in a shape of any rank, in row-major order. -/
structure Tensor (K : Type) where
  format : Format
  shape : List Nat
  data : List K
  length_data : data.length = Shape.size shape

namespace Tensor

variable {K : Type}

/-- A tensor from its entries, when there are as many as the shape asks for. -/
def ofData? (format : Format) (shape : List Nat) (data : List K) : Option (Tensor K) :=
  if h : data.length = Shape.size shape then some ⟨format, shape, data, h⟩ else none

/-- The tensor with the entry `f index` at each multi-index. -/
def ofFn (format : Format) (shape : List Nat) (f : List Nat → K) : Tensor K :=
  ⟨format, shape, (Shape.indices shape).map f, by simp⟩

/-- How many axes a tensor has. -/
def rank (t : Tensor K) : Nat := t.shape.length

/-- How many entries a tensor has. -/
def count (t : Tensor K) : Nat := t.data.length

/-- A tensor without axes. -/
def scalar (format : Format) (x : K) : Tensor K := ⟨format, [], [x], rfl⟩

/-- Applies a function to each entry. -/
def map {L : Type} (f : K → L) (t : Tensor K) : Tensor L :=
  ⟨t.format, t.shape, t.data.map f, by simp [t.length_data]⟩

/-- The entries along the first axis, each as its own list. -/
def slabs (t : Tensor K) : List (List K) :=
  match t.shape with
  | [] => []
  | n :: shape =>
    (List.range n).map fun i => (t.data.drop (i * Shape.size shape)).take (Shape.size shape)

section Zero

variable [Zero K]

/-- The entry at a multi-index. -/
def get (t : Tensor K) (index : List Nat) : K := t.data.getD (Shape.place t.shape index) 0

/-- Brings a list to a given length, by cutting it or filling it with zeros. -/
def fit (n : Nat) (xs : List K) : List K := xs.take n ++ List.replicate (n - xs.length) 0

@[simp] theorem length_fit (n : Nat) (xs : List K) : (fit n xs).length = n := by
  simp [fit]
  omega

theorem fit_length (xs : List K) : fit xs.length xs = xs := by
  simp [fit]

/-- Stacks slabs of one shape along a new first axis. -/
def ofSlabs (format : Format) (shape : List Nat) (slabs : List (List K)) : Tensor K where
  format := format
  shape := slabs.length :: shape
  data := slabs.flatMap (fit (Shape.size shape))
  length_data := by
    simp [List.length_flatMap, List.map_const']

/-- The tensor of zeros. -/
def zeros (format : Format) (shape : List Nat) : Tensor K :=
  ⟨format, shape, List.replicate (Shape.size shape) 0, by simp⟩

/-- The tensor in a given shape, its axes of length one stretched as far as needed. -/
def stretchTo? (shape : List Nat) (t : Tensor K) : Option (Tensor K) :=
  if t.shape = shape then some t
  else if Shape.stretch? t.shape shape = some shape then
    some (ofFn t.format shape fun index => t.get (Shape.restrict t.shape index))
  else none

@[simp] theorem stretchTo?_shape (t : Tensor K) : t.stretchTo? t.shape = some t := by
  simp [stretchTo?]

/-- Slab `i` along the first axis, as a tensor with one axis less. -/
def slab? (t : Tensor K) (i : Nat) : Option (Tensor K) :=
  match t.shape with
  | [] => none
  | _ :: shape =>
    (t.slabs[i]?).map fun xs => ⟨t.format, shape, fit (Shape.size shape) xs, by simp⟩

end Zero

section Arith

variable [Arith K]

/-- Stores every entry in a format. -/
def cast (f : Format) (t : Tensor K) : Tensor K := { t.map (Arith.cast f) with format := f }

/-- The format of a combination of two tensors. A tensor without axes widens the other only to hold
another kind of number. -/
def joinFormat (a b : Tensor K) : Format :=
  match a.shape, b.shape with
  | [], _ :: _ => if b.format.kind < a.format.kind then a.format else b.format
  | _ :: _, [] => if a.format.kind < b.format.kind then b.format else a.format
  | _, _ => a.format.join b.format

/-- Combines two tensors entry by entry, stretching axes of length one. -/
def combine? (op : Format → K → K → K) (a b : Tensor K) : Option (Tensor K) :=
  (Shape.stretch? a.shape b.shape).map fun shape =>
    let f := joinFormat a b
    let left := a.cast f
    let right := b.cast f
    ofFn f shape fun index =>
      op f (left.get (Shape.restrict a.shape index)) (right.get (Shape.restrict b.shape index))

/-- Multiplies every entry by a plain real number. -/
def scale (x : K) (t : Tensor K) : Tensor K :=
  let f := t.format.real
  let t := t.cast f
  t.map fun y => Arith.mulIn f y (Arith.cast f x)

end Arith

@[simp] theorem format_cast [Arith K] (f : Format) (t : Tensor K) : (t.cast f).format = f := rfl

@[simp] theorem shape_cast [Arith K] (f : Format) (t : Tensor K) : (t.cast f).shape = t.shape := rfl

end Tensor

/-- A tensor as a caller hands it over. -/
inductive Given (K : Type) where
  /-- a tensor with its own format -/
  | tensor (t : Tensor K)
  /-- a nested list of numbers -/
  | nested (t : Tensor K)

namespace Given

variable {K : Type} [Arith K]

/-- The tensor handed over, without a conversion; of a nested list the axes inside an empty one are
lost. -/
def raw : Given K → Tensor K
  | tensor t => t
  | nested t => ⟨t.format, Shape.ofNested t.shape, t.data, by simp [t.length_data]⟩

/-- Whether the numbers handed over can be stored in the format of their destination: those of a
nested list must have a whole part in range if they are to become whole numbers. -/
def fits (f : Format) : Given K → Bool
  | tensor _ => true
  | nested t => f != .integer || t.data.all (Arith.fits .integer)

/-- The tensor handed over, in the format of its destination. The fractions that become of a nested
list are stored in double precision first. -/
def toFormat (f : Format) : Given K → Tensor K
  | tensor t => t.cast f
  | nested t =>
    let t := (nested t).raw
    if f.isFloating then (t.cast .double).cast f else t.cast f

/-- The tensor handed over in its own format; a nested list takes double precision. -/
def toTensor : Given K → Tensor K
  | tensor t => t
  | nested t => (nested t).toFormat .double

end Given

end ConvexContact
