/-!
# Shapes

The shape of a tensor lists how many entries it has along each axis; the entries are kept in
row-major order, the last axis running fastest. This module holds what depends on shapes alone: the
number of entries, the multi-indices in order, the place of a multi-index, the shape two tensors are
combined in, and the shape as text.
-/

namespace ConvexContact.Shape

/-- How many entries a shape has. -/
def size (shape : List Nat) : Nat := shape.foldr (· * ·) 1

/-- All multi-indices of a shape in row-major order. -/
def indices : List Nat → List (List Nat)
  | [] => [[]]
  | n :: shape => (List.range n).flatMap fun i => (indices shape).map (i :: ·)

/-- The place of a multi-index in row-major order. -/
def place (shape index : List Nat) : Nat :=
  (shape.zip index).foldl (fun acc (n, i) => acc * n + i) 0

/-- Cuts a shape behind its first empty axis: nested lists say nothing about the axes inside an
empty one. -/
def ofNested : List Nat → List Nat
  | [] => []
  | n :: shape => if n = 0 then [0] else n :: ofNested shape

/-- The shape two shapes are combined in, both written from the last axis: equal lengths stay, and a
length of one is stretched. -/
def stretchReversed? : List Nat → List Nat → Option (List Nat)
  | [], b => some b
  | a, [] => some a
  | m :: a, n :: b =>
    if m = n ∨ n = 1 then (stretchReversed? a b).map (m :: ·)
    else if m = 1 then (stretchReversed? a b).map (n :: ·)
    else none

/-- The shape two tensors are combined in, if they can be. -/
def stretch? (a b : List Nat) : Option (List Nat) :=
  (stretchReversed? a.reverse b.reverse).map List.reverse

/-- The multi-index at which a tensor of the given shape is read for an index of the stretched
shape. -/
def restrict (shape index : List Nat) : List Nat :=
  List.zipWith (fun n i => if n = 1 then 0 else i) shape
    (index.drop (index.length - shape.length))

/-- A shape as text: `()`, `(3,)`, `(2, 3)`. -/
def text : List Nat → String
  | [] => "()"
  | [n] => "(" ++ toString n ++ ",)"
  | shape => "(" ++ ", ".intercalate (shape.map toString) ++ ")"

@[simp] theorem size_nil : size [] = 1 := rfl

@[simp] theorem size_cons (n : Nat) (shape : List Nat) : size (n :: shape) = n * size shape := rfl

/-- There is one multi-index for each entry. -/
@[simp] theorem length_indices (shape : List Nat) : (indices shape).length = size shape := by
  induction shape with
  | nil => rfl
  | cons n shape ih => simp [indices, List.length_flatMap, ih, List.map_const']

@[simp] theorem size_ofNested (shape : List Nat) : size (ofNested shape) = size shape := by
  induction shape with
  | nil => rfl
  | cons n shape ih =>
    unfold ofNested
    split
    · simp [*]
    · simp [ih]

end ConvexContact.Shape
