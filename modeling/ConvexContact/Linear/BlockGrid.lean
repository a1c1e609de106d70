import ConvexContact.Index.Signed
import ConvexContact.Linear.Mat

/-!
# Block grids

A large sparse matrix cut into rows and columns of blocks, of which only some are stored. Every
stored block is listed twice, once under its block row and once under its block column, each list in
the order in which the blocks were inserted:

* `multiply` and `transposeMultiply` walk these lists, so a product costs as much as the stored
  blocks;
* `toDense` fills the missing blocks with zeros.
-/

namespace ConvexContact

/-- A matrix of dense blocks on a grid of block rows and block columns. -/
structure BlockGrid (K : Type) where
  /-- the format of what is not stored -/
  format : Format
  /-- the heights of the block rows -/
  heights : List Nat
  /-- the widths of the block columns -/
  widths : List Nat
  /-- for each block row its blocks, with their columns -/
  byRow : List (List (Nat × Mat K))
  /-- for each block column its blocks, with their rows -/
  byCol : List (List (Nat × Mat K))
  /-- how many blocks are stored -/
  count : Nat

namespace BlockGrid

variable {K : Type}

/-- The grid without blocks, for sizes that are known not to be negative. -/
def blank (format : Format) (heights widths : List Nat) : BlockGrid K where
  format := format
  heights := heights
  widths := widths
  byRow := heights.map fun _ => []
  byCol := widths.map fun _ => []
  count := 0

/-- The grid without blocks. -/
def empty? (format : Format) (heights widths : List Int) : Except (Error K) (BlockGrid K) :=
  if heights.any (· < 0) || widths.any (· < 0) then .error .negativeBlockSize
  else .ok (blank format (heights.map Int.toNat) (widths.map Int.toNat))

/-- Applies a function to each entry of each block. -/
def map {L : Type} (f : K → L) (J : BlockGrid K) : BlockGrid L :=
  let blocks := List.map (List.map fun (k, B) => (k, Mat.map f B))
  { J with byRow := blocks J.byRow, byCol := blocks J.byCol }

/-- How many rows the whole matrix has. -/
def rows (J : BlockGrid K) : Nat := total J.heights

/-- How many columns the whole matrix has. -/
def cols (J : BlockGrid K) : Nat := total J.widths

/-- The blocks of block row `i`, with their columns. -/
def row (J : BlockGrid K) (i : Nat) : List (Nat × Mat K) := J.byRow.getD i []

/-- The blocks of block column `j`, with their rows. -/
def col (J : BlockGrid K) (j : Nat) : List (Nat × Mat K) := J.byCol.getD j []

/-- The block stored in block row `i` and block column `j`. -/
def block? (J : BlockGrid K) (i j : Nat) : Option (Mat K) := (J.row i).lookup j

/-- Stores a block at a place that is known to be free and to fit. -/
def store (J : BlockGrid K) (i j : Nat) (block : Mat K) : BlockGrid K :=
  { J with
    byRow := J.byRow.modify i (· ++ [(j, block)])
    byCol := J.byCol.modify j (· ++ [(i, block)])
    count := J.count + 1 }

/-- Stores a block. The place must lie on the grid, the block must have the size of the place, and
the place must be free, and they are looked at in this order. -/
def insert [Zero K] (J : BlockGrid K) (i j : Int) (block : Given K) :
    Except (Error K) (BlockGrid K) := do
  if i < 0 ∨ J.heights.length ≤ i ∨ j < 0 ∨ J.widths.length ≤ j then
    .error (.blockRange i j J.heights.length J.widths.length)
  else
    let block ← block.asTensor
    let height := J.heights.getD i.toNat 0
    let width := J.widths.getD j.toNat 0
    if block.shape ≠ [height, width] then .error (.blockShape i j height width block.shape)
    else if (J.row i.toNat).any (·.1 == j.toNat) then .error (.blockPresent i j)
    else .ok (J.store i.toNat j.toNat (Mat.ofEntries block.format height width block.data))

/-- The offset at a signed position of a table of offsets. -/
def offsetAt (sizes : List Nat) (i : Int) : Except (Error K) Nat :=
  match atSigned? (offsets sizes) i with
  | some n => .ok n
  | none => .error .outOfPosition

/-- The indices between the offsets at a signed position and the next. -/
def sliceAt (sizes : List Nat) (i : Int) : Except (Error K) (Nat × Nat) := do
  let start ← offsetAt sizes i
  let stop ← offsetAt sizes (i + 1)
  return (start, stop)

/-- The blocks of the block row at a signed position. -/
def rowAt (J : BlockGrid K) (i : Int) : Except (Error K) (List (Nat × Mat K)) :=
  match atSigned? J.byRow i with
  | some row => .ok row
  | none => .error .outOfPosition

variable [Arith K]

/-- Adds the products of blocks with their parts of `x` to a vector of zeros. -/
def accumulate (sizes : List Nat) (x : Vec K) (height : Nat) (blocks : List (Nat × Mat K)) :
    Except (Error K) (Vec K) :=
  blocks.foldlM (fun y (j, B) => do
    let p ← B.mulVec? (x.block sizes j)
    return y.add p) (Vec.zeros x.format height)

/-- The product `J·x`, one block row after the other. -/
def multiply (J : BlockGrid K) (x : Vec K) : Except (Error K) (Vec K) :=
  if x.size ≠ J.cols then .error (.operandShape J.cols x.shape)
  else do
    let pieces ← (J.heights.zip J.byRow).mapM fun (n, blocks) => accumulate J.widths x n blocks
    return Vec.concat x.format pieces

/-- The product `Jᵀ·y`, one block column after the other. -/
def transposeMultiply (J : BlockGrid K) (y : Vec K) : Except (Error K) (Vec K) :=
  if y.size ≠ J.rows then .error (.operandShape J.rows y.shape)
  else do
    let pieces ← (J.widths.zip J.byCol).mapM fun (n, blocks) =>
      accumulate J.heights y n (blocks.map fun (i, B) => (i, B.transpose))
    return Vec.concat y.format pieces

/-- The product with a tensor, which has to be a vector of the size of the columns; the parts of the
answer have to be held. -/
def multiplyTensor (J : BlockGrid K) (x : Tensor K) : Except (Error K) (Vec K) := do
  match Vec.ofTensor? x with
  | some v =>
    if v.size = J.cols then J.heights.forM fun n => checkShape [n]
    J.multiply v
  | none => .error (.operandShape J.cols x.shape)

/-- The transposed product with a tensor, which has to be a vector of the size of the rows; the
parts of the answer have to be held. -/
def transposeMultiplyTensor (J : BlockGrid K) (y : Tensor K) : Except (Error K) (Vec K) := do
  match Vec.ofTensor? y with
  | some v =>
    if v.size = J.rows then J.widths.forM fun n => checkShape [n]
    J.transposeMultiply v
  | none => .error (.operandShape J.rows y.shape)

/-- All blocks of the grid, row by row, the missing ones filled with zeros. -/
def cells (J : BlockGrid K) : List (List (Mat K)) :=
  J.heights.zipIdx.map fun (m, i) =>
    J.widths.zipIdx.map fun (n, j) => (J.block? i j).getD (Mat.zeros J.format m n)

/-- The whole matrix. -/
def toDense (J : BlockGrid K) : Mat K :=
  let cells := J.cells
  Mat.ofBlocks (Mat.joinFormats J.format cells.flatten) J.heights J.widths cells

/-- Whether what fills a grid with zeros can be set up. -/
def checkCells (J : BlockGrid K) : Except (Error K) Unit :=
  if J.heights.isEmpty then checkShape [0, J.cols]
  else
    J.heights.zipIdx.forM fun (m, i) =>
      if J.widths.isEmpty then checkShape [m, 0]
      else
        J.widths.zipIdx.forM fun (n, j) =>
          if (J.block? i j).isSome then .ok () else checkShape [m, n]

/-- The widest format on the grid, where a missing block has the format of the grid. -/
def widest (J : BlockGrid K) : Format :=
  let formats := J.heights.zipIdx.flatMap fun (_, i) =>
    J.widths.zipIdx.map fun (_, j) => ((J.block? i j).map (·.format)).getD J.format
  match formats with
  | [] => J.format
  | f :: rest => rest.foldl Format.join f

/-- The whole matrix of a grid of any size as a tensor; without entries no row is looked at. -/
def dense (J : BlockGrid K) : Except (Error K) (Tensor K) := do
  J.checkCells
  if J.rows * J.cols = 0 then return Tensor.zeros J.widest [J.rows, J.cols]
  else return J.toDense.toTensor

end BlockGrid

end ConvexContact
