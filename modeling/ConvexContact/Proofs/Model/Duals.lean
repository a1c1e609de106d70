import Mathlib.Algebra.Order.Field.Basic
import ConvexContact.Proofs.Model.Formulas
import ConvexContact.Proofs.Model.Morphism

/-!
# Well-formed models on dual numbers

The dual numbers that do not vary are closed under all operations, so a reading of the dual numbers
is one of the plain numbers as well (`Reading.const`). Through it the data of a model on dual
numbers are those of the plain model, and a model whose parts fit together does so on dual numbers
(`Model.WellFormed.toDual`).

What varies are the velocities, `v + ε·t` (`Vec.dual`). Their coordinates, and the products of the
Jacobian with them, consist of those of `v` and of those of `t`.

Proof shape: entries come first (`Vec.get_map_const`, `Mat.get_map_const`, `Vec.get_dual`), then
coordinates, then what a block makes of them (`PlacedBlock.fst_forward` and its companions). The
well-formedness of the model on dual numbers goes field by field; only `pStar_coord` has to say
something about numbers, and there the reading of constants takes the place of the given one.
-/

namespace ConvexContact

variable {K R : Type} [ExactField K] [CommRing R]

/-- Plain numbers read as dual numbers that do not vary. -/
def Reading.const (φ : Reading (Dual K) R) : Reading K R where
  toFun a := φ (Dual.const a)
  zero' := φ.map_zero
  add' a b := φ.add' (Dual.const a) (Dual.const b)
  sub' a b := φ.sub' (Dual.const a) (Dual.const b)
  neg' a := φ.neg' (Dual.const a)
  cast' f a := φ.cast' f (Dual.const a)
  mulIn' f a b := φ.mulIn' f (Dual.const a) (Dual.const b)
  alongside' _ _ := rfl

@[simp] theorem Reading.const_apply (φ : Reading (Dual K) R) (a : K) :
    φ.const a = φ (Dual.const a) := rfl

/-- A block that does not vary. -/
def PlacedBlock.toDual (t : PlacedBlock K) : PlacedBlock (Dual K) :=
  { t with block := t.block.map Dual.const }

/-! ## Entries that do not vary -/

/-- The entries of a vector that does not vary, -/
theorem Vec.get_map_const (v : Vec K) (i : Nat) :
    (v.map Dual.const).get i = Dual.const (v.get i) := by
  by_cases hi : i < v.entries.length
  · simp [Vec.map, Vec.get, List.getD_eq_getElem?_getD, hi]
  -- beyond the entries both are zero
  · have hle : v.entries.length ≤ i := Nat.le_of_not_lt hi
    have hle' : (v.map Dual.const).size ≤ i := by
      rw [Vec.size, Vec.map, List.length_map]
      exact hle
    rw [Vec.get_of_size_le hle', Vec.get_of_size_le hle]
    rfl

/-- and its coordinates, as the plain vector has them. -/
theorem Vec.coord_map_const (φ : Reading (Dual K) R) (sizes : List Nat) (v : Vec K) (k l : Nat) :
    (v.map Dual.const).coord φ sizes k l = v.coord φ.const sizes k l := by
  rw [Vec.coord, Vec.get_map_const]
  rfl

/-- The entries of a matrix that does not vary. -/
theorem Mat.get_map_const (A : Mat K) (i j : Nat) :
    (A.map Dual.const).get i j = Dual.const (A.get i j) := by
  have hrow : (A.entries.map (List.map Dual.const)).getD i [] =
      (A.entries.getD i []).map Dual.const := by
    rw [List.getD_eq_getElem?_getD, List.getElem?_map, List.getD_eq_getElem?_getD]
    cases A.entries[i]? <;> rfl
  change ((A.entries.map (List.map Dual.const)).getD i []).getD j 0 = _
  rw [hrow]
  exact Vec.get_map_const ⟨A.format, A.entries.getD i []⟩ j

/-- An entry of a list of such matrices. -/
theorem entryOf_map_const (A : List (Mat K)) (k i j : Nat) :
    entryOf (A.map (Mat.map Dual.const)) k i j = Dual.const (entryOf A k i j) := by
  rw [entryOf, entryOf, List.getElem?_map]
  cases A[k]? with
  | none => rfl
  | some B => exact Mat.get_map_const B i j

/-! ## Grids -/

omit [ExactField K] in
/-- The blocks of a grid on dual numbers. -/
theorem BlockGrid.Lists.toDual {J : BlockGrid K} {ts : List (PlacedBlock K)}
    (h : J.Lists ts) : (J.map Dual.const).Lists (ts.map PlacedBlock.toDual) where
  count := h.count.trans (List.length_map _).symm
  rows := (List.length_map _).trans h.rows
  cols := (List.length_map _).trans h.cols
  row i := by
    rw [BlockGrid.row_map, h.row, List.filter_map, List.map_map, List.map_map]
    rfl
  col j := by
    rw [BlockGrid.col_map, h.col, List.filter_map, List.map_map, List.map_map]
    rfl
  row_lt t ht := by
    obtain ⟨u, hu, rfl⟩ := List.mem_map.mp ht
    exact h.row_lt u hu
  col_lt t ht := by
    obtain ⟨u, hu, rfl⟩ := List.mem_map.mp ht
    exact h.col_lt u hu
  height t ht := by
    obtain ⟨u, hu, rfl⟩ := List.mem_map.mp ht
    exact h.height u hu
  width t ht := by
    obtain ⟨u, hu, rfl⟩ := List.mem_map.mp ht
    exact h.width u hu

/-! ## Directions

Reading a dual number gives a pair, the value and the tangent. For what varies in a direction these
are the coordinates of `v` and those of `t`. -/

namespace Vec

variable {v t : Vec K}

/-- A vector that varies has its own size, whatever the direction. -/
@[simp] theorem size_dual (v t : Vec K) : (dual v t).size = v.size := by
  rw [size, dual, List.length_map, List.length_zipIdx, size]

/-- The entries of a vector that varies in a direction. -/
theorem get_dual (h : t.size = v.size) (i : Nat) :
    ((dual v t).get i).primal = v.get i ∧ ((dual v t).get i).tangent = t.get i := by
  by_cases hi : i < v.size
  · have hi' : i < v.entries.length := hi
    simp [dual, get, List.getD_eq_getElem?_getD, hi']
  · rw [get_of_size_le (by rw [size_dual]; omega), get_of_size_le (v := v) (by omega),
      get_of_size_le (v := t) (by omega)]
    exact ⟨rfl, rfl⟩

/-- The values of the coordinates are those of the vector, -/
theorem fst_coord_dual (h : t.size = v.size) (sizes : List Nat) (k l : Nat) :
    ((dual v t).coord Reading.dual sizes k l).fst = v.coord Reading.exact sizes k l :=
  (get_dual h _).1

/-- and their tangents those of the direction. -/
theorem snd_coord_dual (h : t.size = v.size) (sizes : List Nat) (k l : Nat) :
    ((dual v t).coord Reading.dual sizes k l).snd = t.coord Reading.exact sizes k l :=
  (get_dual h _).2

/-- Coordinates that do not vary have their values, -/
theorem fst_coord_const (w : Vec K) (sizes : List Nat) (k l : Nat) :
    ((w.map Dual.const).coord Reading.dual sizes k l).fst = w.coord Reading.exact sizes k l := by
  rw [coord_map_const]
  rfl

/-- and no tangents. -/
theorem snd_coord_const (w : Vec K) (sizes : List Nat) (k l : Nat) :
    ((w.map Dual.const).coord Reading.dual sizes k l).snd = 0 := by
  rw [coord_map_const]
  rfl

end Vec

/-- Vectors of one size and format make up a vector of dual numbers. -/
theorem Tensor.dual_toTensor {v t : Vec K} (hf : v.format.isFloating = true)
    (hformat : t.format = v.format) (hsize : t.size = v.size) :
    Tensor.dual v.toTensor t.toTensor = .ok (Vec.dual v t).toTensor := by
  have hsame : t.toTensor.format = v.toTensor.format := hformat
  have hshape : t.toTensor.shape = v.toTensor.shape := congrArg (fun n => [n]) hsize
  have hv : v.toTensor.format.isFloating = true := hf
  have hdata : List.zipWith Dual.varying v.entries t.entries = (Vec.dual v t).entries := by
    have hlen : v.entries.length = t.entries.length := hsize.symm
    refine List.ext_getElem ?_ fun i hi hi' => ?_
    · simp [Vec.dual, hlen]
    · have hit : i < t.entries.length := by
        rw [List.length_zipWith] at hi
        omega
      simp [Vec.dual, Vec.get, List.getD_eq_getElem?_getD, hit]
  -- none of the complaints about formats and shapes applies
  rw [Tensor.dual, hsame, hv, dif_pos hshape]
  simp only [Bool.not_true, Bool.or_self, Bool.false_eq_true, if_false, ne_eq, not_true_eq_false]
  refine congrArg Except.ok ?_
  rw [Tensor.mk.injEq]
  exact ⟨rfl, congrArg (fun n => [n]) (Vec.size_dual v t).symm, hdata⟩

namespace PlacedBlock
variable {v t : Vec K}

/-- What a block that does not vary adds to its row has the value of the plain block, -/
theorem fst_forward (h : t.size = v.size) (widths : List Nat) (l : Nat) (b : PlacedBlock K) :
    (b.toDual.forward Reading.dual widths (Vec.dual v t) l).fst =
      b.forward Reading.exact widths v l := by
  rw [forward, TrivSqZeroExt.fst_sum]
  apply Finset.sum_congr rfl
  intro a _
  rw [TrivSqZeroExt.fst_mul, Vec.fst_coord_dual h, toDual, Mat.get_map_const]
  rfl

/-- and moves by what the block makes of the direction. -/
theorem snd_forward (h : t.size = v.size) (widths : List Nat) (l : Nat) (b : PlacedBlock K) :
    (b.toDual.forward Reading.dual widths (Vec.dual v t) l).snd =
      b.forward Reading.exact widths t l := by
  rw [forward, TrivSqZeroExt.snd_sum]
  apply Finset.sum_congr rfl
  intro a _
  rw [DualNumber.snd_mul, Vec.snd_coord_dual h, toDual, Mat.get_map_const]
  change b.block.get l a * _ + 0 * _ = _
  rw [zero_mul, add_zero]
  rfl

/-- What a block that does not vary adds to its column moves with what it is multiplied by. -/
theorem snd_backward (heights : List Nat) (δ : Vec (Dual K)) (a : Nat) (b : PlacedBlock K) :
    (b.toDual.backward Reading.dual heights δ a).snd =
      ∑ l ∈ Finset.range b.block.rows,
        b.block.get l a * (δ.coord Reading.dual heights b.row l).snd := by
  rw [backward, TrivSqZeroExt.snd_sum]
  apply Finset.sum_congr rfl
  intro l _
  rw [DualNumber.snd_mul, toDual, Mat.get_map_const]
  change b.block.get l a * _ + 0 * _ = _
  rw [zero_mul, add_zero]

end PlacedBlock

/-! ## Models -/

namespace Model

variable {m : Model K} {ts : List (PlacedBlock K)}

/-- Velocities that fit a model fit it when they vary. -/
theorem Fits.dual {v : Vec K} (hv : m.Fits v) (t : Vec K) : m.toDual.Fits (Vec.dual v t) where
  size := by rw [Vec.size_dual, velocityCount_toDual, hv.size]
  format := hv.format

/-- The parts of a model fit together on dual numbers, too. -/
theorem WellFormed.toDual (h : m.WellFormed ts) :
    m.toDual.WellFormed (ts.map PlacedBlock.toDual) where
  floating := h.floating
  square A hA := by
    obtain ⟨B, hB, rfl⟩ := List.mem_map.mp hA
    exact h.square B hB
  dynamics_format A hA := by
    obtain ⟨B, hB, rfl⟩ := List.mem_map.mp hA
    exact h.dynamics_format B hB
  vStar_size := by
    rw [velocityCount_toDual, ← h.vStar_size]
    exact Vec.size_map _ _
  vStar_format := h.vStar_format
  pStar_size := by
    rw [velocityCount_toDual, ← h.pStar_size]
    exact Vec.size_map _ _
  pStar_format := h.pStar_format
  pStar_coord R _ φ k i hi := by
    rw [sizes_toDual] at hi ⊢
    have hcoord := h.pStar_coord R φ.const k i hi
    change (m.pStar.map Dual.const).coord φ m.sizes k i = ∑ j ∈ Finset.range (m.sizes.getD k 0),
      φ (entryOf (m.dynamics.map (Mat.map Dual.const)) k i j) *
        (m.vStar.map Dual.const).coord φ m.sizes k j
    -- the formula holds of every reading, so it does of the one of constants
    rw [Vec.coord_map_const, hcoord]
    apply Finset.sum_congr rfl
    intro j _
    rw [entryOf_map_const, Vec.coord_map_const, Reading.const_apply]
  lists := h.lists.toDual
  heights := by
    change m.stack.J.heights = (m.stack.members.map StackedConstraint.toDual).map (·.equations)
    rw [h.heights, List.map_map]
    rfl
  widths := by
    rw [sizes_toDual]
    exact h.widths
  block_format t ht := by
    obtain ⟨u, hu, rfl⟩ := List.mem_map.mp ht
    exact h.block_format u hu
  R_size := (Vec.size_map _ _).trans h.R_size
  R_format := h.R_format
  vHat_size := (Vec.size_map _ _).trans h.vHat_size
  vHat_format := h.vHat_format
  Rinv_size := (Vec.size_map _ _).trans h.Rinv_size
  Rinv_format := h.Rinv_format

end Model

end ConvexContact
