import ConvexContact.Error

/-!
# Operations that may be refused

Not every number can be stored in every format, and truth values cannot be subtracted. This module
holds the operations on numbers, vectors and tensors that answer with the cause when they are
refused.
-/

namespace ConvexContact

variable {K : Type}

/-- The tensor handed over where nested lists are refused. -/
def Given.asTensor : Given K → Except (Error K) (Tensor K)
  | .tensor t => .ok t
  | .nested _ => .error .notATensor

/-- The tensor handed over as an operand of arithmetic, which nested lists are not. -/
def Given.asOperand : Given K → Except (Error K) (Tensor K)
  | .tensor t => .ok t
  | .nested _ => .error .notANumber

/-- Whether a tensor of a given shape can be set up: an axis has at most 63 bits, and the entries
have to be held. -/
def checkShape (shape : List Nat) : Except (Error K) Unit :=
  if shape.any (Nat.pow 2 63 ≤ ·) then .error .hugeAxis
  else if Nat.pow 2 33 ≤ Shape.size shape then .error .hugeTensor
  else .ok ()

theorem checkShape_eq_ok {shape : List Nat} : (checkShape shape : Except (Error K) Unit) = .ok () ↔
    (∀ n ∈ shape, n < Nat.pow 2 63) ∧ Shape.size shape < Nat.pow 2 33 := by
  unfold checkShape
  by_cases haxes : shape.any (Nat.pow 2 63 ≤ ·) = true
  · rw [if_pos haxes]
    obtain ⟨n, hn, hwide⟩ := List.any_eq_true.mp haxes
    have hwide : Nat.pow 2 63 ≤ n := of_decide_eq_true hwide
    exact iff_of_false (fun h => by cases h) fun h => absurd (h.1 n hn) (Nat.not_lt.mpr hwide)
  · rw [if_neg haxes]
    have haxes : ∀ n ∈ shape, n < Nat.pow 2 63 := fun n hn =>
      Nat.lt_of_not_le fun hwide => haxes (List.any_eq_true.mpr ⟨n, hn, decide_eq_true hwide⟩)
    split
    · rename_i hlarge
      exact iff_of_false (fun h => by cases h) fun h => absurd h.2 (Nat.not_lt.mpr hlarge)
    · rename_i hsmall
      exact iff_of_true rfl ⟨haxes, Nat.lt_of_not_le hsmall⟩

variable [Arith K]

/-- The tensor handed over, stored in the format of its destination. -/
def Given.stored (f : Format) (g : Given K) : Except (Error K) (Tensor K) :=
  if g.fits f then .ok (g.toFormat f) else .error .outOfFormat

namespace Scalar

/-- Whether a whole number is a signed one of 64 bits; other numbers have no such bound. -/
def isNarrow (s : Scalar K) : Bool := s.format != .integer || Arith.fits .integer s.value

/-- Whether a whole number is an unsigned one of 64 bits. -/
def isUnsigned (s : Scalar K) : Bool :=
  Arith.le 0 s.value && Arith.lt s.value ((Nat.pow 2 64 : Nat) : K)

/-- A number that can be an entry, whatever the format of the tensor. -/
def asEntry (s : Scalar K) : Except (Error K) (Scalar K) :=
  if s.isNarrow then .ok s else .error .wideEntry

/-- A number stored as the entry of a tensor in format `f`. -/
def stored (f : Format) (s : Scalar K) : Except (Error K) K := do
  let s ← s.asEntry
  if Arith.fits f s.value then return Arith.cast f s.value else .error .outOfFormat

/-- A number as the factor of a tensor; a whole one may be signed or unsigned. -/
def asFactor (s : Scalar K) : Except (Error K) K :=
  if s.isNarrow || s.isUnsigned then .ok s.value else .error .wideFactor

/-- A number in double precision. -/
def toDouble (s : Scalar K) : Except (Error K) K :=
  if Arith.fits .double s.value then .ok (Arith.cast .double s.value) else .error .wideFactor

end Scalar

namespace Vec

/-- The difference of two vectors of numbers. -/
def difference (a b : Vec K) : Except (Error K) (Vec K) :=
  match a.sub? b with
  | some d => .ok d
  | none => .error .notNumeric

/-- The negative of a vector of numbers. -/
def opposite (v : Vec K) : Except (Error K) (Vec K) :=
  match v.neg? with
  | some w => .ok w
  | none => .error .notNumeric

theorem difference_of_numeric {a b : Vec K} (ha : a.format ≠ .boolean) (hb : b.format ≠ .boolean) :
    a.difference b = .ok (a.sub b) := by
  simp [difference, sub?, ha, hb]

end Vec

end ConvexContact
