import Mathlib.Algebra.Order.Field.Basic
import Mathlib.Analysis.Real.Sqrt
import ConvexContact.Numeric.Arith

/-!
# Exact arithmetic

In an ordered field nothing is rounded: storing a number in a format leaves it as it is, and the
comparisons are those of the field. `ExactField` is an ordered field with a square root, of which
nothing is assumed here; on the real numbers it is the real one. The rational numbers are there to
compute with.

The operations of `Arith` are those of the field. The lemmas of this module rewrite the operations
that take a format into those that do not.
-/

namespace ConvexContact

/-- An ordered field with a square root. -/
class ExactField (K : Type) extends Field K, LinearOrder K, IsStrictOrderedRing K where
  /-- square root -/
  root : K → K

noncomputable instance : ExactField ℝ where
  root := Real.sqrt

/-- The root of a fraction in lowest terms that is a square; other fractions have none. -/
def rationalRoot (x : ℚ) : ℚ :=
  let root (n : ℕ) : ℕ := ((List.range (n + 1)).find? fun k => k * k = n).getD 0
  root x.num.toNat / root x.den

instance : ExactField ℚ where
  root := rationalRoot

/-- An exact field as a kind of number. A format changes nothing, every number fits into each of
them, and a number that stands next to another is not marked by it. -/
instance ExactField.toArith {K : Type} [ExactField K] : Arith K where
  sqrt := ExactField.root
  lt a b := decide (a < b)
  le a b := decide (a ≤ b)
  mayBeLess a b := decide (a < b)
  cast _ a := a
  fits _ _ := true
  alongside _ b := b

namespace Arith

variable {K : Type} [ExactField K]

/-- Comparisons answer with a truth value, which is that of the order of the field. -/
@[simp] theorem lt_eq_true_iff {a b : K} : lt a b = true ↔ a < b := decide_eq_true_iff

@[simp] theorem le_eq_true_iff {a b : K} : le a b = true ↔ a ≤ b := decide_eq_true_iff

@[simp] theorem mayBeLess_eq_true_iff {a b : K} : mayBeLess a b = true ↔ a < b :=
  decide_eq_true_iff

@[simp] theorem cast_exact (f : Format) (a : K) : cast f a = a := rfl

@[simp] theorem fits_exact (f : Format) (a : K) : fits f a = true := rfl

@[simp] theorem alongside_exact (a b : K) : alongside a b = b := rfl

@[simp] theorem addIn_exact (f : Format) (a b : K) : addIn f a b = a + b := rfl

@[simp] theorem subIn_exact (f : Format) (a b : K) : subIn f a b = a - b := rfl

@[simp] theorem mulIn_exact (f : Format) (a b : K) : mulIn f a b = a * b := rfl

@[simp] theorem divIn_exact (f : Format) (a b : K) : divIn f a b = a / b := rfl

/-- Absolute values are those of the field. -/
theorem abs_exact (a : K) : abs a = |a| := by
  rw [abs]
  by_cases ha : a < 0
  · rw [if_pos (lt_eq_true_iff.mpr ha), abs_of_neg ha]
  · rw [if_neg (fun h => ha (lt_eq_true_iff.mp h)), abs_of_nonneg (not_lt.mp ha)]

/-- One half is the half of one. -/
theorem half_exact : (half : K) = 1 / 2 := by
  change (1 : K) / ((2 : ℕ) : K) = 1 / 2
  norm_num

end Arith

end ConvexContact
