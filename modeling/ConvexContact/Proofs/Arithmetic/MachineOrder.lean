import Mathlib.Data.Prod.Lex
import Mathlib.Order.Compare
import ConvexContact.Numeric.Number

/-!
# The order of machine numbers

Two machine numbers are compared by their signs, their exponents and their mantissas, in this order,
and the greater exponent is the lesser number where both are negative. So apart from what is no
number they are ordered like triples of whole numbers (`machineRank`, `lt_iff_machineRank_lt`), and
`<` has the laws of a linear order, with both zeros in one place.

What is no number is less than nothing and nothing is less than it, so it has no place among the
others. Every statement of this module leaves it out.
-/

namespace ConvexContact

open Float.Model

/-- The place of a machine number: its side of zero, and on each side the exponent before the
mantissa. Infinities stand outside of all others. -/
def machineRank : UnpackedFloat → ℤ ×ₗ ℤ ×ₗ ℤ
  | .notANumber => toLex (0, toLex (0, 0))
  | .infinity .negative => toLex (-2, toLex (0, 0))
  | .finite .negative mantissa exponent _ => toLex (-1, toLex (-exponent, -mantissa))
  | .zero _ => toLex (0, toLex (0, 0))
  | .finite .positive mantissa exponent _ => toLex (1, toLex (exponent, mantissa))
  | .infinity .positive => toLex (2, toLex (0, 0))

/-- Numbers are compared as their places are. -/
theorem lt_iff_machineRank_lt {a b : UnpackedFloat} (ha : a.isNaN = false) (hb : b.isNaN = false) :
    a.lt b = true ↔ machineRank a < machineRank b := by
  have hsign : compare UnpackedFloat.Sign.negative .positive = .lt := rfl
  -- signs decide, except on one side of zero, where exponents and then mantissas are compared
  cases a with
  | notANumber => cases ha
  | infinity s | finite s _ _ _ =>
    cases b with
    | notANumber => cases hb
    | zero _ =>
      cases s <;> dsimp only [UnpackedFloat.lt, UnpackedFloat.compare, machineRank] <;>
        simp [Prod.Lex.toLex_lt_toLex]
    | infinity t | finite t _ _ _ =>
      cases s <;> cases t <;> dsimp only [UnpackedFloat.lt, UnpackedFloat.compare, machineRank] <;>
        simp [hsign, Prod.Lex.toLex_lt_toLex, Ordering.then_eq_lt, Ordering.swap_eq_lt,
          Ordering.then_eq_gt, compare_lt_iff_lt, compare_gt_iff_gt]
  | zero _ =>
    cases b with
    | notANumber => cases hb
    | zero _ =>
      dsimp only [UnpackedFloat.lt, UnpackedFloat.compare, machineRank]
      simp
    | infinity t | finite t _ _ _ =>
      cases t <;> dsimp only [UnpackedFloat.lt, UnpackedFloat.compare, machineRank] <;>
        simp [Prod.Lex.toLex_lt_toLex]

/-- The comparison of two stored fractions is that of their places. -/
theorem Number.lt_float_iff {x y : Float} (hx : x.isNaN = false) (hy : y.isNaN = false) :
    Arith.lt (Number.float x) (Number.float y) = true ↔
      machineRank x.toModel.unpack < machineRank y.toModel.unpack := by
  refine Iff.trans ?_ (lt_iff_machineRank_lt hx hy)
  change decide (decide (x.toModel.unpack.lt y.toModel.unpack = true) = true) = true ↔ _
  rw [decide_eq_true_iff, decide_eq_true_iff]

end ConvexContact
