import ConvexContact.Numeric.Format

/-!
# Arithmetic

All numerical definitions of the library are written once, over the operations of `Arith K`. The
class states operations and no laws, so one definition serves

* stored machine numbers, where every operation is followed by a rounding to the tensor's format;
* exact ordered fields, where `cast` between floating formats does nothing;
* dual numbers over either, where the same run also carries a derivative.

Sums are left folds in the order of the entries.
-/

namespace ConvexContact

/-- The operations the library computes with. `lt`, `le` and `mayBeLess` are the tests the program
branches on; `cast f x` is `x` stored in format `f`. -/
class Arith (K : Type) extends Zero K, One K, Add K, Sub K, Neg K, Mul K, Div K, NatCast K where
  /-- square root -/
  sqrt : K → K
  /-- strict comparison -/
  lt : K → K → Bool
  /-- weak comparison -/
  le : K → K → Bool
  /-- whether the first number may stand for one less than the second: besides the lesser numbers,
  an equal one that may be what rounding has left of one -/
  mayBeLess : K → K → Bool
  /-- storing a number in a format -/
  cast : Format → K → K
  /-- the product of two numbers stored in a format; derivatives have roundings of their own -/
  mulIn : Format → K → K → K := fun f a b => cast f (a * b)
  /-- whether a number lies in the range of a format -/
  fits : Format → K → Bool
  /-- the second number, which counts as varying where the first one varies -/
  alongside : K → K → K

namespace Arith

variable {K : Type} [Arith K]

/-- One half. -/
def half : K := 1 / ((2 : Nat) : K)

/-- The number `10⁻ⁿ`. -/
def tenth (n : Nat) : K := 1 / ((Nat.pow 10 n : Nat) : K)

/-- What a computation without an answer yields; where numbers can be unordered, it is unordered
with every number. -/
def undefined : K := 0 / 0

/-- Equality as the comparisons see it; a number that is unordered with itself is not equal to
itself. -/
def eq (a b : K) : Bool := le a b && le b a

/-- Absolute value. -/
def abs (a : K) : K := if lt a 0 then -a else a

/-- Whether a number is finite: the difference of a finite number with itself is zero. -/
def isFinite (a : K) : Bool := eq (a - a) 0

/-- The larger of two numbers; when they are unordered, so is the answer. -/
def larger (a b : K) : K :=
  if lt a b then b else if le b a then a else a + b

/-- Sum of two numbers stored in format `f`. -/
def addIn (f : Format) (a b : K) : K := cast f (a + b)

/-- Difference of two numbers stored in format `f`. -/
def subIn (f : Format) (a b : K) : K := cast f (a - b)

/-- Quotient of two numbers stored in format `f`. -/
def divIn (f : Format) (a b : K) : K := cast f (a / b)

/-- The sum of a list from the left, each partial sum stored in format `f`. -/
def sum (f : Format) (xs : List K) : K := xs.foldl (addIn f) 0

/-- A summand of an inner product in format `f`: if one of the factors varies, both count as
varying. -/
def term (f : Format) (a b : K) : K := mulIn f (alongside b a) (alongside a b)

/-- The inner product of two lists in format `f`. -/
def dot (f : Format) (xs ys : List K) : K := sum f (List.zipWith (term f) xs ys)

/-- The Euclidean length of a list in format `f`. The length of a single number is its absolute
value, which is never too large or too small for the format. -/
def norm (f : Format) : List K → K
  | [x] => cast f (abs x)
  | xs => cast f (sqrt (dot f xs xs))

@[simp] theorem sum_nil (f : Format) : sum f ([] : List K) = 0 := rfl

theorem sum_append_singleton (f : Format) (xs : List K) (x : K) :
    sum f (xs ++ [x]) = addIn f (sum f xs) x := by
  simp [sum]

end Arith

end ConvexContact
