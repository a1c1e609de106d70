import ConvexContact.Decimal.Binary
import ConvexContact.Numeric.Arith

/-!
# Stored numbers

The entries of the tensors the program runs on: a machine floating-point number, or a whole number
for the integer and boolean formats. `Number.cast` says how an entry moves from one format to
another; the arithmetic of two whole numbers stays within 64 bits, and any other arithmetic is done
on floating-point numbers.
-/

namespace ConvexContact

/-- An entry of a tensor. -/
inductive Number where
  | float (x : Float)
  | int (n : Int)

namespace Number

/-- The floating-point number nearest to an entry. -/
def toFloat : Number → Float
  | float x => x
  | int n => Float.ofInt n

/-- The representative of a whole number among the signed 64-bit numbers. -/
def wrap (n : Int) : Int := Int.bmod n (Nat.pow 2 64)

/-- The least signed 64-bit number, which stands for everything that has no whole part in range. -/
def outOfRange : Int := -(Int.pow 2 63)

/-- The whole part of an entry as a signed 64-bit number. -/
def toInteger : Number → Int
  | int n => n
  | float x =>
    match (BinaryValue.ofFloat x).truncate? with
    | some n => if -(Int.pow 2 63) ≤ n ∧ n < Int.pow 2 63 then n else outOfRange
    | none => outOfRange

/-- Whether an entry is zero. -/
def isZero : Number → Bool
  | int n => n == 0
  | float x => x == 0

/-- Stores an entry in a format. -/
def cast : Format → Number → Number
  | .double, x => float x.toFloat
  | .single, float x => float x.toFloat32.toFloat
  | .single, int n => float (Float32.ofInt n).toFloat
  | .integer, x => int x.toInteger
  | .boolean, x => int (if x.isZero then 0 else 1)

/-- Combines two entries: whole numbers by `onInt`, within 64 bits, all others by `onFloat`. -/
def combine (onInt : Int → Int → Int) (onFloat : Float → Float → Float) : Number → Number → Number
  | int m, int n => int (wrap (onInt m n))
  | a, b => float (onFloat a.toFloat b.toFloat)

/-- Compares two entries: whole numbers by `onInt`, all others by `onFloat`. -/
def compareWith (onInt : Int → Int → Bool) (onFloat : Float → Float → Bool) :
    Number → Number → Bool
  | int m, int n => onInt m n
  | a, b => onFloat a.toFloat b.toFloat

/-- Negation of an entry. -/
def negate : Number → Number
  | int n => int (wrap (-n))
  | float x => float (-x)

/-- The largest finite number in single precision, `(2²⁴ - 1)·2¹⁰⁴`. -/
def singleMax : Float := 3.4028234663852886e38

/-- Whether an entry lies in the range of a format. Infinities and what is not a number belong to
the floating formats only. -/
def fits : Format → Number → Bool
  | .boolean, _ => true
  | .integer, int n => decide (-(Int.pow 2 63) ≤ n ∧ n < Int.pow 2 63)
  | .integer, float x => decide (-9223372036854775808.0 ≤ x) && decide (x < 9223372036854775808.0)
  | .single, x => !x.toFloat.isFinite || decide (x.toFloat.abs ≤ singleMax)
  | .double, int n => (Float.ofInt n).isFinite
  | .double, float _ => true

instance : Arith Number where
  zero := int 0
  one := int 1
  add := combine (· + ·) (· + ·)
  sub := combine (· - ·) (· - ·)
  neg := negate
  mul := combine (· * ·) (· * ·)
  div a b := float (a.toFloat / b.toFloat)
  natCast n := int n
  sqrt a := float a.toFloat.sqrt
  lt := compareWith (fun m n => decide (m < n)) (fun x y => decide (x < y))
  le := compareWith (fun m n => decide (m ≤ n)) (fun x y => decide (x ≤ y))
  mayBeLess := compareWith (fun m n => decide (m < n)) (fun x y => decide (x ≤ y))
  cast := cast
  fits := fits
  alongside _ b := b

@[simp] theorem cast_double_float (x : Float) : cast .double (float x) = float x := rfl

@[simp] theorem cast_integer_int (n : Int) : cast .integer (int n) = int n := rfl

end Number

end ConvexContact
