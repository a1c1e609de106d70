/-!
# Binary fractions

The exact value of a finite binary floating-point number, as a sign, a whole mantissa and a power
of two. Everything that must be exact about machine numbers (text, comparison with whole numbers,
truncation) starts from this value and continues in whole-number arithmetic.
-/

namespace ConvexContact

/-- A machine number taken apart. A finite one is `± mantissa · 2 ^ exponent`. -/
inductive BinaryValue where
  | nan
  | infinite (negative : Bool)
  | finite (negative : Bool) (mantissa : Nat) (exponent : Int)
  deriving DecidableEq, Repr

namespace BinaryValue

/-- Reads the sign, exponent and fraction fields of the 64-bit encoding. -/
def ofBits (bits : Nat) : BinaryValue :=
  let negative := bits / Nat.pow 2 63 % 2 == 1
  let biased := bits / Nat.pow 2 52 % Nat.pow 2 11
  let fraction := bits % Nat.pow 2 52
  if biased == 2047 then
    if fraction == 0 then infinite negative else nan
  else if biased == 0 then finite negative fraction (-1074)
  else finite negative (fraction + Nat.pow 2 52) (Int.ofNat biased - 1075)

/-- The exact value of a machine number. -/
def ofFloat (x : Float) : BinaryValue := ofBits x.toBits.toNat

/-- `mantissa · 2 ^ exponent` as a quotient of whole numbers. -/
def quotient (mantissa : Nat) (exponent : Int) : Nat × Nat :=
  if 0 ≤ exponent then (mantissa * Nat.pow 2 exponent.toNat, 1)
  else (mantissa, Nat.pow 2 (-exponent).toNat)

/-- The whole part of a finite number, toward zero. -/
def truncate? : BinaryValue → Option Int
  | finite negative mantissa exponent =>
    let (num, den) := quotient mantissa exponent
    let whole := Int.ofNat (num / den)
    some (if negative then -whole else whole)
  | _ => none

/-- The whole number equal to a machine number, if there is one. -/
def whole? : BinaryValue → Option Int
  | finite negative mantissa exponent =>
    let (num, den) := quotient mantissa exponent
    if num % den == 0 then
      let whole := Int.ofNat (num / den)
      some (if negative then -whole else whole)
    else none
  | _ => none

/-- A truncated number is the whole number it equals, when it equals one. -/
theorem truncate?_of_whole? {b : BinaryValue} {n : Int} (h : b.whole? = some n) :
    b.truncate? = some n := by
  cases b with
  | nan => simp [whole?] at h
  | infinite s => simp [whole?] at h
  | finite s m e =>
    simp only [whole?, truncate?] at *
    split at h
    · exact h
    · simp at h

end BinaryValue

end ConvexContact
