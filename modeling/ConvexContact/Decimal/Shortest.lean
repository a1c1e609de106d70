import ConvexContact.Decimal.Binary

/-!
# Decimals of a positive binary fraction

Two decimals stand for a positive number `num / den`:

* `Decimal.rounded` — the one with a given count of significant digits that is nearest to it, a half
  going to the even digit;
* `Decimal.shortest` — the one with the fewest digits among the decimals that the format reads back
  as the same machine number, and of those with that many digits the nearest.

Both work in exact whole-number arithmetic: the numbers that read back as a machine number fill an
interval around it, and a grid of decimals meets that interval exactly if one of the two grid points
next to the machine number lies in it.
-/

namespace ConvexContact

/-- The number `digits · 10 ^ exponent`. -/
structure Decimal where
  digits : Nat
  exponent : Int
  deriving DecidableEq, Repr, Inhabited

namespace Decimal

/-- How many decimal digits a positive whole number has. -/
def digitCount (n : Nat) : Nat := (Nat.toDigits 10 n).length

/-- The least `k` with `num / den < 10 ^ k`, for positive `num` and `den`. -/
def magnitude (num den : Nat) : Int :=
  if den ≤ num then Int.ofNat (digitCount (num / den))
  else
    let j := digitCount (den / num)
    if den ≤ num * Nat.pow 10 (j - 1) then 1 - Int.ofNat (j - 1) else 1 - Int.ofNat j

/-- The quotient `num / (den · 10 ^ e)` as a pair of whole numbers. -/
def scaled (num den : Nat) (e : Int) : Nat × Nat :=
  if 0 ≤ e then (num, den * Nat.pow 10 e.toNat) else (num * Nat.pow 10 (-e).toNat, den)

/-- Rounds a quotient to the nearest whole number, a half to the even one. -/
def roundHalfEven (num den : Nat) : Nat :=
  let q := num / den
  let twice := 2 * (num % den)
  if twice < den then q
  else if den < twice then q + 1
  else if q % 2 == 0 then q else q + 1

/-- The decimal with `n` significant digits nearest to `num / den`. -/
def rounded (n : Nat) (num den : Nat) : Decimal :=
  let e := magnitude num den - Int.ofNat n
  let (a, b) := scaled num den e
  ⟨roundHalfEven a b, e⟩

/-- Drops trailing zeros of the digits, `fuel` of them at most. -/
def strip : Nat → Decimal → Decimal
  | 0, d => d
  | fuel + 1, d =>
    if d.digits ≠ 0 ∧ d.digits % 10 == 0 then strip fuel ⟨d.digits / 10, d.exponent + 1⟩ else d

/-- An interval of numbers around a machine number, in units of one quarter of its last place. -/
structure Neighbourhood where
  /-- the lower end, in quarters -/
  low : Nat
  /-- the upper end, in quarters -/
  high : Nat
  /-- whether the ends belong to the interval -/
  closed : Bool

/-- The numbers that read back as `mantissa · 2 ^ exponent`. Below a power of two the next machine
number is only half as far away, and the ends read back exactly for an even mantissa. -/
def Neighbourhood.around (mantissa : Nat) (exponent : Int) : Neighbourhood where
  low := if mantissa = Nat.pow 2 52 ∧ -1074 < exponent then 4 * mantissa - 1 else 4 * mantissa - 2
  high := 4 * mantissa + 2
  closed := mantissa % 2 == 0

/-- Whether `a / b` quarters lie in the interval. -/
def Neighbourhood.holds (i : Neighbourhood) (a b : Nat) : Bool :=
  if i.closed then i.low * b ≤ a && a ≤ i.high * b else i.low * b < a && a < i.high * b

/-- The grid point with `n` digits that reads back as `mantissa · 2 ^ exponent`, if there is one: of
the two next to it the nearer, and the even one when both are equally near. -/
def readsBack? (n mantissa : Nat) (exponent : Int) : Option Decimal :=
  let (num, den) := BinaryValue.quotient mantissa exponent
  let (quarter, unit) := BinaryValue.quotient 1 (exponent - 2)
  let e := magnitude num den - Int.ofNat n
  let (a, b) := scaled num den e
  let q := a / b
  -- a grid point `p · 10 ^ e` measured in quarters of the last place
  let quarters (p : Nat) : Nat × Nat :=
    if 0 ≤ e then (p * Nat.pow 10 e.toNat * unit, quarter)
    else (p * unit, quarter * Nat.pow 10 (-e).toNat)
  let near := Neighbourhood.around mantissa exponent
  let hit (p : Nat) : Bool := p != 0 && near.holds (quarters p).1 (quarters p).2
  match hit q, hit (q + 1) with
  | true, true => some ⟨roundHalfEven a b, e⟩
  | true, false => some ⟨q, e⟩
  | false, true => some ⟨q + 1, e⟩
  | false, false => none

/-- The shortest decimal that reads back as the positive number `mantissa · 2 ^ exponent`.
Seventeen digits always suffice. -/
def shortest (mantissa : Nat) (exponent : Int) : Decimal :=
  let found := (List.range 17).findSome? fun n => readsBack? (n + 1) mantissa exponent
  strip 400 (found.getD
    (let (num, den) := BinaryValue.quotient mantissa exponent; rounded 17 num den))

/-- The digits as text. -/
def digitText (d : Decimal) : List Char := Nat.toDigits 10 d.digits

/-- The power of ten of the leading digit. -/
def leadingExponent (d : Decimal) : Int :=
  d.exponent + Int.ofNat (digitCount d.digits) - 1

/-- Rounding to the nearest is off by at most half a unit. -/
theorem roundHalfEven_near (num : Nat) {den : Nat} (hden : 0 < den) :
    2 * (roundHalfEven num den * den) ≤ 2 * num + den ∧
      2 * num ≤ 2 * (roundHalfEven num den * den) + den := by
  have h : num / den * den + num % den = num := Nat.div_add_mod' num den
  have hs : (num / den + 1) * den = num / den * den + den := Nat.succ_mul _ _
  have hr : num % den < den := Nat.mod_lt _ hden
  simp only [roundHalfEven]
  split
  · omega
  · split
    · omega
    · split <;> omega

end Decimal

end ConvexContact
