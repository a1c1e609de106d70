import ConvexContact.Text.Blank
import ConvexContact.Text.DecimalDigit

/-!
# Reading numerals

A numeral is an optional sign, digits with an optional point among them, and an optional power of
ten; single underscores may stand between digits. `Numeral.read?` takes one from the front of a
text, and `float?` and `int?` read a whole text, blanks around it apart and in the digits of any
script.
-/

namespace ConvexContact

/-- The number `± digits · 10 ^ exponent` as it was written. -/
structure Numeral where
  negative : Bool
  digits : Nat
  exponent : Int
  /-- whether it was written with neither point nor power -/
  whole : Bool
  deriving DecidableEq, Repr

namespace Numeral

/-- The digits at the front of a text and what follows them; an underscore between two digits is
skipped. -/
def digitRun (afterDigit : Bool) : List Char → List Char × List Char
  | [] => ([], [])
  | c :: rest =>
    if c.isDigit then
      let (digits, rest) := digitRun true rest
      (c :: digits, rest)
    else if afterDigit && c == '_' && rest.head?.any Char.isDigit then digitRun false rest
    else ([], c :: rest)

/-- The number that digits stand for. -/
def value (digits : List Char) : Nat :=
  digits.foldl (fun n c => 10 * n + (c.toNat - '0'.toNat)) 0

/-- A sign at the front of a text, and what follows it. -/
def sign : List Char → Bool × List Char
  | '-' :: rest => (true, rest)
  | '+' :: rest => (false, rest)
  | rest => (false, rest)

/-- A power of ten at the front of a text, and what follows it. -/
def power (cs : List Char) : Option Int × List Char :=
  match cs with
  | c :: rest =>
    if c == 'e' || c == 'E' then
      let (negative, afterSign) := sign rest
      let (digits, rest) := digitRun false afterSign
      if digits.isEmpty then (none, cs)
      else (some (if negative then -(value digits : Int) else value digits), rest)
    else (none, cs)
  | [] => (none, [])

/-- A point with the digits behind it at the front of a text, and what follows. -/
def fraction : List Char → Option (List Char) × List Char
  | '.' :: rest =>
    let (digits, rest) := digitRun false rest
    (some digits, rest)
  | rest => (none, rest)

/-- The numeral at the front of a text, and what follows it. -/
def read? (cs : List Char) : Option (Numeral × List Char) :=
  let (negative, afterSign) := sign cs
  let (front, afterFront) := digitRun false afterSign
  let (behind, afterBehind) := fraction afterFront
  let digits := front ++ behind.getD []
  if digits.isEmpty then none
  else
    let (e, rest) := power afterBehind
    some (⟨negative, value digits, e.getD 0 - (behind.getD []).length,
      behind.isNone && e.isNone⟩, rest)

/-- Ten to this power is above all machine numbers, and its inverse rounds to zero. -/
def powerLimit : Nat := 400

/-- The machine number nearest to a numeral. The power of ten is cut to a range outside of which the
answer is infinite or zero: digits that take `n` bits stand for less than `10 ^ n`. -/
def toFloat (n : Numeral) : Float :=
  let lowest : Int := -(n.digits.log2 + powerLimit : Nat)
  let e := max lowest (min powerLimit n.exponent)
  let x := Float.ofScientific n.digits (e < 0) e.natAbs
  if n.negative then -x else x

/-- The whole number that a numeral without point and power stands for. -/
def toInt (n : Numeral) : Int := if n.negative then -(n.digits : Int) else n.digits

/-- The characters of a numeral in a text: those between the blanks around it, with plain digits. -/
def characters (text : String) : List Char := (Text.trim text.toList).map Text.plainDigit

/-- The words for infinity and for what is not a number, in any case of letters. -/
def word? (cs : List Char) : Option Float :=
  let (negative, rest) := sign cs
  let x? : Option Float :=
    match String.ofList (rest.map Char.toLower) with
    | "inf" | "infinity" => some (1.0 / 0.0)
    | "nan" => some (0.0 / 0.0)
    | _ => none
  x?.map fun x => if negative then -x else x

/-- The machine number a text stands for. -/
def float? (text : String) : Option Float :=
  let cs := characters text
  match read? cs with
  | some (n, []) => some n.toFloat
  | _ => word? cs

/-- The most digits, leading zeros among them, that a whole number is written with. -/
def digitLimit : Nat := 4300

/-- The whole number a text stands for. -/
def int? (text : String) : Option Int :=
  let cs := characters text
  match read? cs with
  | some (n, []) =>
    if n.whole && cs.countP Char.isDigit ≤ digitLimit then some n.toInt else none
  | _ => none

example : read? ['-', '1', '2', '.', '5', 'e', '3', ','] = some (⟨true, 125, 2, false⟩, [',']) := by
  decide +kernel

example : read? ['1', '_', '0', '_'] = some (⟨false, 10, 0, true⟩, ['_']) := by
  decide +kernel

end Numeral

end ConvexContact
