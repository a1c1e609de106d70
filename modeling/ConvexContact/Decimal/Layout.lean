import ConvexContact.Decimal.Shortest

/-!
# Text of a machine number

`Layout` is the record of all the decisions in writing a decimal: between which powers of ten it is
written without an exponent, how many digits an exponent has at least, and the words for what is not
a number. `Layout.plain` is the layout of the program's own texts, `Layout.json` the one of its
files, and `Layout.text` writes the shortest decimal that reads back.
-/

namespace ConvexContact

/-- How a decimal is laid out. -/
structure Layout where
  /-- the least power of ten of a leading digit written without an exponent -/
  lowest : Int
  /-- the least power of ten of a leading digit written with an exponent again -/
  highest : Int
  /-- how many digits an exponent has at least -/
  exponentDigits : Nat
  /-- the word for what is not a number -/
  nan : String
  /-- the word for infinity -/
  infinity : String

namespace Layout

/-- Numbers stand without an exponent from `0.0001` to below `10 ^ 16`, and exponents have two
digits at least. -/
def plain : Layout := ⟨-4, 16, 2, "nan", "inf"⟩

/-- The same layout with the words that JSON files use. -/
def json : Layout := { plain with nan := "NaN", infinity := "Infinity" }

/-- Pads digits on the left with zeros. -/
def padLeft (n : Nat) (cs : List Char) : List Char :=
  List.replicate (n - cs.length) '0' ++ cs

/-- Digits with the point after the one of power zero; `lead` is the power of the first. -/
def positional (lead : Int) (digits : List Char) : List Char :=
  if 0 ≤ lead then
    let n := lead.toNat + 1
    let padded := digits ++ List.replicate (n - digits.length) '0'
    let fraction := padded.drop n
    padded.take n ++ '.' :: (if fraction.isEmpty then ['0'] else fraction)
  else '0' :: '.' :: List.replicate ((-lead).toNat - 1) '0' ++ digits

/-- Digits with the point after the first, and the power of ten behind. -/
def scientific (l : Layout) (lead : Int) (digits : List Char) : List Char :=
  let fraction := digits.drop 1
  let power := padLeft l.exponentDigits (Nat.toDigits 10 lead.natAbs)
  digits.take 1 ++ (if fraction.isEmpty then [] else '.' :: fraction) ++
    'e' :: (if lead < 0 then '-' else '+') :: power

/-- A positive decimal. -/
def decimal (l : Layout) (d : Decimal) : List Char :=
  let lead := d.leadingExponent
  if l.lowest ≤ lead ∧ lead < l.highest then positional lead d.digitText
  else l.scientific lead d.digitText

/-- Puts a minus sign in front of what is negative. -/
def signed (negative : Bool) (cs : List Char) : List Char :=
  if negative then '-' :: cs else cs

/-- The shortest text that reads back as the number. -/
def ofBinary (l : Layout) : BinaryValue → List Char
  | .nan => l.nan.toList
  | .infinite negative => signed negative l.infinity.toList
  | .finite negative mantissa exponent =>
    signed negative
      (if mantissa = 0 then ['0', '.', '0'] else l.decimal (Decimal.shortest mantissa exponent))

/-- The text of a machine number. -/
def text (l : Layout) (x : Float) : String := String.ofList (l.ofBinary (BinaryValue.ofFloat x))

example : plain.ofBinary (.finite false (2 ^ 52) (-52)) = ['1', '.', '0'] := by decide +kernel

example : plain.ofBinary (.finite true 0 0) = ['-', '0', '.', '0'] := by decide +kernel

example : plain.ofBinary (.finite false (2 ^ 52) (-56)) = ['0', '.', '0', '6', '2', '5'] := by
  decide +kernel

end Layout

end ConvexContact
