/-!
# Decimal digits

Many scripts have ten decimal digits of their own, which always stand one after the other from zero
to nine. `zeros` lists where each ten begin, and `digit?` reads the value of a digit.
-/

namespace ConvexContact.Text

/-- The numbers of the characters for zero. -/
def zeros : List Nat :=
  [ 0x30, 0x660, 0x6F0, 0x7C0, 0x966, 0x9E6, 0xA66, 0xAE6, 0xB66, 0xBE6, 0xC66, 0xCE6, 0xD66,
    0xDE6, 0xE50, 0xED0, 0xF20, 0x1040, 0x1090, 0x17E0, 0x1810, 0x1946, 0x19D0, 0x1A80, 0x1A90,
    0x1B50, 0x1BB0, 0x1C40, 0x1C50, 0xA620, 0xA8D0, 0xA900, 0xA9D0, 0xA9F0, 0xAA50, 0xABF0, 0xFF10,
    0x104A0, 0x10D30, 0x11066, 0x110F0, 0x11136, 0x111D0, 0x112F0, 0x11450, 0x114D0, 0x11650,
    0x116C0, 0x11730, 0x118E0, 0x11950, 0x11C50, 0x11D50, 0x11DA0, 0x16A60, 0x16AC0, 0x16B50,
    0x1D7CE, 0x1D7D8, 0x1D7E2, 0x1D7EC, 0x1D7F6, 0x1E140, 0x1E2F0, 0x1E950, 0x1FBF0]

/-- The value of a decimal digit of any script. -/
def digit? (c : Char) : Option Nat :=
  (zeros.find? fun n => n ≤ c.toNat && c.toNat < n + 10).map (c.toNat - ·)

/-- A character with a decimal digit of another script replaced by the plain one. -/
def plainDigit (c : Char) : Char :=
  if c.toNat < 128 then c
  else
    match digit? c with
    | some d => d.digitChar
    | none => c

example : zeros.length = 66 := by decide +kernel

example : (List.range 10).map (fun d => digit? d.digitChar) = (List.range 10).map some := by
  decide +kernel

/-- Plain characters stay as they are. -/
theorem plainDigit_of_lt {c : Char} (h : c.toNat < 128) : plainDigit c = c := by
  simp [plainDigit, h]

end ConvexContact.Text
