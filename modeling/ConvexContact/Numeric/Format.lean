/-!
# Number formats

The entries of a tensor are all stored in one format. Two facts about formats decide every mixed
operation of the library:

* `Format.join` — the format of an elementwise combination of two tensors: the wider of the two.
* `Format.real` — the format in which a plain real number meets a tensor: the tensor's own format
  when it is a floating one, single precision otherwise.
-/

namespace ConvexContact

/-- How the entries of a tensor are stored, from the narrowest format to the widest. -/
inductive Format where
  | boolean
  | integer
  | single
  | double
  deriving DecidableEq, Repr, Inhabited

namespace Format

/-- The place of a format in the order of widening. -/
def width : Format → Nat
  | boolean => 0
  | integer => 1
  | single => 2
  | double => 3

/-- Whether a format holds fractions. -/
def isFloating : Format → Bool
  | single | double => true
  | boolean | integer => false

/-- The kind of number a format holds: truth values, whole numbers, fractions. -/
def kind : Format → Nat
  | boolean => 0
  | integer => 1
  | single | double => 2

/-- The wider of two formats. -/
def join (a b : Format) : Format :=
  if a.width ≤ b.width then b else a

/-- The format in which a plain real number is combined with a tensor of format `a`. -/
def real (a : Format) : Format :=
  if a.isFloating then a else single

@[simp] theorem join_self (a : Format) : a.join a = a := by
  cases a <;> rfl

theorem join_comm (a b : Format) : a.join b = b.join a := by
  cases a <;> cases b <;> rfl

theorem join_assoc (a b c : Format) : (a.join b).join c = a.join (b.join c) := by
  cases a <;> cases b <;> cases c <;> rfl

@[simp] theorem real_double : real double = double := rfl

@[simp] theorem real_single : real single = single := rfl

/-- Next to a plain real number a tensor of any format holds fractions. -/
theorem isFloating_join_real (a b : Format) : (a.join b.real).isFloating = true := by
  cases a <;> cases b <;> rfl

end Format

end ConvexContact
