/-!
# JSON values

A JSON value keeps whole numbers apart from fractions, and an object keeps its members in the order
in which they were written. Of two members with one name the first keeps its place and the last its
value.
-/

namespace ConvexContact

/-- A JSON value. -/
inductive Json where
  | null
  | bool (b : Bool)
  | int (n : Int)
  | float (x : Float)
  | string (s : String)
  | array (items : List Json)
  | object (members : List (String × Json))
  deriving Inhabited

namespace Json

/-- Puts a member into an object: in place of one with the same name, else at the end. -/
def assign {α : Type} (name : String) (value : α) : List (String × α) → List (String × α)
  | [] => [(name, value)]
  | (n, v) :: rest => if n = name then (n, value) :: rest else (n, v) :: assign name value rest

/-- The object with the given members, written one after the other. -/
def assignAll {α : Type} (members : List (String × α)) : List (String × α) :=
  members.foldl (fun object (name, value) => assign name value object) []

/-- The member of an object with a given name. -/
def member? (name : String) : Json → Option Json
  | object members => members.lookup name
  | _ => none

/-- Whether a value is nothing. -/
def isNull : Json → Bool
  | null => true
  | _ => false

/-- The number a value is, whole numbers and truth values included. -/
def number? : Json → Option Float
  | float x => some x
  | int n => some (Float.ofInt n)
  | bool b => some (if b then 1 else 0)
  | _ => none

theorem lookup_assign_self {α : Type} (name : String) (value : α) (members : List (String × α)) :
    (assign name value members).lookup name = some value := by
  induction members with
  | nil => simp [assign]
  | cons m rest ih =>
    obtain ⟨n, v⟩ := m
    by_cases h : n = name
    · simp [assign, h]
    · simp [assign, h, List.lookup_cons, beq_eq_false_iff_ne.mpr (Ne.symm h), ih]

end Json

end ConvexContact
