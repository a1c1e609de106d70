import ConvexContact.Decimal.Layout

/-!
# Keys of tables

A table is keyed by texts, numbers, truth values or nothing. Numbers and truth values are one key
when they are equal as numbers, whatever they are written as. Assigning to a key that is there keeps
the place and the form of the key and replaces the value.
-/

namespace ConvexContact

/-- A key of a table. -/
inductive Key where
  | string (s : String)
  | int (n : Int)
  | float (x : Float)
  | bool (b : Bool)
  | null

namespace Key

/-- The text of a key. -/
def text : Key → String
  | string s => s
  | int n => toString n
  | float x => Layout.plain.text x
  | bool b => if b then "True" else "False"
  | null => "None"

/-- The whole number a key is equal to, if there is one. -/
def whole? : Key → Option Int
  | int n => some n
  | bool b => some (if b then 1 else 0)
  | float x => (BinaryValue.ofFloat x).whole?
  | string _ | null => none

/-- Whether two keys are the same key. -/
def same (a b : Key) : Bool :=
  match a, b with
  | string s, string t => s == t
  | null, null => true
  | a, b =>
    match a.whole?, b.whole? with
    | some m, some n => m == n
    | none, none =>
      match a, b with
      | float x, float y => x == y
      | _, _ => false
    | _, _ => false

end Key

namespace Table

/-- Puts a value under a key: in place of the value of the same key, else at the end. -/
def assign {α : Type} (key : Key) (value : α) : List (Key × α) → List (Key × α)
  | [] => [(key, value)]
  | (k, v) :: rest => if k.same key then (k, value) :: rest else (k, v) :: assign key value rest

/-- The table with the given entries, written one after the other. -/
def assignAll {α : Type} (entries : List (Key × α)) : List (Key × α) :=
  entries.foldl (fun table (key, value) => assign key value table) []

end Table

end ConvexContact
