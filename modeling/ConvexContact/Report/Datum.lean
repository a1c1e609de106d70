import ConvexContact.Error
import ConvexContact.Json.Value
import ConvexContact.Linear.Tensor
import ConvexContact.Numeric.Number
import ConvexContact.Report.Key

/-!
# Report data

A datum is a value as a report gathers it: plain values and tensors in lists, tuples and tables.

* `Datum.toJson` turns it into plain JSON: a tensor with one entry becomes a number and any other
  nested arrays, tuples become arrays, and keys become their texts;
* `Datum.flatten` joins the two upper levels of keys of a table by a point.
-/

namespace ConvexContact

/-- A value as a report gathers it. -/
inductive Datum where
  | null
  | bool (b : Bool)
  | int (n : Int)
  | float (x : Float)
  | string (s : String)
  | tensor (t : Tensor Number)
  | list (items : List Datum)
  | tuple (items : List Datum)
  | table (entries : List (Key × Datum))

namespace Datum

/-- An entry of a tensor in its own kind. -/
def entryToJson (f : Format) (x : Number) : Json :=
  match f with
  | .boolean => .bool !x.isZero
  | .integer => .int x.toInteger
  | .single | .double => .float x.toFloat

/-- Entries in row-major order as nested arrays of a shape. -/
def nest (leaf : Number → Json) : List Nat → List Number → Json
  | [], xs => leaf (xs.headD 0)
  | n :: shape, xs =>
    .array ((List.range n).map fun i =>
      nest leaf shape ((xs.drop (i * Shape.size shape)).take (Shape.size shape)))

/-- A tensor as a number or as nested arrays. -/
def tensorToJson (t : Tensor Number) : Json :=
  match t.data with
  | [x] => .float x.toFloat
  | data => nest (entryToJson t.format) t.shape data

mutual

/-- A datum as plain JSON. -/
def toJson : Datum → Json
  | null => .null
  | bool b => .bool b
  | int n => .int n
  | float x => .float x
  | string s => .string s
  | tensor t => tensorToJson t
  | list items | tuple items => .array (itemsToJson items)
  | table entries => .object (Json.assignAll (entriesToJson entries))

/-- The items of a list as plain JSON. -/
def itemsToJson : List Datum → List Json
  | [] => []
  | d :: rest => toJson d :: itemsToJson rest

/-- The entries of a table with the texts of their keys. -/
def entriesToJson : List (Key × Datum) → List (String × Json)
  | [] => []
  | (k, d) :: rest => (k.text, toJson d) :: entriesToJson rest

end

mutual

/-- Plain JSON as a datum. -/
def ofJson : Json → Datum
  | .null => null
  | .bool b => bool b
  | .int n => int n
  | .float x => float x
  | .string s => string s
  | .array items => list (itemsOfJson items)
  | .object members => table (entriesOfJson members)

/-- The items of an array as data. -/
def itemsOfJson : List Json → List Datum
  | [] => []
  | j :: rest => ofJson j :: itemsOfJson rest

/-- The members of an object as entries of a table. -/
def entriesOfJson : List (String × Json) → List (Key × Datum)
  | [] => []
  | (name, j) :: rest => (.string name, ofJson j) :: entriesOfJson rest

end

/-- The entries that a group of a table is flattened to. -/
def flattenGroup (key : Key) (group : Datum) : List (Key × Json) :=
  match group with
  | table entries =>
    entries.map fun (k, d) => (.string (key.text ++ "." ++ k.text), d.toJson)
  | d => [(key, d.toJson)]

/-- A table of groups as one table: the entries of a group that is a table itself take the keys
`group.entry`, any other group stays under its own key. -/
def flattenEntries (entries : List (Key × Datum)) : List (Key × Json) :=
  Table.assignAll (entries.flatMap fun (k, d) => flattenGroup k d)

/-- A datum flattened, which must be a table. -/
def flatten : Datum → Except (Error Number) (List (Key × Json))
  | table entries => .ok (flattenEntries entries)
  | _ => .error .notATable

end Datum

end ConvexContact
