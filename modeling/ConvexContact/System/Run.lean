import ConvexContact.Decimal.Numeral
import ConvexContact.Error.Message
import ConvexContact.Json.Literal
import ConvexContact.System.LineSearch
import ConvexContact.System.SpringMass

/-!
# Line searches from a configuration

A configuration is an object with the seed, the number format, the spring-mass system, its positions
and velocities, and the line. Everything may be left out. `Run.prepare` reads it part by part, in
the order in which the parts are used, so of several faults the one that is met first is reported:
the seed and the format come before the system, and the system before the line. `Run.run` goes on to
search along the line.

Not all parts are read alike. Positions, velocities and the line are made machine numbers, so a text
that is a number will do for them. The numbers of the system are taken as they are written. A text
is no number there, and a whole number stays one.

Numbers enter a computation in a way of its own for each kind of number (`Run.Input`), so a
configuration describes a search in exact arithmetic as well as one with machine numbers.
-/

namespace ConvexContact.Run

/-- How the numbers of a configuration enter a computation with numbers of a kind: those with a
point or an exponent, and whole ones. -/
class Input (K : Type) where
  float : Float → K
  int : Int → K

instance : Input Number := ⟨.float, .int⟩

variable {K : Type}

/-! ## Failures -/

/-- Why a line search failed. -/
inductive Failure (K : Type) where
  /-- the library refused -/
  | library (e : Error K)
  /-- a text or an unordered number where a number is needed -/
  | noNumber
  /-- something else than two items where a name and its value are needed -/
  | noPair
  /-- a value of a sort that cannot be used -/
  | sort
  /-- a number without counterpart in the needed range -/
  | overflow
  /-- the configuration is no object -/
  | noObject
  /-- a seed outside the 32-bit range -/
  | seedRange
  | unsupportedFormat (name : String)
  | notSixNumbers (value : Json)
  | directionSize (expected : Nat)
  | noSamples

namespace Failure

/-- The sort of failure a cause is. -/
def kind : Failure K → ErrorKind
  | library e => e.kind
  | noNumber | noPair | seedRange | unsupportedFormat _ | directionSize _ | noSamples => .value
  | sort | notSixNumbers _ => .sort
  | overflow => .overflow
  | noObject => .part

/-- The wording of a cause, if it has one. -/
def message : Failure Number → Option String
  | library e => e.message Number.text
  | unsupportedFormat name => some ("Unsupported dtype: " ++ name)
  | notSixNumbers value => some ("Expected a list of 6 numbers, got " ++ value.literal)
  | directionSize expected =>
    some ("line.direction must have " ++ toString expected ++ " entries")
  | noNumber | noPair | sort | overflow | noObject | seedRange | noSamples => none

end Failure

/-! ## Plain values -/

/-- A machine number from a value: numbers, truth values and texts of numbers. -/
def readFloat : Json → Except (Failure K) Float
  | .float x => .ok x
  | .int n => if (Float.ofInt n).isInf then .error .overflow else .ok (Float.ofInt n)
  | .bool b => .ok (if b then 1 else 0)
  | .string s =>
    match Numeral.float? s with
    | some x => .ok x
    | none => .error .noNumber
  | .null | .array _ | .object _ => .error .sort

/-- A whole number from a value, fractions cut off toward zero. -/
def readInt : Json → Except (Failure K) Int
  | .int n => .ok n
  | .bool b => .ok (if b then 1 else 0)
  | .float x =>
    match BinaryValue.ofFloat x with
    | .nan => .error .noNumber
    | .infinite _ => .error .overflow
    | b => .ok (b.truncate?.getD 0)
  | .string s =>
    match Numeral.int? s with
    | some n => .ok n
    | none => .error .noNumber
  | .null | .array _ | .object _ => .error .sort

/-- The text of a value: of a string its characters, of anything else its literal. -/
def readText : Json → String
  | .string s => s
  | v => v.literal

/-- What can be gone through: the items of an array, the characters of a text, the names of an
object. -/
def readItems : Json → Except (Failure K) (List Json)
  | .array items => .ok items
  | .string s => .ok (s.toList.map fun c => .string (String.singleton c))
  | .object members => .ok (members.map fun (name, _) => .string name)
  | .null | .bool _ | .int _ | .float _ => .error .sort

/-- A name with its value, which come as any two items; lists and objects are no names. -/
def readPair (v : Json) : Except (Failure K) (String × Json) := do
  match ← readItems v with
  | [.array _, _] | [.object _, _] => .error .sort
  | [name, value] => return (readText name, value)
  | _ => .error .noPair

/-- The members of an object, or of a list of pairs. -/
def readMembers : Json → Except (Failure K) (List (String × Json))
  | .object members => .ok members
  | v => do return Json.assignAll (← (← readItems v).mapM readPair)

/-- The member of an object, or a default in its place. -/
def member (name : String) (default : Json) (members : List (String × Json)) : Json :=
  (members.lookup name).getD default

/-! ## Parts of a configuration -/

/-- The number format of a given name. -/
def readFormat (name : String) : Except (Failure K) Format :=
  match name with
  | "float32" => .ok .single
  | "float64" => .ok .double
  | name => .error (.unsupportedFormat name)

/-- A seed, which must be a whole number of 32 bits. -/
def checkSeed (seed : Int) : Except (Failure K) Unit :=
  if 0 ≤ seed ∧ seed < Int.pow 2 32 then .ok () else .error .seedRange

/-- The names of the numbers of a system. -/
def systemNames : List String :=
  ["mass1", "mass2", "stiffness", "dissipation_time_scale", "time_step", "gravity", "gravity_axis"]

/-- The members of a system, none of which may be unknown. -/
def readSystem (v : Json) : Except (Failure K) (List (String × Json)) := do
  let members ← readMembers v
  if members.all fun (name, _) => systemNames.contains name then return members
  else .error .sort

/-- Positions or velocities: six numbers, or nothing for zeros. -/
def readSix [Arith K] [Input K] (f : Format) (v : Json) :
    Except (Failure K) (Option (Given K)) :=
  match v with
  | .null => .ok none
  | .array items =>
    if items.length ≠ 6 then .error (.notSixNumbers v)
    else do
      let xs ← items.mapM readFloat
      let entries := xs.map fun x => Arith.cast f (Input.float x)
      return some (.tensor (Vec.mk f entries).toTensor)
  | v => .error (.notSixNumbers v)

section System

variable [Input K]

/-- What a number of a system is set to. -/
def settingOf : Json → Setting K
  | .float x => .number ⟨.double, Input.float x⟩
  | .int n => .number ⟨.integer, Input.int n⟩
  | .bool b => .number ⟨.boolean, Input.int (if b then 1 else 0)⟩
  | .null | .string _ | .array _ | .object _ => .other

/-- What the axis of gravity is set to. -/
def axisOf : Json → AxisSetting K
  | .float x => .fraction (Input.float x)
  | .int n => .index n
  | .bool b => .everywhere b
  | .null | .string _ | .array _ | .object _ => .other

/-- The system that its members describe. -/
def systemOf [Arith K] (members : List (String × Json)) : SpringMassConfig K :=
  let standard : SpringMassConfig K := SpringMassConfig.standard
  let setting (name : String) (default : Setting K) : Setting K :=
    ((members.lookup name).map settingOf).getD default
  { mass1 := setting "mass1" standard.mass1
    mass2 := setting "mass2" standard.mass2
    stiffness := setting "stiffness" standard.stiffness
    relaxation := setting "dissipation_time_scale" standard.relaxation
    timeStep := setting "time_step" standard.timeStep
    gravity := setting "gravity" standard.gravity
    axis := ((members.lookup "gravity_axis").map axisOf).getD standard.axis }

end System

/-- The line that is sampled. -/
structure Line where
  direction : List Float
  lower : Float
  upper : Float
  count : Int

/-- The third axis from minus one to one in 101 samples, unless said otherwise. -/
def readLine (v : Json) : Except (Failure K) Line := do
  let members ← readMembers v
  let items ← readItems
    (member "direction" (.array [.float 0.0, .float 0.0, .float 1.0]) members)
  return {
    direction := ← items.mapM readFloat
    lower := ← readFloat (member "s_min" (.float (-1.0)) members)
    upper := ← readFloat (member "s_max" (.float 1.0) members)
    count := ← readInt (member "samples" (.int 101) members) }

/-! ## The run -/

/-- The rows of a line search with the sizes of the model and the first row of least cost. -/
structure Outcome (K : Type) where
  sizes : ModelSizes
  rows : List (LineSearch.Row K)
  best : LineSearch.Row K

/-- A refusal of the library as a failure of the run. -/
def ofLibrary {α : Type} (x : Except (Error K) α) : Except (Failure K) α :=
  x.mapError .library

section Search

variable [Arith K] [Input K]

/-- The direction of a line, stored in a format. -/
def Line.directionIn (line : Line) (f : Format) : Vec K :=
  ⟨f, line.direction.map fun x => Arith.cast f (Input.float x)⟩

/-- The samples of a line, stored in a format. -/
def Line.samples? (line : Line) (f : Format) : Except (Error K) (List K) :=
  LineSearch.samples? f (Input.float line.lower) (Input.float line.upper) line.count

/-- The search along a line through a model. -/
def search (m : Model K) (line : Line) : Except (Failure K) (Outcome K) := do
  if line.direction.length ≠ m.velocityCount then .error (.directionSize m.velocityCount)
  else
    let points ← ofLibrary (line.samples? m.format)
    let rows ← ofLibrary
      ((LineSearch.rows m (line.directionIn m.format) points).run m.makeState).1
    match LineSearch.least rows with
    | some best => return ⟨m.modelSizes, rows, best⟩
    | none => .error .noSamples

/-- The model and the line that a configuration describes. -/
def prepare (config : Json) : Except (Failure K) (Model K × Line) := do
  match config with
  | .object members =>
    let seed ← readInt (member "seed" (.int 0) members)
    let f ← readFormat (readText (member "dtype" (.string "float64") members))
    checkSeed seed
    let system ← readSystem (member "system" (.object []) members)
    let q ← readSix f (member "q0" .null members)
    let v ← readSix f (member "v0" .null members)
    let problem ← ofLibrary ((systemOf system).problem f q v)
    let model ← ofLibrary (Model.build? problem)
    return (model, ← readLine (member "line" (.object []) members))
  | _ => .error .noObject

/-- The line search that a configuration describes. -/
def run (config : Json) : Except (Failure K) (Outcome K) := do
  let (m, line) ← prepare config
  search m line

end Search

/-! ## Reports -/

/-- A row as a report line: the sample, the flattened summary, the slope and the curvature. -/
def rowToJson (r : LineSearch.Row Number) : List (String × Json) :=
  let entries := (Datum.flattenEntries r.summary.entries).map fun (k, v) => (k.text, v)
  ("s", .float r.s.toFloat) :: entries ++
    [("line.slope", .float r.slope.value.toFloat),
      ("line.curvature", .float r.curvature.value.toFloat)]

/-- The summary of a line search. -/
def Outcome.summary (o : Outcome Number) : List (String × Json) :=
  [("sizes", o.sizes.toDatum.toJson),
    ("min_cost", .float o.best.summary.total.value.toFloat),
    ("argmin_s", .float o.best.s.toFloat)]

end ConvexContact.Run
