import ConvexContact.Config.Settings
import ConvexContact.Json.Writer
import ConvexContact.System.Run

/-!
# Command line

`--config FILE` names the settings of a line search and `--out-dir DIRECTORY` the place for its
results: `line_search.jsonl` with a line for each sample, and `summary.json`.
-/

namespace ConvexContact.CommandLine

/-- What the command line asks for. -/
structure Options where
  config : Option String
  outDir : Option String

/-- Reads the arguments; flags that do not change the results are passed over. -/
def parse : List String → Except String Options
  | [] => .ok ⟨none, none⟩
  | "--config" :: path :: rest => do return { ← parse rest with config := some path }
  | "--out-dir" :: path :: rest => do return { ← parse rest with outDir := some path }
  | "--log-level" :: _ :: rest => parse rest
  | "--deterministic" :: rest => parse rest
  | arg :: _ => .error ("unrecognized argument: " ++ arg)

/-- The lines of the result file. -/
def rowLines (outcome : Run.Outcome Number) : String :=
  String.join (outcome.rows.map fun r =>
    (Json.object (Run.rowToJson r)).text Layout.json.text ++ "\n")

/-- The text of the summary file. -/
def summaryText (config : String) (outcome : Run.Outcome Number) : String :=
  (Json.object (("config", .string config) :: outcome.summary)).pretty Layout.json.text ""

/-- The message of a failure. -/
def failureText (e : Run.Failure Number) : String := e.message.getD "the line search cannot be run"

/-- Runs the line search of a settings file and writes its results. -/
def execute (config outDir : String) : IO UInt32 := do
  match Settings.read? (← IO.FS.readFile config) with
  | none =>
    IO.eprintln ("cannot read settings: " ++ config)
    return 1
  | some settings =>
    match Run.run settings with
    | .error e =>
      IO.eprintln (failureText e)
      return 1
    | .ok outcome =>
      IO.FS.createDirAll outDir
      IO.FS.writeFile (outDir ++ "/line_search.jsonl") (rowLines outcome)
      IO.FS.writeFile (outDir ++ "/summary.json") (summaryText config outcome)
      IO.println ("Wrote outputs to: " ++ outDir)
      return 0

end ConvexContact.CommandLine

/-- Runs a line search from the command line. -/
def main (args : List String) : IO UInt32 := do
  match ConvexContact.CommandLine.parse args with
  | .ok ⟨some config, outDir⟩ =>
    ConvexContact.CommandLine.execute config (outDir.getD "outputs")
  | .ok ⟨none, _⟩ =>
    IO.eprintln "the argument --config is required"
    return 2
  | .error message =>
    IO.eprintln message
    return 2
