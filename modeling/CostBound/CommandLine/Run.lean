import CostBound.CommandLine.Arguments
import CostBound.Manifest
import CostBound.Query.Script
import CostBound.Reading.Program
import CostBound.Report

/-!
# What the command line does

* `CommandLine.Settings` — flags over the settings of the project over the defaults.
* `CommandLine.Outcome` — what is printed, what is written to a file, and how it ends.
* `CommandLine.run` — carries out an invocation.
-/

namespace CostBound.CommandLine

/-- The settings that an action runs under. -/
structure Settings where
  model : CostModel
  profile : Profile
  infer : Bool
  manifest? : Option Path

/-- What is printed, what is written to a report file, and the message that it fails with. -/
structure Outcome where
  output : String
  report? : Option (String × String)
  failure? : Option String
deriving DecidableEq, Repr

namespace Outcome

/-- Prints and ends well. -/
def success (output : String) : Outcome := ⟨output, none, none⟩

/-- Fails before anything is printed. -/
def failed (message : String) : Outcome := ⟨"", none, some message⟩

/-- The same, but the report file could not be written. -/
def unwritten (o : Outcome) (e : FileError) : Outcome := { o with failure? := some e.message }

/-- The exit code. -/
def exitCode (o : Outcome) : Nat := if o.failure?.isSome then 1 else 0

end Outcome

/-- The exit code of a mistake in the use of the command line. -/
def usageExitCode : Nat := 2

/-- What is printed for the version. -/
def versionText : String := "tempo 0.2.0\n"

/-- What is printed for help. -/
def helpText : String :=
  "Checks claimed cost bounds of small recursive programs\n\n"
    ++ "Usage: tempo [OPTIONS] <check|costs|smt|fmt> <PATH>\n"

variable {m : Type → Type} [Monad m]

/-- A step that fails with the wording of an error. -/
def orFail {ε α : Type} (message : ε → String) (step : m (Except ε α)) : ExceptT String m α :=
  .mk (Except.mapError message <$> step)

/-- The settings of an invocation. The project's settings are read even if flags replace them. -/
def Invocation.settings (fs : FileSystem m) (i : Invocation) : ExceptT String m Settings := do
  let found ← orFail (·.message) (Manifest.load fs (.ofText i.path))
  let cost := (i.callCost?.or found.callCost?).getD CostModel.unitCalls.callCost
  if cost < 0 then throw ("--call-cost must be non-negative, found " ++ toString cost.toInt)
  return { model := ⟨cost⟩
           profile := (i.profile?.or found.profile?).getD default
           infer := i.infer || found.infer?.getD false
           manifest? := found.path? }

/-- The program of a file, with unknown constants if they are asked for. -/
def loadProgram (fs : FileSystem m) (path : String) (infer : Bool) : ExceptT String m Program := do
  let source ← orFail (·.message) (fs.read (.ofText path))
  let program ← orFail (·.message) (pure (Program.ofSource source))
  return if infer then (program.scaled ⟨0⟩).1 else program

/-- The costs and bounds of all functions. -/
def costLines (functions : List Function) (costs : List Expr) : String :=
  String.join ((functions.zip costs).map fun (f, cost) =>
    f.name ++ "(" ++ ", ".intercalate f.params ++ ")\n    cost:  " ++ cost.text ++ "\n    bound: "
      ++ f.bound.text ++ "\n")

/-- What is printed for a validation. -/
def resultLines (v : Validation) : String :=
  v.status.text ++ "\n"
    ++ (v.reason?.map fun r => "  reason: " ++ r ++ "\n").getD ""
    ++ String.join (v.witnesses.map fun w => "  " ++ w.1 ++ " = " ++ toString w.2.toInt ++ "\n")

/-- The message for a program whose bounds are not confirmed. -/
def verdictFailure? (path : String) : Status → Option String
  | .valid => none
  | .invalid => some ("the annotated costs of " ++ path ++ " do not bound the program")
  | .unknown =>
      some ("the solver could not decide " ++ path ++ "; try `--smt-profile thorough`")

/-- The outcome of a check. -/
def Invocation.checked (i : Invocation) (s : Settings) (v : Validation) : Outcome :=
  let settings : CheckSettings := ⟨s.model.callCost, s.profile, s.infer, s.manifest?.map (·.text)⟩
  { output := resultLines v
    report? := i.report?.map fun file => (file, CheckReport.text ⟨i.path, settings, v⟩)
    failure? := verdictFailure? i.path v.status }

/-- The steps of an invocation. Formatting needs no settings. -/
def steps (fs : FileSystem m) (prover : Prover m) (i : Invocation) : ExceptT String m Outcome := do
  match i.action with
  | .format => return .success (← loadProgram fs i.path false).text
  | .costs =>
      let s ← i.settings fs
      let p ← loadProgram fs i.path s.infer
      let costs ← orFail (·.message) (pure (p.costs s.model))
      return .success (costLines p.functions costs)
  | .smt =>
      let s ← i.settings fs
      let p ← loadProgram fs i.path s.infer
      let query ← orFail (·.message) (pure (p.query s.model))
      let script ← orFail (·.message) (pure query.script)
      return .success script
  | .check =>
      let s ← i.settings fs
      let p ← loadProgram fs i.path s.infer
      let v ← orFail (·.message) (p.validate prover ⟨s.model, s.profile⟩)
      return i.checked s v

/-- Carries out an invocation. -/
def run (fs : FileSystem m) (prover : Prover m) (i : Invocation) : m Outcome := do
  match ← (steps fs prover i).run with
  | .ok outcome => return outcome
  | .error message => return .failed message

end CostBound.CommandLine
