import CostBound.CommandLine.Run

/-!
# The program

Reads arguments and files, prints, writes the report file and ends with an exit code.
-/

namespace CostBound.Main

/-- The system's error, as far as the program tells errors apart. -/
def fileError : IO.Error → FileError
  | .noFileOrDirectory .. => .notFound
  | .inappropriateType _ code _ | .invalidArgument _ code _ => ofCode code
  | e => .other (toString e)
where
  /-- The error with a given number, which may come with a minus sign. -/
  ofCode (code : UInt32) : FileError :=
    match min code (0 - code) with
    | 20 => .notDirectory
    | 21 => .isDirectory
    | 36 => .nameTooLong
    | number => .other ("os error " ++ toString number)

/-- The answer of an action, or its error. -/
def attempt {α : Type} (action : IO α) : IO (Except FileError α) := do
  match ← action.toBaseIO with
  | .ok a => return .ok a
  | .error e => return .error (fileError e)

/-- The text of a file. -/
def readText (path : String) : IO (Except FileError String) := do
  match ← attempt (IO.FS.readBinFile path) with
  | .error e => return .error e
  | .ok bytes =>
      match String.fromUTF8? bytes with
      | some text => return .ok text
      | none => return .error .notText

/-- What the system knows about a path, taken as it is written. -/
def metadata (p : Path) : IO (Except FileError IO.FS.Metadata) :=
  attempt (IO.FS.DirEntry.mk p.text "").root.metadata

/-- The files of the system. -/
def system : FileSystem IO where
  canonical? p := do
    match ← attempt (IO.FS.realPath p.text) with
    | .ok real => return some (.ofText real.toString)
    | .error _ => return none
  isFile p := do
    match ← metadata p with
    | .ok data => return data.type == .file
    | .error _ => return false
  holds p := return (← metadata p).isOk
  read p := readText p.text

/-- Prints an outcome, writes its report and gives its exit code. -/
def finish (outcome : CommandLine.Outcome) : IO UInt32 := do
  IO.print outcome.output
  let outcome ← match outcome.report? with
    | none => pure outcome
    | some (file, text) =>
        match ← attempt (IO.FS.writeFile file text) with
        | .ok _ => pure outcome
        | .error e => pure (outcome.unwritten e)
  if let some message := outcome.failure? then IO.eprintln ("Error: " ++ message)
  return outcome.exitCode.toUInt32

end CostBound.Main

/-- Runs the command line. -/
def main (args : List String) : IO UInt32 := do
  match CostBound.CommandLine.parse args with
  | none =>
      IO.eprint CostBound.CommandLine.helpText
      return CostBound.CommandLine.usageExitCode.toUInt32
  | some .help =>
      IO.print CostBound.CommandLine.helpText
      return 0
  | some .version =>
      IO.print CostBound.CommandLine.versionText
      return 0
  | some (.run invocation) =>
      CostBound.Main.finish (← CostBound.CommandLine.run CostBound.Main.system .none invocation)
