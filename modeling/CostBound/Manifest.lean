import CostBound.FileSystem
import CostBound.Toml.Document
import CostBound.Validation

/-!
# Project settings

Settings stand in the table `check` of a file `tempo.toml` next to a program or above it.

* `Manifest` — settings, each of which may be missing.
* `Manifest.ofToml` — the settings of a file's text.
* `Manifest.find` — the nearest file, going up from a path.
* `Manifest.load` — the settings that apply to a path.
-/

namespace CostBound

/-- The settings of a project, as far as they are made. -/
structure Manifest where
  path? : Option Path
  profile? : Option Profile
  callCost? : Option Int64
  infer? : Option Bool
deriving DecidableEq, Repr, Inhabited

/-- Why settings cannot be used. -/
inductive ManifestError where
  /-- The text does not have the right form. -/
  | form
  | unreadable (origin : String) (error : FileError)
  | negativeCost (origin : String) (cost : Int64)
deriving DecidableEq, Repr

/-- The wording of the error. -/
def ManifestError.message : ManifestError → String
  | form => "manifest error: failed to parse"
  | unreadable origin error => "manifest error: failed to read " ++ origin ++ ": " ++ error.message
  | negativeCost origin cost =>
      "manifest error: " ++ origin ++ ": `check.call_cost` must be non-negative, found "
        ++ toString cost.toInt

/-- The code of the error in a report. -/
def ManifestError.code (_ : ManifestError) : String := "tempo::manifest"

namespace Manifest

/-- The name of the file. -/
def fileName : String := "tempo.toml"

/-! ### The form of the file -/

/-- A profile: its name, or a table with the name as only key and an empty table or array under it. -/
def profile : Toml.Item → Option Profile
  | .scalar (.string name) => Profile.ofExact? name
  | .table _ [(name, .table _ [])] => Profile.ofExact? name
  | .table _ [(name, .array [])] => Profile.ofExact? name
  | _ => none

/-- A charge for calls. -/
def callCost : Toml.Item → Option Int64
  | .scalar (.integer n) => some n
  | _ => none

/-- A truth value. -/
def infer : Toml.Item → Option Bool
  | .scalar (.boolean b) => some b
  | _ => none

/-- A setting that may be missing, but is of the right form if it is there. -/
def setting {α : Type} (read : Toml.Item → Option α) : Option Toml.Item → Option (Option α)
  | none => some none
  | some item => do return some (← read item)

/-- Settings from the items that are given for them. -/
def ofItems (profile? callCost? infer? : Option Toml.Item) : Option Manifest := do
  return ⟨none, ← setting profile profile?, ← setting callCost callCost?, ← setting infer infer?⟩

/-- Settings from a table by their names, or from an array by their order. A date has neither. -/
def ofItem : Toml.Item → Option Manifest
  | .table _ entries =>
      ofItems (entries.lookup "smt_profile") (entries.lookup "call_cost") (entries.lookup "infer")
  | .array items => ofItems items[0]? items[1]? items[2]?
  | .tables earlier last =>
      let rows := (earlier ++ [last]).map (Toml.Item.table .header)
      ofItems rows[0]? rows[1]? rows[2]?
  | .scalar .moment => some default
  | .scalar _ => none

/-- The settings of a document. -/
def ofEntries (entries : Toml.Entries) : Option Manifest :=
  match entries.lookup "check" with
  | some item => ofItem item
  | none => some default

/-- The settings of a file's text. -/
def ofToml (source origin : String) : Except ManifestError Manifest :=
  match Toml.read source >>= ofEntries with
  | none => .error .form
  | some m =>
      match m.callCost? with
      | some cost => if cost < 0 then .error (.negativeCost origin cost) else .ok m
      | none => .ok m

/-! ### Finding the file -/

variable {m : Type → Type} [Monad m]

/-- The first of some folders that has the file. -/
def findIn (fs : FileSystem m) : List Path → m (Option Path)
  | [] => return none
  | folder :: folders => do
      let file := folder.child fileName
      if ← fs.holds file then return some file else findIn fs folders

/-- The folders to look in: a path and those above it, without the path itself if it is a file. -/
def folders (fs : FileSystem m) (start : Path) : m (List Path) := do
  if ← fs.isFile start then return start.parents else return start :: start.parents

/-- The nearest file, going up from a path. -/
def find (fs : FileSystem m) (start : Path) : m (Option Path) := do
  findIn fs (← folders fs start)

/-- The settings that apply to a path. A path that leads nowhere is gone up as it is written. -/
def load (fs : FileSystem m) (start : Path) : m (Except ManifestError Manifest) := do
  let start := (← fs.canonical? start).getD start
  match ← find fs start with
  | none => return .ok default
  | some file =>
      match ← fs.read file with
      | .error e => return .error (.unreadable file.text e)
      | .ok source => return do
          let settings ← ofToml source file.text
          return { settings with path? := some file }

end Manifest

end CostBound
