import CostBound.Json
import CostBound.Validation

/-!
# Reports

* `Validation.json` — the outcome of a validation.
* `CheckReport` — the outcome together with the input and the settings it was found with.
* `CheckReport.text` — the contents of a report file.
-/

namespace CostBound

/-- The obligation as a JSON object. -/
def ObligationSummary.json (o : ObligationSummary) : Json :=
  .obj [("function", .str o.function), ("binders", .arr (o.binders.map .str)), ("cost", .str o.cost),
    ("bound", .str o.bound), ("formula", .str o.formula)]

namespace Validation

/-- The fields of an outcome; a reason is named only if there is one. -/
def fields (v : Validation) : List (String × Json) :=
  [("status", .str v.status.text)]
    ++ (v.reason?.map fun r => ("reason", Json.str r)).toList
    ++ [("witnesses", .obj (v.witnesses.map fun w => (w.1, .int w.2.toInt))),
      ("obligations", .arr (v.obligations.map (·.json)))]

/-- The outcome as a JSON object. -/
def json (v : Validation) : Json := .obj v.fields

end Validation

/-- The settings of a check. -/
structure CheckSettings where
  callCost : Int64
  profile : Profile
  infer : Bool
  manifest? : Option String
deriving DecidableEq, Repr

/-- The settings as a JSON object; a manifest is named only if there is one. -/
def CheckSettings.json (s : CheckSettings) : Json :=
  .obj ([("call_cost", .int s.callCost.toInt), ("smt_profile", .str s.profile.text),
    ("infer", .bool s.infer)] ++ (s.manifest?.map fun m => ("manifest", Json.str m)).toList)

/-- The outcome of a check, with its input and settings. -/
structure CheckReport where
  input : String
  settings : CheckSettings
  result : Validation
deriving DecidableEq, Repr

namespace CheckReport

/-- The name of the format. -/
def schema : String := "tempo.check.v1"

/-- The report as a JSON object. -/
def json (r : CheckReport) : Json :=
  .obj ([("schema", .str schema), ("input", .str r.input), ("settings", r.settings.json)]
    ++ r.result.fields)

/-- The contents of a report file. -/
def text (r : CheckReport) : String := r.json.pretty ++ "\n"

end CheckReport

end CostBound
