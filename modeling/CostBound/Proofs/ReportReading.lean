import CostBound.Proofs.JsonReading
import CostBound.Report
import Mathlib.Data.List.Nodup

/-!
# Reading reports

What a program that knows the field names of a report, and nothing else of how it was made, finds in its text.

* `Json.at?`, `Json.atIfAny?` — a field that an object must have, and one that it may have.
* `Json.Inverts` — a reader of values finds what a writer wrote.
* `Validation.ofJson?`, `CheckSettings.ofJson?`, `CheckReport.ofJson?` — the readers of the parts of a report, and
  `inverts_json` for each of them.
* `Json.Names` — which names an object has.
* `CheckReport.text_lossless` — the text of a report holds all of it.
-/

namespace CostBound

namespace Json

variable {α β : Type}

/-! ### Reading the parts of a value -/

def asText? : Json → Option String
  | str value => some value
  | _ => none

def asBool? : Json → Option Bool
  | bool value => some value
  | _ => none

/-- A number that fits into 64 bits. -/
def asInt64? : Json → Option Int64
  | int value => if (Int64.ofInt value).toInt = value then some (.ofInt value) else none
  | _ => none

def asList? (item : Json → Option α) : Json → Option (List α)
  | arr items => items.mapM item
  | _ => none

/-- The names and values of an object. -/
def asPairs? (value : Json → Option α) : Json → Option (List (String × α))
  | obj fields => fields.mapM fun f => (value f.2).map (f.1, ·)
  | _ => none

/-- The value with a name in an object. -/
def get? (name : String) : Json → Option Json
  | obj fields => fields.lookup name
  | _ => none

/-- What a field holds that an object must have. -/
def at? (name : String) (value : Json → Option α) (j : Json) : Option α := j.get? name >>= value

/-- What a field holds that an object may have. -/
def atIfAny? (name : String) (value : Json → Option α) (j : Json) : Option (Option α) :=
  if (j.get? name).isSome then (j.at? name value).map some else some none

/-- The reader finds what the writer wrote. -/
def Inverts (read : Json → Option α) (write : α → Json) : Prop := ∀ a, read (write a) = some a

theorem inverts_asText? : Inverts asText? str := fun _ => rfl

theorem inverts_asInt64? : Inverts asInt64? fun n => int n.toInt := by
  intro n
  rw [asInt64?, Int64.ofInt_toInt, if_pos rfl]

theorem mapM_map_of_inverse {f : α → β} {g : β → Option α} (h : ∀ a, g (f a) = some a) (as : List α) :
    (as.map f).mapM g = some as := by
  induction as with
  | nil => rfl
  | cons a as ih => rw [List.map_cons, List.mapM_cons, h, ih]; rfl

theorem Inverts.asList? {read : Json → Option α} {write : α → Json} (h : Inverts read write) :
    Inverts (asList? read) fun as => arr (as.map write) :=
  fun as => mapM_map_of_inverse h as

theorem Inverts.asPairs? {read : Json → Option α} {write : α → Json} (h : Inverts read write) :
    Inverts (asPairs? read) fun as => obj (as.map fun a => (a.1, write a.2)) :=
  fun as => mapM_map_of_inverse (fun a => by rw [h]; rfl) as

/-- In an object no name stands twice, and a certain one stands there exactly if `present`. -/
structure Names (fields : List (String × Json)) (name : String) (present : Bool) : Prop where
  nodup : (fields.map Prod.fst).Nodup
  mem_iff : name ∈ fields.map Prod.fst ↔ present = true

/-- A field that may be there has its place among fields with other names. -/
theorem names_of_nodup (before after : List (String × Json)) {name : String}
    (h : (before.map Prod.fst ++ name :: after.map Prod.fst).Nodup) (text? : Option String) :
    Names (before ++ (text?.map fun text => (name, str text)).toList ++ after) name text?.isSome := by
  obtain ⟨hname, hnodup⟩ := List.nodup_cons.1 (List.nodup_middle.1 h)
  cases text? with
  | none =>
      constructor
      · simpa using hnodup
      · simpa using hname
  | some text =>
      constructor
      · simpa using h
      · simp

end Json

/-! ### Readers of reports -/

/-- The outcome with this name. -/
def Status.ofText? (name : String) : Option Status :=
  [("valid", valid), ("invalid", invalid), ("unknown", unknown)].lookup name

/-- The profile with this name. -/
def Profile.ofText? (name : String) : Option Profile := [("fast", fast), ("ci", ci), ("thorough", thorough)].lookup name

def ObligationSummary.ofJson? (j : Json) : Option ObligationSummary := do
  some {
    function := ← j.at? "function" Json.asText?
    binders := ← j.at? "binders" (Json.asList? Json.asText?)
    cost := ← j.at? "cost" Json.asText?
    bound := ← j.at? "bound" Json.asText?
    formula := ← j.at? "formula" Json.asText? }

def Validation.ofJson? (j : Json) : Option Validation := do
  some {
    status := ← j.at? "status" fun x => x.asText? >>= Status.ofText?
    reason? := ← j.atIfAny? "reason" Json.asText?
    witnesses := ← j.at? "witnesses" (Json.asPairs? Json.asInt64?)
    obligations := ← j.at? "obligations" (Json.asList? ObligationSummary.ofJson?) }

def CheckSettings.ofJson? (j : Json) : Option CheckSettings := do
  some {
    callCost := ← j.at? "call_cost" Json.asInt64?
    profile := ← j.at? "smt_profile" fun x => x.asText? >>= Profile.ofText?
    infer := ← j.at? "infer" Json.asBool?
    manifest? := ← j.atIfAny? "manifest" Json.asText? }

/-- Only reports of the format in use are read. -/
def CheckReport.ofJson? (j : Json) : Option CheckReport := do
  if (← j.at? "schema" Json.asText?) = "tempo.check.v1" then
    some {
      input := ← j.at? "input" Json.asText?
      settings := ← j.at? "settings" CheckSettings.ofJson?
      result := ← Validation.ofJson? j }
  else none

def Validation.ofText? (text : String) : Option Validation := Json.ofText? text >>= ofJson?

def CheckReport.ofText? (text : String) : Option CheckReport := Json.ofText? text >>= ofJson?

theorem Status.ofText?_text (s : Status) : Status.ofText? s.text = some s := by
  cases s <;> rfl

theorem Profile.ofText?_text (p : Profile) : Profile.ofText? p.text = some p := by
  cases p <;> rfl

theorem ObligationSummary.inverts_json : Json.Inverts ofJson? json := by
  intro o
  simp [ofJson?, json, Json.at?, Json.get?, List.lookup_cons, Json.inverts_asText?.asList? o.binders, Json.asText?]

theorem CheckSettings.inverts_json : Json.Inverts ofJson? json := by
  rintro ⟨callCost, profile, infer, manifest?⟩
  cases manifest? <;>
    simp [ofJson?, json, Json.at?, Json.atIfAny?, Json.get?, List.lookup_cons, Json.asText?, Json.asBool?,
      Json.inverts_asInt64? callCost, Profile.ofText?_text]

theorem Validation.inverts_json : Json.Inverts ofJson? json := by
  rintro ⟨status, reason?, witnesses, obligations⟩
  have hwitnesses := Json.inverts_asInt64?.asPairs? witnesses
  have hobligations := ObligationSummary.inverts_json.asList? obligations
  cases reason? <;>
    simp [ofJson?, json, fields, Json.at?, Json.atIfAny?, Json.get?, List.lookup_cons, Json.asText?,
      Status.ofText?_text, hwitnesses, hobligations]

/-- The names of the fields of an outcome. -/
def Validation.names : List String := ["status", "reason", "witnesses", "obligations"]

theorem Validation.ofJson?_congr {j j' : Json} (h : ∀ name ∈ names, j.get? name = j'.get? name) :
    ofJson? j = ofJson? j' := by
  have hstatus := h "status" (by decide)
  have hreason := h "reason" (by decide)
  have hwitnesses := h "witnesses" (by decide)
  have hobligations := h "obligations" (by decide)
  simp only [ofJson?, Json.at?, Json.atIfAny?, hstatus, hreason, hwitnesses, hobligations]

/-- An outcome is found after fields with other names. -/
theorem Validation.ofJson?_append (before : List (String × Json)) (h : ∀ name ∈ before.map Prod.fst, name ∉ names)
    (v : Validation) : ofJson? (.obj (before ++ v.fields)) = some v := by
  rw [← inverts_json v]
  refine ofJson?_congr fun name hname => ?_
  have hnone : before.lookup name = none := by
    refine List.lookup_eq_none_iff.2 fun f hf => ?_
    rw [bne_iff_ne]
    rintro rfl
    exact h f.1 (List.mem_map_of_mem hf) hname
  show (before ++ v.fields).lookup name = v.fields.lookup name
  rw [List.lookup_append, hnone, Option.none_or]

theorem Validation.names_fields (before : List (String × Json)) (h : (before.map Prod.fst ++ names).Nodup)
    (v : Validation) : Json.Names (before ++ v.fields) "reason" v.reason?.isSome := by
  unfold fields
  rw [← List.append_assoc, ← List.append_assoc]
  refine Json.names_of_nodup _ _ ?_ v.reason?
  rw [List.map_append, List.append_assoc]
  exact h

theorem CheckReport.inverts_json : Json.Inverts ofJson? json := by
  intro r
  have hother : ∀ name ∈ ["schema", "input", "settings"], name ∉ Validation.names := by decide
  have hresult : Validation.ofJson? r.json = some r.result := by
    refine Validation.ofJson?_append
      [("schema", .str schema), ("input", .str r.input), ("settings", r.settings.json)] ?_ r.result
    exact hother
  unfold ofJson?
  rw [hresult]
  simp [json, schema, Json.at?, Json.get?, List.lookup_cons, Json.asText?, CheckSettings.inverts_json r.settings]

/-! ### Texts -/

theorem Validation.ofText?_compact (v : Validation) : ofText? v.json.compact = some v := by
  have hread := Json.ofText?_write Json.Style.neutral_compact v.json (List.forall_mem_nil _)
  rw [String.ofList_nil, String.append_empty] at hread
  unfold ofText?
  rw [Json.compact, hread]
  exact inverts_json v

theorem CheckReport.ofText?_text (r : CheckReport) : ofText? r.text = some r := by
  unfold ofText?
  rw [text, Json.pretty, show "\n" = String.ofList ['\n'] from rfl,
    Json.ofText?_write Json.Style.neutral_pretty r.json (List.forall_mem_singleton.2 rfl)]
  exact inverts_json r

/-- **A report loses nothing.** Its text is one JSON object and a line feed, and a reader finds in it exactly the report
that was written. No name stands twice in the object, and a reason and a manifest are named if there are any, and only
then. The outcome alone, written on one line, is read back as well. -/
theorem CheckReport.text_lossless (r : CheckReport) :
    CheckReport.ofText? r.text = some r
      ∧ (∃ fields settings, Json.front? r.text.toList = some (.obj fields, ['\n'])
          ∧ Json.Names fields "reason" r.result.reason?.isSome
          ∧ (Json.obj fields).get? "settings" = some (.obj settings)
          ∧ Json.Names settings "manifest" r.settings.manifest?.isSome)
      ∧ Validation.ofText? r.result.json.compact = some r.result
      ∧ ∃ fields, Json.front? r.result.json.compact.toList = some (.obj fields, [])
          ∧ Json.Names fields "reason" r.result.reason?.isSome := by
  have hreport : Json.front? r.text.toList = some (r.json, ['\n']) := by
    rw [text, String.toList_append]
    exact Json.front?_write Json.Style.neutral_pretty r.json (Json.stops_cons rfl [])
  have hresult : Json.front? r.result.json.compact.toList = some (r.result.json, []) := by
    rw [← List.append_nil r.result.json.compact.toList]
    exact Json.front?_write Json.Style.neutral_compact r.result.json Json.stops_nil
  refine ⟨r.ofText?_text, ⟨_, _, hreport, ?_, rfl, ?_⟩, r.result.ofText?_compact, _, hresult, ?_⟩
  · refine Validation.names_fields [_, _, _] ?_ r.result
    exact (by decide : (["schema", "input", "settings"] ++ Validation.names).Nodup)
  · rw [← List.append_nil (_ ++ _)]
    refine Json.names_of_nodup [_, _, _] [] ?_ r.settings.manifest?
    exact (by decide : ["call_cost", "smt_profile", "infer", "manifest"].Nodup)
  · exact Validation.names_fields [] (by decide) r.result

example : CheckReport.text ⟨"a\"b", ⟨1, .ci, false, none⟩,
      ⟨.unknown, some "time", [("c0__1", -2)], [⟨"f", ["n"], "1", "n", "n <= 0 or 1 <= n"⟩]⟩⟩
    = "\x7b\n  \"schema\": \"tempo.check.v1\",\n  \"input\": \"a\\\"b\",\n"
      ++ "  \"settings\": \x7b\n    \"call_cost\": 1,\n    \"smt_profile\": \"ci\",\n    \"infer\": false\n  \x7d,\n"
      ++ "  \"status\": \"unknown\",\n  \"reason\": \"time\",\n  \"witnesses\": \x7b\n    \"c0__1\": -2\n  \x7d,\n"
      ++ "  \"obligations\": [\n    \x7b\n      \"function\": \"f\",\n      \"binders\": [\n        \"n\"\n      ],\n"
      ++ "      \"cost\": \"1\",\n      \"bound\": \"n\",\n      \"formula\": \"n <= 0 or 1 <= n\"\n"
      ++ "    \x7d\n  ]\n\x7d\n" := by decide +kernel

end CostBound
