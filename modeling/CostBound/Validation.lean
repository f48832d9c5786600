import CostBound.Query.Basic

/-!
# Validation

* `Profile` — how much time a solver gets.
* `Verdict`, `Prover` — a solver and what it may answer.
* `Validation` — the outcome for a program: a status, the chosen constants and the obligations in print.
* `Program.validate` — asks a solver about a program's query.
-/

namespace CostBound

/-- How much time a solver gets. -/
inductive Profile where
  | fast
  | ci
  | thorough
deriving DecidableEq, Repr

namespace Profile

instance : Inhabited Profile := ⟨ci⟩

/-- Every profile. -/
def all : List Profile := [fast, ci, thorough]

/-- The name of a profile. -/
def text : Profile → String
  | fast => "fast"
  | ci => "ci"
  | thorough => "thorough"

/-- The time limit in milliseconds. -/
def timeout : Profile → Nat
  | fast => 2000
  | ci => 10000
  | thorough => 60000

/-- The profile with exactly this name. -/
def ofExact? (name : String) : Option Profile := all.find? fun p => p.text = name

/-- The profile with this name, in any ASCII case; without one, the message that says so. -/
def ofName (name : String) : Except String Profile :=
  let lower := name.map Char.toLower
  match ofExact? lower with
  | some p => .ok p
  | none =>
      .error ("unknown SMT profile `" ++ lower ++ "` (expected fast, ci, or thorough)")

end Profile

/-- Values that a solver chose, in the order of their names. -/
abbrev Witnesses := List (String × Int64)

namespace Witnesses

/-- Sets the value of a name, in its place. -/
def set (name : String) (value : Int64) : Witnesses → Witnesses
  | [] => [(name, value)]
  | w :: ws =>
      if name < w.1 then (name, value) :: w :: ws
      else if name = w.1 then (name, value) :: ws
      else w :: set name value ws

/-- The values that some pairs describe; of two pairs for a name the later one counts. -/
def ofPairs (pairs : List (String × Int64)) : Witnesses :=
  pairs.foldl (fun ws w => set w.1 w.2 ws) []

end Witnesses

/-- What a solver answers. -/
inductive Verdict where
  /-- Every obligation holds for these values of the unknowns. -/
  | sat (witnesses : Witnesses)
  | unsat
  | unknown (reason : String)
deriving DecidableEq, Repr

/-- Why a solver gives no answer. -/
inductive SolverError where
  | unavailable (message : String)
  | failure (message : String)
deriving DecidableEq, Repr

namespace SolverError

/-- The wording of the error. -/
def message : SolverError → String
  | unavailable m => "no SMT solver available: " ++ m
  | failure m => "solver failure: " ++ m

/-- Advice that goes with an error. -/
def help? : SolverError → Option String
  | unavailable _ =>
      some "rebuild with `--features z3` (requires libz3), or use `tempo smt` to export the query"
  | failure _ => none

/-- The code of the error in a report. -/
def code : SolverError → String
  | unavailable _ => "tempo::verify::unavailable"
  | failure _ => "tempo::verify::solver"

end SolverError

/-- A solver: answers queries under a profile. -/
structure Prover (m : Type → Type) where
  ask : Profile → Query → m (Except SolverError Verdict)

/-- The solver that is there when none is installed. -/
def Prover.none {m : Type → Type} [Pure m] : Prover m where
  ask _ _ := pure (.error (.unavailable
    "Z3 prover is not enabled. Rebuild with `--features tempo-verify/z3`."))

/-- The outcome for a program. -/
inductive Status where
  | valid
  | invalid
  | unknown
deriving DecidableEq, Repr

/-- The name of an outcome. -/
def Status.text : Status → String
  | valid => "valid"
  | invalid => "invalid"
  | unknown => "unknown"

/-- An obligation in print. -/
structure ObligationSummary where
  function : String
  binders : List String
  cost : String
  bound : String
  formula : String
deriving DecidableEq, Repr

/-- The obligation in surface notation. -/
def Obligation.summary (o : Obligation) : ObligationSummary :=
  ⟨o.function, o.binders, o.cost.text, o.bound.text, o.formula.text⟩

/-- The outcome of asking a solver. -/
structure Validation where
  status : Status
  reason? : Option String
  /-- The solver's choice of the unknowns; empty unless the program is valid. -/
  witnesses : Witnesses
  obligations : List ObligationSummary
deriving DecidableEq, Repr

namespace Validation

/-- The bounds hold. -/
def isValid (v : Validation) : Bool := v.status = .valid

/-- The outcome that a verdict on a query stands for. -/
def ofVerdict (q : Query) : Verdict → Validation
  | .sat witnesses => ⟨.valid, none, witnesses, q.obligations.map (·.summary)⟩
  | .unsat => ⟨.invalid, none, [], q.obligations.map (·.summary)⟩
  | .unknown reason => ⟨.unknown, some reason, [], q.obligations.map (·.summary)⟩

end Validation

/-- Why there is no outcome. -/
inductive ValidationError where
  | query (error : QueryError)
  | solver (error : SolverError)
deriving DecidableEq, Repr

/-- The wording of the error. -/
def ValidationError.message : ValidationError → String
  | query e => e.message
  | solver e => e.message

/-- The code of the error in a report. -/
def ValidationError.code : ValidationError → String
  | query e => e.code
  | solver e => e.code

/-- What a validation depends on beside the program. -/
structure ValidationOptions where
  model : CostModel
  profile : Profile
deriving DecidableEq, Repr, Inhabited

/-- Asks a solver about a program. A program without a query is not put to it. -/
def Program.validate {m : Type → Type} [Monad m] (p : Program) (prover : Prover m)
    (options : ValidationOptions) : m (Except ValidationError Validation) := do
  match p.query options.model with
  | .error e => return .error (.query e)
  | .ok q =>
      match ← prover.ask options.profile q with
      | .error e => return .error (.solver e)
      | .ok verdict => return .ok (.ofVerdict q verdict)

end CostBound
