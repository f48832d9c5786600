import CostBound.Validation

/-!
# The arguments of the command line

A command line has an action and its file. Some flags may stand before the action as well as after it, and then the
later one counts; on one side of the action a flag with a value stands at most once.

* `CommandLine.Action`, `CommandLine.Invocation` — what is to be done.
* `CommandLine.Request` — an invocation, or the wish for the version or for help.
* `CommandLine.parse` — reads the arguments; `none` is a mistake in their use.
-/

namespace CostBound.CommandLine

/-- The four things to do with a file. -/
inductive Action where
  | check
  | costs
  | smt
  | format
deriving DecidableEq, Repr

/-- Every action. -/
def Action.all : List Action := [.check, .costs, .smt, .format]

/-- The name of an action. -/
def Action.name : Action → String
  | check => "check"
  | costs => "costs"
  | smt => "smt"
  | format => "fmt"

/-- The action with a given name. -/
def Action.ofName? (name : String) : Option Action := all.find? fun a => a.name = name

/-- What is to be done, with which file, and under which flags. -/
structure Invocation where
  action : Action
  path : String
  profile? : Option Profile
  callCost? : Option Int64
  infer : Bool
  report? : Option String
deriving DecidableEq, Repr

/-- What the arguments ask for. -/
inductive Request where
  | run (invocation : Invocation)
  | version
  | help
deriving DecidableEq, Repr

/-! ### Flags -/

/-- The flags. -/
inductive Flag where
  | profile
  | callCost
  | verbose
  | infer
  | report
  | version
  | help
deriving DecidableEq, Repr

namespace Flag

/-- Every flag. -/
def all : List Flag := [profile, callCost, verbose, infer, report, version, help]

/-- The name of a flag, after two dashes. -/
def name : Flag → String
  | profile => "smt-profile"
  | callCost => "call-cost"
  | verbose => "verbose"
  | infer => "infer"
  | report => "report"
  | version => "version"
  | help => "help"

/-- The letter of a flag, after one dash. -/
def letter? : Flag → Option Char
  | verbose => some 'v'
  | version => some 'V'
  | help => some 'h'
  | _ => none

/-- Whether a flag comes with a value. -/
def takesValue : Flag → Bool
  | profile | callCost | report => true
  | _ => false

/-- Whether a flag may stand after an action, or before any of them. -/
def allowed : Option Action → Flag → Bool
  | none, infer | none, report => false
  | none, _ => true
  | some _, version => false
  | some action, infer => action ≠ .format
  | some action, report => action = .check
  | some _, _ => true

end Flag

/-! ### One side of the action -/

/-- What one side of the action holds. -/
structure Options where
  profile? : Option Profile
  callCost? : Option Int64
  report? : Option String
  infer : Bool
  path? : Option String
deriving DecidableEq, Repr, Inhabited

/-- An integer of 64 bits: decimal digits with or without a sign. -/
def word? (text : String) : Option Int64 :=
  let (negative, digits) := match text.toList with
    | '-' :: ds => (true, ds)
    | '+' :: ds => (false, ds)
    | ds => (false, ds)
  if digits.isEmpty || !digits.all Char.isDigit then none
  else
    let size : Int := digits.foldl (fun n d => 10 * n + (d.toNat - '0'.toNat)) 0
    let n := if negative then -size else size
    if Int64.minValue.toInt ≤ n ∧ n ≤ Int64.maxValue.toInt then some (.ofInt n) else none

namespace Options

/-- Sets the value of a flag, which must be new. -/
def set (o : Options) : Flag → String → Option Options
  | .profile, text => do
      guard o.profile?.isNone
      return { o with profile? := some (← Profile.ofExact? text) }
  | .callCost, text => do
      guard o.callCost?.isNone
      return { o with callCost? := some (← word? text) }
  | .report, text => do
      guard (o.report?.isNone && text ≠ "")
      return { o with report? := some text }
  | _, _ => none

/-- Takes the file. There is one, and it has a name. -/
def setPath (o : Options) (text : String) : Option Options := do
  guard (o.path?.isNone && text ≠ "")
  return { o with path? := some text }

end Options

/-- What becomes of an argument: it is used up, or it settles the request. -/
inductive Step where
  | next (options : Options)
  | done (request : Request)

/-- A flag without a value; being verbose changes nothing here. -/
def plainFlag (o : Options) : Flag → Option Step
  | .verbose => some (.next o)
  | .infer => if o.infer then none else some (.next { o with infer := true })
  | .version => some (.done .version)
  | .help => some (.done .help)
  | _ => none

/-- The flags of an argument with one dash, letter by letter. -/
def letters (side : Option Action) (o : Options) : List Char → Option Step
  | [] => some (.next o)
  | c :: cs => do
      let flag ← Flag.all.find? fun f => f.letter? = some c && f.allowed side
      match ← plainFlag o flag with
      | .next o => letters side o cs
      | .done request => return .done request

/-- An argument that cannot be a value on its own. -/
def isDashed (text : String) : Bool :=
  match text.toList with
  | '-' :: _ :: _ => true
  | _ => false

/-! ### All arguments -/

/-- The request that both sides of an action make. -/
def Options.request (before after : Options) (action : Action) : Option Request := do
  return .run
    { action
      path := ← after.path?
      profile? := after.profile?.or before.profile?
      callCost? := after.callCost?.or before.callCost?
      infer := after.infer
      report? := after.report? }

/-- The arguments after two dashes, none of which is a flag. -/
def pathsOnly : List String → Options → Option Options
  | [], o => some o
  | a :: args, o => do pathsOnly args (← o.setPath a)

/-- The names after `help`: at most one, of an action. -/
def parseHelp : List String → Option Request
  | [] => some .help
  | [a] => if a = "help" || (Action.ofName? a).isSome then some .help else none
  | _ => none

/-- The arguments before any action, or after an action that some options stand before. The last argument of the
function has the options read so far on this side. -/
def parseSide : Option (Action × Options) → List String → Options → Option Request
  | none, [], _ => none
  | some (action, before), [], o => before.request o action
  | side, a :: args, o =>
      match a.toList with
      | ['-', '-'] => do
          let (action, before) ← side
          before.request (← pathsOnly args o) action
      | '-' :: '-' :: text => do
          let name := text.takeWhile (· ≠ '=')
          let flag ← Flag.all.find? fun f => f.name.toList = name && f.allowed (side.map (·.1))
          match flag.takesValue, text.drop name.length with
          | true, _ :: value => parseSide side args (← o.set flag (String.ofList value))
          | true, [] =>
              match args with
              | value :: args =>
                  if isDashed value then none else parseSide side args (← o.set flag value)
              | [] => none
          | false, _ :: _ => none
          | false, [] =>
              match ← plainFlag o flag with
              | .next o => parseSide side args o
              | .done request => return request
      | '-' :: c :: cs => do
          match ← letters (side.map (·.1)) o (c :: cs) with
          | .next o => parseSide side args o
          | .done request => return request
      | _ =>
          match side, Action.ofName? a with
          | some _, _ => do parseSide side args (← o.setPath a)
          | none, some action => parseSide (some (action, o)) args default
          | none, none => if a = "help" then parseHelp args else none

/-- Reads the arguments. -/
def parse (args : List String) : Option Request := parseSide none args default

end CostBound.CommandLine
