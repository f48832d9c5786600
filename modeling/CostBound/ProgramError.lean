import CostBound.Operator

/-!
# Errors in the make-up of a program

* `ProgramError` — the causes.
* `ProgramError.message`, `ProgramError.help?` — their wording, and advice where there is some.
* `ProgramError.code` — the code that a report of the error carries.
-/

namespace CostBound

/-- An error in the make-up of a program. -/
inductive ProgramError where
  /-- A body uses a name that is not a parameter of its function. -/
  | scope (function name : String) (params : List String)
  /-- A call names no function. -/
  | undefinedFunction (name : String)
  /-- A call names more than one function. -/
  | ambiguousFunction (name : String) (count : Nat)
  /-- A tag stands for no operator. -/
  | unknownOperator (tag : String)
  /-- A call passes the wrong number of arguments. -/
  | arity (callee : String) (expected found : Nat)
deriving DecidableEq, Repr, Inhabited

namespace ProgramError

/-- The wording of each error. -/
def message : ProgramError → String
  | scope function name params =>
      "used variable `" ++ name ++ "` in function `" ++ function
        ++ "` which is not among the inputs: [" ++ ", ".intercalate params ++ "]"
  | undefinedFunction name => "no function named `" ++ name ++ "` to call"
  | ambiguousFunction name count =>
      "multiple functions named `" ++ name ++ "` (" ++ toString count
        ++ " definitions); the call is ambiguous"
  | unknownOperator tag => "unknown operator `" ++ tag ++ "`"
  | arity callee expected found =>
      "function `" ++ callee ++ "` takes " ++ toString expected
        ++ " argument(s) but the call passes " ++ toString found

/-- Advice that goes with an error. -/
def help? : ProgramError → Option String
  | unknownOperator _ =>
      some ("supported operators: "
        ++ ", ".intercalate (UnaryOp.all.map (·.tag) ++ BinaryOp.all.map (·.tag)))
  | _ => none

/-- The code of the error in a report. -/
def code : ProgramError → String
  | scope .. => "tempo::ir::scope"
  | undefinedFunction .. => "tempo::ir::undefined"
  | ambiguousFunction .. => "tempo::ir::ambiguous"
  | unknownOperator .. => "tempo::ir::operator"
  | arity .. => "tempo::ir::arity"

end ProgramError

end CostBound
