import CostBound.Command

/-!
# Functions and programs

* `Function` — a named command with parameters and a claimed bound; its body uses parameters only.
* `Function.make` — a function, or the first name that is out of scope.
* `Program` — a list of functions; calls go by name.
* `Program.lookup` — the one function with a name.
* `Program.text` — the program in surface notation, with a blank line between functions.
-/

namespace CostBound

/-- A function with the bound that is claimed for its cost. -/
structure Function where
  name : String
  params : List String
  body : Command
  bound : Expr
  /-- The body uses no other names. -/
  closed : ∀ x ∈ body.names, x ∈ params
deriving DecidableEq

namespace Function

/-- A function, if its body uses its parameters only. -/
def make (name : String) (params : List String) (body : Command) (bound : Expr) :
    Except ProgramError Function :=
  match h : body.names.find? (fun x => !decide (x ∈ params)) with
  | some stray => .error (.scope name stray params)
  | none => .ok ⟨name, params, body, bound, by
      intro x hx
      simpa using List.find?_eq_none.1 h x hx⟩

/-- The bound of a function that claims none. -/
def defaultBound : Expr := .int 1

/-- The same function with another bound. -/
def withBound (f : Function) (bound : Expr) : Function := { f with bound }

/-- The function in surface notation. -/
def text (f : Function) : String :=
  "def " ++ f.name ++ "(" ++ ", ".intercalate f.params ++ ") -> \"" ++ f.bound.text ++ "\":\n"
    ++ f.body.text 1

end Function

/-- A program: functions in the order of their definition. -/
structure Program where
  functions : List Function
deriving DecidableEq

namespace Program

/-- The function that a name stands for. -/
def lookup (p : Program) (name : String) : Except ProgramError Function :=
  match p.functions.filter (fun f => f.name = name) with
  | [] => .error (.undefinedFunction name)
  | [f] => .ok f
  | fs => .error (.ambiguousFunction name fs.length)

/-- Changes the claimed bounds. -/
def mapBounds (p : Program) (g : Function → Expr) : Program :=
  ⟨p.functions.map fun f => f.withBound (g f)⟩

/-- The program in surface notation. -/
def text (p : Program) : String := "\n".intercalate (p.functions.map Function.text)

end Program

end CostBound
