import CostBound.Expr.Text

/-!
# Commands

The body of a function is a command: it does nothing, calls a function, runs two commands in turn, or chooses
between two by a condition.

* `Command.seq` — a list of commands as one, nested to the right.
* `Command.names` — the names that its conditions and arguments use.
* `Command.text` — the command in surface notation, one statement a line.
-/

namespace CostBound

/-- The body of a function. -/
inductive Command where
  | pass
  | call (callee : String) (args : List Expr)
  | block (first second : Command)
  | choose (test : Expr) (yes no : Command)
deriving DecidableEq, Repr, Inhabited

namespace Command

/-- Runs commands in turn; of none it does nothing. -/
def seq : List Command → Command
  | [] => pass
  | [c] => c
  | c :: cs => block c (seq cs)

/-- The names that occur in conditions and arguments. -/
def names : Command → List String
  | pass => []
  | call _ args => Names.unions (args.map Expr.names)
  | block a b => Names.union a.names b.names
  | choose c a b => Names.union c.names (Names.union a.names b.names)

/-- The blanks before a statement at a given depth: four for each level. -/
def margin (depth : Nat) : String := String.ofList (List.replicate (4 * depth) ' ')

/-- The command in surface notation; an alternative that does nothing is left out. -/
def text (depth : Nat) : Command → String
  | pass => margin depth ++ "pass\n"
  | call callee args =>
      margin depth ++ callee ++ "(" ++ ", ".intercalate (args.map Expr.text) ++ ")\n"
  | block a b => a.text depth ++ b.text depth
  | choose c a b =>
      margin depth ++ "if " ++ c.text ++ ":\n" ++ a.text (depth + 1)
        ++ (if b = pass then "" else margin depth ++ "else:\n" ++ b.text (depth + 1))

end Command

end CostBound
