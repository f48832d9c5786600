import CostBound.Query.Basic

/-!
# Queries as SMT-LIB scripts

* `Expr.term` — an expression as an SMT-LIB term.
* `Query.scriptLines` — the commands that declare the unknowns, assert the obligations and ask for values.
* `Query.script` — the text of the script, for a query whose formulas are propositions.
-/

namespace CostBound

/-- The operator's name in terms. -/
def BinaryOp.termSymbol : BinaryOp → String
  | .add => "+"
  | .sub => "-"
  | .mul => "*"
  | .mod => "mod"
  | .le => "<="
  | .lt => "<"
  | .ge => ">="
  | .gt => ">"
  | .eq => "="
  | .ne => "distinct"
  | .and => "and"
  | .or => "or"

/-- The operator's name in terms. -/
def UnaryOp.termSymbol : UnaryOp → String
  | .neg => "-"
  | .not => "not"

/-- A literal as a term; there are no negative numerals. -/
def Literal.term : Literal → String
  | .int n =>
      if n < 0 then "(- " ++ toString n.toInt.natAbs ++ ")" else toString n.toInt.natAbs
  | .bool true => "true"
  | .bool false => "false"

/-- The expression as a term. -/
def Expr.term : Expr → String
  | var name => name
  | lit l => l.term
  | unary op e => "(" ++ op.termSymbol ++ " " ++ e.term ++ ")"
  | binary op l r => "(" ++ op.termSymbol ++ " " ++ l.term ++ " " ++ r.term ++ ")"
  | cond c t e => "(ite " ++ c.term ++ " " ++ t.term ++ " " ++ e.term ++ ")"

/-- Declares an unknown and its least value. -/
def Unknown.scriptLines (u : Unknown) : List String :=
  ["(declare-const " ++ u.name ++ " Int)",
    "(assert (>= " ++ u.name ++ " " ++ toString u.kind.lowerBound ++ "))"]

namespace Obligation

/-- The formula for all values of the binders. -/
def closedTerm (o : Obligation) : String :=
  if o.binders.isEmpty then o.formula.term
  else
    "(forall (" ++ " ".intercalate (o.binders.map fun b => "(" ++ b ++ " Int)") ++ ") "
      ++ o.formula.term ++ ")"

/-- Asserts an obligation, after a comment with the name of its function. -/
def scriptLines (o : Obligation) : List String :=
  ["; " ++ o.function, "(assert " ++ o.closedTerm ++ ")"]

end Obligation

namespace Query

/-- The lines of a script. -/
def scriptLines (q : Query) : List String :=
  ["(set-option :produce-models true)", "(set-logic ALL)"]
    ++ q.unknowns.flatMap Unknown.scriptLines
    ++ q.obligations.flatMap Obligation.scriptLines
    ++ ["(check-sat)"]
    ++ if q.unknowns.isEmpty then []
      else ["(get-value (" ++ " ".intercalate (q.unknowns.map (·.name)) ++ "))"]

/-- The script of a query whose formulas are propositions. -/
def script (q : Query) : Except TypeError String := do
  q.check
  return String.join (q.scriptLines.map (· ++ "\n"))

end Query

end CostBound
