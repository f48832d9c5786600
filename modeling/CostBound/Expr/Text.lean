import CostBound.Expr.Basic

/-!
# The text of expressions

* `Expr.level` — how tightly the outermost operator of an expression binds, from `0` for `or` to `7` for
  names, literals and bracketed text.
* `Expr.text` — the expression in surface notation, with the fewest brackets that keep its shape. Operators
  nest to the left, comparisons do not chain, and a conditional always stands in brackets of its own.
-/

namespace CostBound

/-- Integers are written in decimal, truth values with a capital letter. -/
def Literal.text : Literal → String
  | .int n => toString n.toInt
  | .bool true => "True"
  | .bool false => "False"

namespace Expr

/-- How tightly the outermost operator binds. A negative literal is written with a sign. -/
def level : Expr → Nat
  | var _ => 7
  | lit (.int n) => if n < 0 then 6 else 7
  | lit (.bool _) => 7
  | unary op _ => op.level
  | binary op _ _ => op.level
  | cond _ _ _ => 7

/-- Puts a text in brackets if need be. -/
def bracket (needed : Bool) (text : String) : String :=
  if needed then "(" ++ text ++ ")" else text

/-- The expression in surface notation. -/
def text : Expr → String
  | var name => name
  | lit l => l.text
  | unary op e => op.symbol ++ bracket (e.level < op.level) e.text
  | binary op l r =>
      bracket (l.level < op.level || l.level == op.level && op.isComparison) l.text
        ++ " " ++ op.symbol ++ " " ++ bracket (r.level ≤ op.level) r.text
  | cond c t e => "(" ++ t.text ++ " if " ++ c.text ++ " else " ++ e.text ++ ")"

end Expr

end CostBound
