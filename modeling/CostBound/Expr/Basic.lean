import CostBound.Names
import CostBound.ProgramError

/-!
# Expressions

Costs, bounds and conditions are expressions over named integers and two truth values.

* `Expr` — variables, literals, operators and conditionals.
* `Expr.names` — the set of names that occur.
* `Expr.subst` — simultaneous replacement of variables; nothing is simplified and replacements are not
  entered again.
* `Expr.tagged₁`, `Expr.tagged₂` — operators chosen by their tag.
-/

namespace CostBound

/-- The constants of the language. -/
inductive Literal where
  | int (value : Int64)
  | bool (value : Bool)
deriving DecidableEq, Repr, Inhabited

/-- An expression. -/
inductive Expr where
  | var (name : String)
  | lit (value : Literal)
  | unary (op : UnaryOp) (operand : Expr)
  | binary (op : BinaryOp) (left right : Expr)
  | cond (test yes no : Expr)
deriving DecidableEq, Repr, Inhabited

/-- Assigns expressions to some names. -/
abbrev Substitution := String → Option Expr

/-- The substitution that a list of pairs describes; of two pairs for a name the later one counts. -/
def Substitution.ofPairs : List (String × Expr) → Substitution
  | [], _ => none
  | (name, e) :: pairs, x => (ofPairs pairs x).or (if x = name then some e else none)

namespace Expr

/-- An integer literal. -/
def int (n : Int64) : Expr := .lit (.int n)

/-- A truth value. -/
def bool (b : Bool) : Expr := .lit (.bool b)

/-- The unary operator with a tag, applied. -/
def tagged₁ (tag : String) (operand : Expr) : Except ProgramError Expr :=
  match UnaryOp.ofTag? tag with
  | some op => .ok (.unary op operand)
  | none => .error (.unknownOperator tag)

/-- The binary operator with a tag, applied. -/
def tagged₂ (tag : String) (left right : Expr) : Except ProgramError Expr :=
  match BinaryOp.ofTag? tag with
  | some op => .ok (.binary op left right)
  | none => .error (.unknownOperator tag)

/-- A choice between two propositions, without a conditional. -/
def choose (test yes no : Expr) : Expr :=
  .binary .or (.binary .and test yes) (.binary .and (.unary .not test) no)

/-- The disjunction of some propositions, nested to the right; of none it is false. -/
def disjunction : List Expr → Expr
  | [] => bool false
  | [e] => e
  | e :: es => .binary .or e (disjunction es)

/-- The names that occur in an expression. -/
def names : Expr → List String
  | var name => [name]
  | lit _ => []
  | unary _ e => e.names
  | binary _ l r => Names.union l.names r.names
  | cond c t e => Names.union c.names (Names.union t.names e.names)

/-- Replaces variables, all at once. -/
def subst (s : Substitution) : Expr → Expr
  | var name => (s name).getD (var name)
  | lit l => lit l
  | unary op e => unary op (e.subst s)
  | binary op l r => binary op (l.subst s) (r.subst s)
  | cond c t e => cond (c.subst s) (t.subst s) (e.subst s)

end Expr

end CostBound
