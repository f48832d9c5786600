import CostBound.Expr.Text

/-!
# Types of expressions

Every variable is an integer. An expression is an integer, a proposition, or ill-typed.

* `Expr.type?` — the type of an expression, or the first fault from the left.
* `Expr.expect` — the expression has the type asked for.
-/

namespace CostBound

/-- The type of a value. -/
inductive Ty where
  | int
  | bool
deriving DecidableEq, Repr, Inhabited

/-- The name of a type. -/
def Ty.text : Ty → String
  | .int => "Int"
  | .bool => "Bool"

/-- What is wrong with an ill-typed expression. -/
inductive TypeFault where
  | mismatch (expected found : Ty)
  | comparison (op : BinaryOp) (left right : Ty)
  | branches (yes no : Ty)
deriving DecidableEq, Repr, Inhabited

/-- The wording of a fault. -/
def TypeFault.message : TypeFault → String
  | .mismatch expected found => "expected " ++ expected.text ++ ", found " ++ found.text
  | .comparison op left right =>
      "`" ++ op.tag ++ "` compares " ++ left.text ++ " with " ++ right.text
  | .branches yes no =>
      "conditional branches disagree (" ++ yes.text ++ " vs " ++ no.text ++ ")"

/-- An ill-typed expression and its fault. -/
structure TypeError where
  expr : Expr
  fault : TypeFault
deriving DecidableEq, Repr, Inhabited

/-- The wording of the error. -/
def TypeError.message (e : TypeError) : String :=
  "cannot encode `" ++ e.expr.text ++ "`: " ++ e.fault.message

/-- The code of the error in a report. -/
def TypeError.code (_ : TypeError) : String := "tempo::verify::encode"

/-- The type that a unary operator takes and gives. -/
def UnaryOp.type : UnaryOp → Ty
  | .neg => .int
  | .not => .bool

/-- The type that both operands of an operator must have; equality takes any type, if it is the same. -/
def BinaryOp.operandType? : BinaryOp → Option Ty
  | .add | .sub | .mul | .mod | .le | .lt | .ge | .gt => some .int
  | .and | .or => some .bool
  | .eq | .ne => none

/-- The type of an operator's value. -/
def BinaryOp.resultType : BinaryOp → Ty
  | .add | .sub | .mul | .mod => .int
  | _ => .bool

namespace Expr

/-- Complains unless an expression's type is the one asked for. -/
def agree (e : Expr) (expected found : Ty) : Except TypeError Unit :=
  if found = expected then .ok () else .error ⟨e, .mismatch expected found⟩

/-- The type of an expression. -/
def type? : Expr → Except TypeError Ty
  | var _ => .ok .int
  | lit (.int _) => .ok .int
  | lit (.bool _) => .ok .bool
  | unary op e => do
      agree e op.type (← e.type?)
      return op.type
  | binary op l r =>
      match op.operandType? with
      | some t => do
          agree l t (← l.type?)
          agree r t (← r.type?)
          return op.resultType
      | none => do
          let left ← l.type?
          let right ← r.type?
          if left = right then return op.resultType
          else throw ⟨binary op l r, .comparison op left right⟩
  | cond c t e => do
      agree c .bool (← c.type?)
      let yes ← t.type?
      let no ← e.type?
      if yes = no then return yes
      else throw ⟨cond c t e, .branches yes no⟩

/-- The expression has the type asked for. -/
def expect (e : Expr) (expected : Ty) : Except TypeError Unit := do
  agree e expected (← e.type?)

end Expr

end CostBound
