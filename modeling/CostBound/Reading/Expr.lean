import CostBound.Expr.Basic
import CostBound.Reading.Basic

/-!
# Reading expressions

From the loosest operator to the tightest: `or`, `and`, `not`, comparisons, sums, products, the minus sign,
and names, literals or brackets. Operators nest to the left and comparisons do not chain.

* `TokenReader.chain` — operands with operators between them.
* `TokenReader.signed` — any number of the same sign before an operand.
* `TokenReader.expr` — an expression; what follows it is left.
* `TokenReader.exprToEnd` — an expression, line ends and the end of the text.
-/

namespace CostBound

namespace Token.Kind

/-- The operator of a disjunction. -/
def disjunctive? : Kind → Option BinaryOp
  | kwOr => some .or
  | _ => none

/-- The operator of a conjunction. -/
def conjunctive? : Kind → Option BinaryOp
  | kwAnd => some .and
  | _ => none

/-- The operators of comparisons. -/
def comparative? : Kind → Option BinaryOp
  | eqEq => some .eq
  | neq => some .ne
  | lt => some .lt
  | gt => some .gt
  | le => some .le
  | ge => some .ge
  | _ => none

/-- The operators of sums. -/
def additive? : Kind → Option BinaryOp
  | plus => some .add
  | minus => some .sub
  | _ => none

/-- The operators of products. -/
def multiplicative? : Kind → Option BinaryOp
  | star => some .mul
  | percent => some .mod
  | _ => none

end Token.Kind

namespace TokenReader

/-- Goes on with a chain whose operands so far are `left`, where `n` bounds the number of tokens left. -/
def chainFrom (op? : Token.Kind → Option BinaryOp) (operand : TokenReader Expr) :
    Nat → Expr → TokenReader Expr
  | 0, left => return left
  | n + 1, left => do
      match (← peek?).bind op? with
      | some op =>
          let _ ← next
          chainFrom op? operand n (.binary op left (← operand))
      | none => return left

/-- Operands with operators between them, nested to the left. -/
def chain (op? : Token.Kind → Option BinaryOp) (operand : TokenReader Expr) : TokenReader Expr := do
  let left ← operand
  bounded fun n => chainFrom op? operand n left

/-- Any number of one sign before an operand. -/
def signed (sign : Token.Kind) (op : UnaryOp) (operand : TokenReader Expr) : TokenReader Expr
  | [] => operand []
  | t :: ts =>
      if t.kind = sign then do
        let (e, rest) ← signed sign op operand ts
        return (.unary op e, rest)
      else operand (t :: ts)

/-- One operand, or two with a comparison between them; a second comparison is a fault. -/
def comparison (operand : TokenReader Expr) : TokenReader Expr := do
  let left ← operand
  match (← peek?).bind Token.Kind.comparative? with
  | none => return left
  | some op =>
      let _ ← next
      let right ← operand
      match (← peek?).bind Token.Kind.comparative? with
      | none => return .binary op left right
      | some _ => failHere .chainedComparison

/-- All that can be built from atoms without brackets. -/
def expression (atom : TokenReader Expr) : TokenReader Expr :=
  chain Token.Kind.disjunctive? <| chain Token.Kind.conjunctive? <| signed .kwNot .not <|
    comparison <| chain Token.Kind.additive? <| chain Token.Kind.multiplicative? <|
      signed .minus .neg atom

/-- A name, a literal or an expression in brackets, where `n` bounds the number of tokens left. -/
def atom : Nat → TokenReader Expr
  | 0 => fail .endOfTokens .origin
  | n + 1 => do
      let t ← next
      match t.kind with
      | .ident name =>
          if (← peek?) = some .lparen then fail (.callInExpression name) t.span
          else return .var name
      | .int value =>
          if value < Int64.size / 2 then return .int (.ofNat value)
          else fail (.integerTooLarge value) t.span
      | .kwTrue => return .bool true
      | .kwFalse => return .bool false
      | .lparen =>
          let e ← expression (atom n)
          let _ ← expect .rparen
          return e
      | .str _ => fail .stringValue t.span
      | _ => fail .noExpression t.span

/-- An expression. -/
def expr : TokenReader Expr := bounded fun n => expression (atom n)

/-- An expression that ends the text, line ends apart. -/
def exprToEnd : TokenReader Expr := do
  let e ← expr
  skipNewlines
  if (← peek?) = some .eof then return e else failHere .noEndOfInput

end TokenReader

end CostBound
