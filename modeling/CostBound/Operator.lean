/-!
# Operators

* `UnaryOp`, `BinaryOp` — the operators of the language.
* `tag`, `ofTag?` — the name of an operator in tagged trees, and the way back, in any ASCII case.
* `symbol`, `level` — the sign of an operator in surface notation, and how tightly it binds.
* `ofTag?_tag` — every operator is found by its own tag.
-/

namespace CostBound

/-- The operators with one operand. -/
inductive UnaryOp where
  | neg
  | not
deriving DecidableEq, Repr, Inhabited

/-- The operators with two operands. -/
inductive BinaryOp where
  | add
  | sub
  | mul
  | mod
  | le
  | lt
  | ge
  | gt
  | eq
  | ne
  | and
  | or
deriving DecidableEq, Repr, Inhabited

namespace UnaryOp

/-- Every unary operator. -/
def all : List UnaryOp := [.neg, .not]

/-- The operator's name in tagged trees. -/
def tag : UnaryOp → String
  | .neg => "neg"
  | .not => "not"

/-- The operator with a given tag; ASCII case does not matter. -/
def ofTag? (tag : String) : Option UnaryOp :=
  all.find? (fun op => op.tag = tag.map Char.toLower)

/-- What is written before the operand. -/
def symbol : UnaryOp → String
  | .neg => "-"
  | .not => "not "

/-- How tightly an operator binds. -/
def level : UnaryOp → Nat
  | .not => 2
  | .neg => 6

theorem ofTag?_tag (op : UnaryOp) : ofTag? op.tag = some op := by
  cases op <;> decide +kernel

end UnaryOp

namespace BinaryOp

/-- Every binary operator. -/
def all : List BinaryOp := [.add, .sub, .mul, .mod, .le, .lt, .ge, .gt, .eq, .ne, .and, .or]

/-- The operator's name in tagged trees. -/
def tag : BinaryOp → String
  | .add => "add"
  | .sub => "sub"
  | .mul => "mult"
  | .mod => "ints_modulus"
  | .le => "leq"
  | .lt => "lt"
  | .ge => "geq"
  | .gt => "gt"
  | .eq => "equal"
  | .ne => "distinct"
  | .and => "and"
  | .or => "or"

/-- The operator with a given tag; ASCII case does not matter. -/
def ofTag? (tag : String) : Option BinaryOp :=
  all.find? (fun op => op.tag = tag.map Char.toLower)

/-- The sign that stands for an operator. -/
def symbol : BinaryOp → String
  | .add => "+"
  | .sub => "-"
  | .mul => "*"
  | .mod => "%"
  | .le => "<="
  | .lt => "<"
  | .ge => ">="
  | .gt => ">"
  | .eq => "=="
  | .ne => "!="
  | .and => "and"
  | .or => "or"

/-- How tightly an operator binds. -/
def level : BinaryOp → Nat
  | .or => 0
  | .and => 1
  | .le | .lt | .ge | .gt | .eq | .ne => 3
  | .add | .sub => 4
  | .mul | .mod => 5

/-- Takes integers to an integer. -/
def isArithmetic : BinaryOp → Bool
  | .add | .sub | .mul | .mod => true
  | _ => false

/-- Compares two values. -/
def isComparison : BinaryOp → Bool
  | .le | .lt | .ge | .gt | .eq | .ne => true
  | _ => false

/-- Takes truth values to a truth value. -/
def isLogical : BinaryOp → Bool
  | .and | .or => true
  | _ => false

theorem ofTag?_tag (op : BinaryOp) : ofTag? op.tag = some op := by
  cases op <;> decide +kernel

end BinaryOp

end CostBound
