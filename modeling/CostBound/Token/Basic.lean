import CostBound.Span

/-!
# Tokens

* `Token.Kind` — what a token is; names and literals carry their value.
* `Token` — a kind and the place it was found.
* `Kind.isLayout` — the tokens that stand for line ends and indentation.
-/

namespace CostBound

/-- What a token is. -/
inductive Token.Kind where
  | kwDef
  | kwIf
  | kwElif
  | kwElse
  | kwPass
  | kwAnd
  | kwOr
  | kwNot
  | kwTrue
  | kwFalse
  | arrow
  | colon
  | comma
  | eqEq
  | neq
  | lt
  | gt
  | le
  | ge
  | plus
  | minus
  | star
  | percent
  | lparen
  | rparen
  | newline
  | indent
  | dedent
  | eof
  | ident (name : String)
  | int (value : Nat)
  | str (value : String)
deriving DecidableEq, Repr, Inhabited

/-- A token and its place in the source. -/
structure Token where
  kind : Token.Kind
  span : Span
deriving DecidableEq, Repr, Inhabited

namespace Token.Kind

/-- The name of a kind in messages. -/
def name : Kind → String
  | kwDef => "KwDef"
  | kwIf => "KwIf"
  | kwElif => "KwElif"
  | kwElse => "KwElse"
  | kwPass => "KwPass"
  | kwAnd => "KwAnd"
  | kwOr => "KwOr"
  | kwNot => "KwNot"
  | kwTrue => "KwTrue"
  | kwFalse => "KwFalse"
  | arrow => "Arrow"
  | colon => "Colon"
  | comma => "Comma"
  | eqEq => "EqEq"
  | neq => "Neq"
  | lt => "Lt"
  | gt => "Gt"
  | le => "Le"
  | ge => "Ge"
  | plus => "Plus"
  | minus => "Minus"
  | star => "Star"
  | percent => "Percent"
  | lparen => "LParen"
  | rparen => "RParen"
  | newline => "Newline"
  | indent => "Indent"
  | dedent => "Dedent"
  | eof => "Eof"
  | ident _ => "Ident"
  | int _ => "Int"
  | str _ => "String"

/-- The kinds that carry no value. -/
def plain : List Kind :=
  [kwDef, kwIf, kwElif, kwElse, kwPass, kwAnd, kwOr, kwNot, kwTrue, kwFalse, arrow, colon, comma, eqEq,
    neq, lt, gt, le, ge, plus, minus, star, percent, lparen, rparen, newline, indent, dedent, eof]

/-- The kind without a value that has a given name. -/
def ofName? (name : String) : Option Kind := plain.find? fun k => k.name = name

/-- The kinds that stand for line ends, indentation and the end of the text. -/
def isLayout : Kind → Bool
  | newline | indent | dedent | eof => true
  | _ => false

/-- The words that are no names. -/
def keywords : List (String × Kind) :=
  [("def", kwDef), ("if", kwIf), ("elif", kwElif), ("else", kwElse), ("pass", kwPass), ("and", kwAnd),
    ("or", kwOr), ("not", kwNot), ("True", kwTrue), ("False", kwFalse)]

/-- What a word is: a keyword or a name. -/
def ofWord (word : String) : Kind := (keywords.lookup word).getD (ident word)

end Token.Kind

end CostBound
