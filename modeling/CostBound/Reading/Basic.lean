import CostBound.ProgramError
import CostBound.Token.Basic

/-!
# Reading tokens

* `ParseFault`, `ParseError` — why a list of tokens is no program or expression, and where.
* `TokenReader` — takes tokens from the front of a list and gives a value or an error.
* `TokenReader.next`, `expect`, `skipNewlines`, … — the steps that the grammar is read with.
-/

namespace CostBound

/-- Why reading stopped. -/
inductive ParseFault where
  | endOfTokens
  | expected (kind : Token.Kind)
  | noDefinition
  | noStatement
  | noBound
  | noExpression
  | noIdentifier
  | noEndOfInput
  | noEndOfLine
  | unterminatedBlock
  | duplicateParameter (name : String)
  | noCall (name : String)
  | callInExpression (name : String)
  | chainedComparison
  | integerTooLarge (value : Nat)
  | stringValue
  | illFormed (error : ProgramError)
deriving DecidableEq, Repr, Inhabited

/-- The wording of a fault. -/
def ParseFault.message : ParseFault → String
  | .endOfTokens => "unexpected end of input"
  | .expected kind => "expected " ++ kind.name
  | .noDefinition => "expected the program to consist of function definitions"
  | .noStatement => "expected `pass`, `if`, or a function call"
  | .noBound => "expected a complexity annotation string after `->`"
  | .noExpression => "expected an expression"
  | .noIdentifier => "expected identifier"
  | .noEndOfInput => "expected end of input"
  | .noEndOfLine => "expected end of line"
  | .unterminatedBlock => "unterminated block; expected dedent"
  | .duplicateParameter name => "duplicate parameter `" ++ name ++ "`"
  | .noCall name => "`" ++ name ++ "` is not a statement; expected a function call"
  | .callInExpression name =>
      "calls to `" ++ name ++ "` are statements and cannot appear inside expressions"
  | .chainedComparison =>
      "chained comparisons are not supported; combine them with `and`"
  | .integerTooLarge value =>
      "integer literal " ++ toString value ++ " does not fit in a signed 64-bit integer"
  | .stringValue =>
      "string values are not supported; literals must be integers or booleans"
  | .illFormed error => error.message

/-- A fault and its place. -/
structure ParseError where
  fault : ParseFault
  span : Span
deriving DecidableEq, Repr, Inhabited

/-- The wording of the error. -/
def ParseError.message (e : ParseError) : String := "parse error: " ++ e.fault.message

/-- The code of the error in a report. -/
def ParseError.code (_ : ParseError) : String := "tempo::parse"

/-- Takes tokens from the front of a list. -/
abbrev TokenReader := StateT (List Token) (Except ParseError)

namespace TokenReader

/-- Stops with a fault at a place. -/
def fail {α : Type} (fault : ParseFault) (span : Span) : TokenReader α := fun _ => .error ⟨fault, span⟩

/-- Stops with a fault at the next token. -/
def failHere {α : Type} (fault : ParseFault) : TokenReader α
  | [] => .error ⟨fault, .origin⟩
  | t :: _ => .error ⟨fault, t.span⟩

/-- Takes the next token. -/
def next : TokenReader Token
  | [] => .error ⟨.endOfTokens, .origin⟩
  | t :: ts => .ok (t, ts)

/-- The kind of the next token, which is not taken. -/
def peek? : TokenReader (Option Token.Kind)
  | [] => .ok (none, [])
  | t :: ts => .ok (some t.kind, t :: ts)

/-- Takes the next token, which must be of a given kind. -/
def expect (kind : Token.Kind) : TokenReader Token := do
  let t ← next
  if t.kind = kind then return t else fail (.expected kind) t.span

/-- Takes a name. -/
def ident : TokenReader (String × Span) := do
  let t ← next
  match t.kind with
  | .ident name => return (name, t.span)
  | _ => fail .noIdentifier t.span

/-- Passes over line ends. -/
def skipNewlines : TokenReader Unit
  | [] => .ok ((), [])
  | t :: ts => if t.kind = .newline then skipNewlines ts else .ok ((), t :: ts)

/-- A statement ends with its line, or before the end of its block or of the text. -/
def endOfLine : TokenReader Unit
  | [] => .error ⟨.noEndOfLine, .origin⟩
  | t :: ts =>
      if t.kind = .newline then .ok ((), ts)
      else if t.kind = .dedent ∨ t.kind = .eof then .ok ((), t :: ts)
      else .error ⟨.noEndOfLine, t.span⟩

/-- Runs a reader that needs a bound on the number of tokens left. -/
def bounded {α : Type} (reader : Nat → TokenReader α) : TokenReader α := fun ts => reader ts.length ts

end TokenReader

end CostBound
