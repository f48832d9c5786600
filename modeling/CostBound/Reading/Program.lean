import CostBound.Program
import CostBound.Reading.Expr
import CostBound.Token.Scan

/-!
# Reading programs

A program is a list of definitions. A definition has distinct parameters, at most one claimed bound and a block; a
block is a line end and statements between an `indent` and a `dedent`.

* `SourceError` — why a text is no program or expression.
* `Expr.ofSource`, `Expr.ofBoundText` — expressions from text; a bound that cannot be read counts as `1`.
* `TokenReader.block` — a block, as one command.
* `TokenReader.program` — a whole program.
* `Program.ofSource` — a program from text.
-/

namespace CostBound

/-- Why a text cannot be read. -/
inductive SourceError where
  | scan (error : ScanError)
  | parse (error : ParseError)
deriving DecidableEq, Repr, Inhabited

/-- The wording of the error. -/
def SourceError.message : SourceError → String
  | scan e => e.message
  | parse e => e.message

/-- The code of the error in a report. -/
def SourceError.code : SourceError → String
  | scan e => e.code
  | parse e => e.code

/-- The place of the error. -/
def SourceError.span : SourceError → Span
  | scan e => e.span
  | parse e => e.span

/-- Reads the tokens of a text. -/
def TokenReader.runOn {α : Type} (reader : TokenReader α) (source : String) : Except SourceError α := do
  let tokens ← (Token.scan source).mapError .scan
  let (value, _) ← (reader tokens).mapError .parse
  return value

/-- The expression that a text stands for. -/
def Expr.ofSource (source : String) : Except SourceError Expr := TokenReader.exprToEnd.runOn source

/-- The bound that the text after an arrow stands for. -/
def Expr.ofBoundText (text : String) : Expr :=
  match ofSource text with
  | .ok e => e
  | .error _ => Function.defaultBound

namespace TokenReader

/-! ### Lists in brackets -/

/-- Parameters after those `seen`; a comma may stand after the last one. -/
def parametersFrom (seen : List String) : TokenReader (List String)
  | [] => .error ⟨.endOfTokens, .origin⟩
  | t :: ts =>
      match t.kind with
      | .ident name =>
          if name ∈ seen then .error ⟨.duplicateParameter name, t.span⟩
          else
            match ts with
            | comma :: rest =>
                if comma.kind = .comma then
                  if rest.head?.map (·.kind) = some .rparen then .ok (seen ++ [name], rest)
                  else parametersFrom (seen ++ [name]) rest
                else .ok (seen ++ [name], comma :: rest)
            | [] => .ok (seen ++ [name], [])
      | _ => .error ⟨.noIdentifier, t.span⟩

/-- The parameters of a definition. -/
def parameters : TokenReader (List String) := do
  if (← peek?) = some .rparen then return [] else parametersFrom []

/-- One or more arguments, where `n` bounds the number of tokens left; a comma may stand after the last one. -/
def argumentsWithin : Nat → TokenReader (List Expr)
  | 0 => fail .endOfTokens .origin
  | n + 1 => do
      let e ← expr
      if (← peek?) = some .comma then
        let _ ← next
        if (← peek?) = some .rparen then return [e] else return e :: (← argumentsWithin n)
      else return [e]

/-- The arguments of a call. -/
def arguments : TokenReader (List Expr) := do
  if (← peek?) = some .rparen then return [] else bounded argumentsWithin

/-! ### Statements -/

/-- A call, to the end of its line. -/
def call : TokenReader Command := do
  let (callee, span) ← ident
  if (← peek?) = some .lparen then
    let _ ← next
    let args ← arguments
    let _ ← expect .rparen
    endOfLine
    return .call callee args
  else fail (.noCall callee) span

/-- What follows the block `yes` of an `if`: its alternatives or none. -/
def alternatives (arms : TokenReader Command) (block : TokenReader (Command × Span)) (test : Expr)
    (yes : Command) : TokenReader Command := do
  skipNewlines
  match ← peek? with
  | some .kwElif =>
      let _ ← next
      return .choose test yes (← arms)
  | some .kwElse =>
      let _ ← next
      let _ ← expect .colon
      let (no, _) ← block
      return .choose test yes no
  | _ => return .choose test yes .pass

mutual

/-- What follows `if` or `elif`, where `n` bounds the number of tokens left. -/
def branches : Nat → TokenReader Command
  | 0 => fail .endOfTokens .origin
  | n + 1 => do
      let test ← expr
      let _ ← expect .colon
      let (yes, _) ← block n
      alternatives (branches n) (block n) test yes

/-- A block as one command, and its place, where `n` bounds the number of tokens left. -/
def block : Nat → TokenReader (Command × Span)
  | 0 => fail .endOfTokens .origin
  | n + 1 => do
      let _ ← expect .newline
      let opening ← expect .indent
      let (commands, closing) ← statements opening.span n
      return (.seq commands, opening.span.join closing)

/-- The statements of the block that `opening` opens and the place of its end, where `n` bounds the number of
tokens left. -/
def statements (opening : Span) : Nat → TokenReader (List Command × Span)
  | 0 => fail .noStatement .origin
  | n + 1 => do
      match ← peek? with
      | some .newline =>
          let _ ← next
          statements opening n
      | some .dedent =>
          let closing ← next
          return ([], closing.span)
      | some .eof => fail .unterminatedBlock opening
      | some .kwPass =>
          let _ ← next
          endOfLine
          let (commands, closing) ← statements opening n
          return (.pass :: commands, closing)
      | some .kwIf =>
          let _ ← next
          let command ← branches n
          let (commands, closing) ← statements opening n
          return (command :: commands, closing)
      | some (.ident _) =>
          let command ← call
          let (commands, closing) ← statements opening n
          return (command :: commands, closing)
      | _ => failHere .noStatement

end

/-! ### Definitions -/

/-- The bound after an arrow; without one the function claims the default. -/
def claimedBound : TokenReader Expr := do
  if (← peek?) = some .arrow then
    let _ ← next
    let t ← next
    match t.kind with
    | .str text => return .ofBoundText text
    | _ => fail .noBound t.span
  else return Function.defaultBound

/-- A definition. -/
def definition : TokenReader Function := do
  let start ← expect .kwDef
  let (name, _) ← ident
  let _ ← expect .lparen
  let params ← parameters
  let _ ← expect .rparen
  let bound ← claimedBound
  let _ ← expect .colon
  let (body, span) ← bounded block
  match Function.make name params body bound with
  | .ok f => return f
  | .error e => fail (.illFormed e) (start.span.join span)

/-- Definitions to the end of the text, where `n` bounds the number of tokens left. -/
def definitions : Nat → TokenReader (List Function)
  | 0 => fail .noDefinition .origin
  | n + 1 => do
      match ← peek? with
      | some .newline =>
          let _ ← next
          definitions n
      | some .eof => return []
      | some .kwDef => return (← definition) :: (← definitions n)
      | _ => failHere .noDefinition

/-- A whole program; what follows the end of the text is not looked at. -/
def program : TokenReader Program := do
  return ⟨← bounded definitions⟩

end TokenReader

/-- The program that a text stands for. -/
def Program.ofSource (source : String) : Except SourceError Program := TokenReader.program.runOn source

end CostBound
