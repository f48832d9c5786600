import CostBound.Text.Blank
import CostBound.Token.Lexeme

/-!
# From source text to tokens

A text is scanned line by line. Lines that hold nothing but white space and a comment are passed over. Any other
line ends in a `newline`, and the blanks before it are compared with those of the lines around it: deeper lines
stand between an `indent` and a `dedent`.

* `Scan.lines` — the lines of a text, each with its line feed.
* `Scan.code` — a line without its comment.
* `Scan.indentation` — the layout tokens that a change of width calls for.
* `Token.scanWith` — the tokens of a text, or its first fault; a parameter makes the spans from their ends.
* `Token.scan` — the same for spans from any two ends.
* `Scan.place`, `Scan.line`, `Scan.fromLines` — its steps, with equations of their own.
-/

namespace CostBound

/-- A fault of a source text and its place. -/
structure ScanError where
  fault : ScanFault
  span : Span
deriving DecidableEq, Repr, Inhabited

/-- The wording of the error. -/
def ScanError.message (e : ScanError) : String := "lex error: " ++ e.fault.message

/-- The code of the error in a report. -/
def ScanError.code (_ : ScanError) : String := "tempo::lex"

namespace Scan

/-- The lines of a text, each with its line feed. -/
def lines : List Char → List (List Char)
  | [] => []
  | c :: cs =>
      if c = '\n' then [c] :: lines cs
      else
        match lines cs with
        | [] => [[c]]
        | line :: rest => (c :: line) :: rest

/-- A list without a given last character. -/
def dropLastIf (c : Char) (cs : List Char) : List Char :=
  if cs.getLast? = some c then cs.dropLast else cs

/-- A line without its line ending, which is `\n` or `\r\n`. -/
def content (line : List Char) : List Char := dropLastIf '\r' (dropLastIf '\n' line)

/-- What stands before the first `#` outside of strings; `quote` is the quote that is open. -/
def codeIn : Option Char → List Char → List Char
  | _, [] => []
  | none, c :: cs =>
      if c = '#' then [] else c :: codeIn (if Quoted.isQuote c then some c else none) cs
  | some quote, '\\' :: c :: cs => '\\' :: c :: codeIn (some quote) cs
  | some quote, c :: cs => c :: codeIn (if c = quote then none else some quote) cs

/-- A line without its comment. -/
def code (cs : List Char) : List Char := codeIn none cs

/-- The number of blanks before the first other character. -/
def width (cs : List Char) : Nat := (cs.takeWhile (· = ' ')).length

/-- Compares the width of a line with the open widths, the innermost first. The result has the layout tokens
before the line and the widths that are open after them. A width between two open ones is a fault. -/
def indentation (opened : List Nat) (width : Nat) : Option (List Token.Kind × List Nat) :=
  let closing := opened.takeWhile (width < ·)
  let kept := opened.dropWhile (width < ·)
  if kept.headD 0 = width then some (List.replicate closing.length .dedent, kept)
  else if closing.isEmpty then some ([.indent], width :: kept)
  else none

/-- A line of white space, once its comment is removed. -/
def isEmptyLine (text : List Char) : Bool :=
  let shown := content text
  (code (shown.drop (width shown))).all Text.isBlank

section

variable {m : Type → Type} [Monad m] (span : Nat → Nat → m Span)

/-- The tokens of some lexemes, from an offset on. -/
def placeWith : Nat → List Lexeme → ExceptT ScanError m (List Token)
  | _, [] => return []
  | offset, l :: ls =>
      let stop := offset + utf8Length l.text
      match l.meaning with
      | .gap => placeWith stop ls
      | .token kind => do
          let here ← span offset stop
          return ⟨kind, here⟩ :: (← placeWith stop ls)
      | .fault fault => do throw ⟨fault, ← span offset stop⟩

/-- The tokens of a line that is not blank, and the widths that are open after it. -/
def lineWith (offset : Nat) (opened : List Nat) (text : List Char) :
    ExceptT ScanError m (List Token × List Nat) :=
  let stop := offset + utf8Length text
  let shown := content text
  let width := width shown
  if shown.contains '\t' then do throw ⟨.tab, ← span offset stop⟩
  else
    match indentation opened width with
    | none => do throw ⟨.indentation, ← span offset stop⟩
    | some (layout, opened) => do
        let margin ← span offset (offset + width)
        let tokens ← placeWith span (offset + width) (Lexeme.all (code (shown.drop width)))
        return (layout.map (⟨·, margin⟩) ++ tokens ++ [⟨.newline, ← span stop stop⟩], opened)

/-- The tokens of some lines, from an offset on. -/
def fromLinesWith : Nat → List Nat → List (List Char) → ExceptT ScanError m (List Token)
  | offset, opened, [] => do
      let here ← span offset offset
      return opened.map (fun _ => ⟨.dedent, here⟩) ++ [⟨.eof, here⟩]
  | offset, opened, text :: rest =>
      if isEmptyLine text then fromLinesWith (offset + utf8Length text) opened rest
      else do
        let (tokens, opened) ← lineWith span offset opened text
        return tokens ++ (← fromLinesWith (offset + utf8Length text) opened rest)

end

end Scan

/-- The tokens of a source text, or its first fault, with a way to make spans from where they start and stop. -/
def Token.scanWith {m : Type → Type} [Monad m] (span : Nat → Nat → m Span) (source : String) :
    m (Except ScanError (List Token)) :=
  (Scan.fromLinesWith span 0 [] (Scan.lines source.toList)).run

/-- The span between two ends, whatever their order. -/
def Span.unchecked (start stop : Nat) : Id Span := pure (between start stop)

/-- The tokens of a source text, or its first fault. -/
def Token.scan (source : String) : Except ScanError (List Token) := Id.run (scanWith .unchecked source)

/-! ### The steps of scanning -/

namespace Scan

/-- The tokens of some lexemes, with spans from any two ends. -/
def place (offset : Nat) (ls : List Lexeme) : Except ScanError (List Token) :=
  Id.run (placeWith .unchecked offset ls).run

/-- The tokens of a line that is not blank and the widths after it, with spans from any two ends. -/
def line (offset : Nat) (opened : List Nat) (text : List Char) : Except ScanError (List Token × List Nat) :=
  Id.run (lineWith .unchecked offset opened text).run

/-- The tokens of some lines, with spans from any two ends. -/
def fromLines (offset : Nat) (opened : List Nat) (ls : List (List Char)) : Except ScanError (List Token) :=
  Id.run (fromLinesWith .unchecked offset opened ls).run

/-- Steps that cannot fail to make a span stop for faults only. -/
theorem run_bind {α β : Type} (x : ExceptT ScanError Id α) (f : α → ExceptT ScanError Id β) :
    Id.run (x >>= f).run = Id.run x.run >>= fun a => Id.run (f a).run := by
  cases x <;> rfl

theorem place_cons (offset : Nat) (l : Lexeme) (ls : List Lexeme) :
    place offset (l :: ls) =
      match l.meaning with
      | .gap => place (offset + utf8Length l.text) ls
      | .token kind => do
          return ⟨kind, ⟨offset, utf8Length l.text⟩⟩ :: (← place (offset + utf8Length l.text) ls)
      | .fault fault => .error ⟨fault, ⟨offset, utf8Length l.text⟩⟩ := by
  rw [← Span.between_add]
  unfold place
  rw [placeWith]
  cases l.meaning with
  | gap => rfl
  | token kind =>
      dsimp only
      rw [run_bind]
      exact run_bind _ _
  | fault fault => rfl

theorem line_eq (offset : Nat) (opened : List Nat) (text : List Char) :
    line offset opened text =
      if (content text).contains '\t' then .error ⟨.tab, ⟨offset, utf8Length text⟩⟩
      else
        match indentation opened (width (content text)) with
        | none => .error ⟨.indentation, ⟨offset, utf8Length text⟩⟩
        | some (layout, opened) => do
            let tokens ← place (offset + width (content text))
              (Lexeme.all (code ((content text).drop (width (content text)))))
            return (layout.map (⟨·, ⟨offset, width (content text)⟩⟩) ++ tokens
              ++ [⟨.newline, ⟨offset + utf8Length text, 0⟩⟩], opened) := by
  rw [← Span.between_add, ← Span.between_add, ← Span.between_add (offset + utf8Length text) 0]
  unfold line place
  rw [lineWith]
  split
  · rfl
  · cases indentation opened (width (content text)) with
    | none => rfl
    | some p =>
        dsimp only
        rw [run_bind]
        exact run_bind _ _

theorem fromLines_nil (offset : Nat) (opened : List Nat) :
    fromLines offset opened [] = .ok (opened.map (fun _ => ⟨.dedent, ⟨offset, 0⟩⟩) ++ [⟨.eof, ⟨offset, 0⟩⟩]) := by
  rw [← Span.between_add]
  rfl

theorem fromLines_cons (offset : Nat) (opened : List Nat) (text : List Char) (rest : List (List Char)) :
    fromLines offset opened (text :: rest) =
      if isEmptyLine text then fromLines (offset + utf8Length text) opened rest
      else line offset opened text >>= fun p =>
        fromLines (offset + utf8Length text) p.2 rest >>= fun tokens => .ok (p.1 ++ tokens) := by
  unfold fromLines line
  rw [fromLinesWith]
  split
  · rfl
  · rw [run_bind]
    exact congrArg _ (funext fun p => run_bind _ _)

end Scan

theorem Token.scan_eq (source : String) : scan source = Scan.fromLines 0 [] (Scan.lines source.toList) := rfl

end CostBound
