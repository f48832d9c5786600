import CostBound.Token.Basic
import CostBound.Token.Numeral
import CostBound.Token.Quoted

/-!
# Lexemes

A line of code is cut into lexemes, each as long as it can be.

* `Lexeme` — a stretch of text and what it is: a gap, a token or a fault.
* `Lexeme.first` — the lexeme at the front of a text.
* `Lexeme.all` — the lexemes of a line.
* `first_append` — a lexeme and what follows it are the text.
-/

namespace CostBound

/-- What is wrong with a source text. -/
inductive ScanFault where
  | tab
  | indentation
  | integer
  | string
  | unexpected
deriving DecidableEq, Repr, Inhabited

/-- The wording of a fault. -/
def ScanFault.message : ScanFault → String
  | .tab => "tabs are not allowed; use spaces"
  | .indentation => "inconsistent indentation"
  | .integer => "invalid integer literal"
  | .string => "invalid string literal"
  | .unexpected => "unexpected token"

namespace Lexeme

/-- What a stretch of text is. -/
inductive Meaning where
  | gap
  | token (kind : Token.Kind)
  | fault (fault : ScanFault)
deriving DecidableEq, Repr, Inhabited

end Lexeme

/-- A stretch of text, what it is, and what follows it. -/
structure Lexeme where
  text : List Char
  meaning : Lexeme.Meaning
  rest : List Char
deriving DecidableEq, Repr

namespace Lexeme

/-- Separates tokens within a line. -/
def isGap (c : Char) : Bool := c = ' ' || c = '\x0c' || c = '\r'

/-- Begins a word: an ASCII letter or an underscore. -/
def isWordStart (c : Char) : Bool := c.isAlpha || c = '_'

/-- Goes on with a word. -/
def isWordPart (c : Char) : Bool := c.isAlphanum || c = '_'

/-- The signs of one character. -/
def sign? : Char → Option Token.Kind
  | '<' => some .lt
  | '>' => some .gt
  | '+' => some .plus
  | '-' => some .minus
  | '*' => some .star
  | '%' => some .percent
  | ':' => some .colon
  | ',' => some .comma
  | '(' => some .lparen
  | ')' => some .rparen
  | _ => none

/-- The signs of two characters. -/
def sign₂? : Char → Char → Option Token.Kind
  | '-', '>' => some .arrow
  | '=', '=' => some .eqEq
  | '!', '=' => some .neq
  | '<', '=' => some .le
  | '>', '=' => some .ge
  | _, _ => none

/-- A string that `quote` has opened. Without its closing quote it is a fault that runs as far as the string
could. -/
def quoted (quote : Char) (cs : List Char) : Lexeme :=
  match Quoted.body quote cs with
  | (inner, c :: rest) =>
      if c = quote then
        match Quoted.decode inner with
        | some value =>
            ⟨quote :: inner ++ [c], .token (.str (String.ofList value)), rest⟩
        | none => ⟨quote :: inner ++ [c], .fault .string, rest⟩
      else ⟨quote :: inner, .fault .unexpected, c :: rest⟩
  | (inner, []) => ⟨quote :: inner, .fault .unexpected, []⟩

/-- An integer literal. -/
def numeral (cs : List Char) : Lexeme :=
  let taken := Numeral.take cs
  match Numeral.value? taken.1 with
  | some n => ⟨taken.1.text, .token (.int n), taken.2⟩
  | none => ⟨taken.1.text, .fault .integer, taken.2⟩

/-- A sign of one character. -/
def single (c : Char) (cs : List Char) : Lexeme :=
  match sign? c with
  | some kind => ⟨[c], .token kind, cs⟩
  | none => ⟨[c], .fault .unexpected, cs⟩

/-- A sign, of two characters if they make one. -/
def sign (c : Char) : List Char → Lexeme
  | d :: cs =>
      match sign₂? c d with
      | some kind => ⟨[c, d], .token kind, cs⟩
      | none => single c (d :: cs)
  | [] => single c []

/-- The longest lexeme at the front of a text. -/
def first (c : Char) (cs : List Char) : Lexeme :=
  if isGap c then ⟨[c], .gap, cs⟩
  else if isWordStart c then
    let word := c :: cs.takeWhile isWordPart
    ⟨word, .token (.ofWord (String.ofList word)), cs.dropWhile isWordPart⟩
  else if c.isDigit then numeral (c :: cs)
  else if Quoted.isQuote c then quoted c cs
  else sign c cs

theorem first_append (c : Char) (cs : List Char) : (first c cs).text ++ (first c cs).rest = c :: cs := by
  unfold first
  split
  · rfl
  · split
    · simp [List.takeWhile_append_dropWhile]
    · split
      · have h := Numeral.take_text_append (c :: cs)
        simp only [numeral]
        split <;> exact h
      · split
        · have h := Quoted.body_append c cs
          unfold quoted
          split
          · rename_i hb
            rw [hb] at h
            split
            · split <;> simpa using h
            · simpa using h
          · rename_i hb
            rw [hb] at h
            simpa using h
        · unfold sign single
          split
          · split
            · rfl
            · split <;> rfl
          · split <;> rfl

/-- The lexemes of a text, where `n` bounds the number of its characters. -/
def allWithin : Nat → List Char → List Lexeme
  | n + 1, c :: cs => first c cs :: allWithin n (first c cs).rest
  | _, _ => []

/-- The lexemes of a text. -/
def all (cs : List Char) : List Lexeme := allWithin cs.length cs

end Lexeme

end CostBound
