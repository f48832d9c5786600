/-!
# The characters of TOML

* `CharReader` — takes characters from the front of a text, or fails.
* `CharReader.blanks`, `newline`, `comment`, `endOfLine` — what stands between the parts of a document.
* `CharReader.string` — the four kinds of strings.
* `CharReader.key` — a bare or quoted key, or several with dots between them.
-/

namespace CostBound.Toml

/-- Takes characters from the front of a text. -/
abbrev CharReader := StateT (List Char) Option

namespace CharReader

/-! ### Steps -/

/-- The next character, which is not taken. -/
def peek? : CharReader (Option Char) := fun cs => some (cs.head?, cs)

/-- Takes a character that satisfies a test. -/
def one (test : Char → Bool) : CharReader Char
  | [] => none
  | c :: cs => if test c then some (c, cs) else none

/-- Takes one given character. -/
def char (c : Char) : CharReader Unit := do
  let _ ← one (· = c)

/-- Takes a given text. -/
def exactly (text : List Char) : CharReader Unit := fun cs =>
  if text.isPrefixOf cs then some ((), cs.drop text.length) else none

/-- Takes characters as long as they satisfy a test. -/
def many (test : Char → Bool) : CharReader (List Char) := fun cs =>
  some (cs.takeWhile test, cs.dropWhile test)

/-- Runs a reader that needs a bound on the number of characters left. -/
def bounded {α : Type} (reader : Nat → CharReader α) : CharReader α := fun cs => reader cs.length cs

/-! ### Between the parts of a document -/

/-- A space or a tab. -/
def isWhite (c : Char) : Bool := c = ' ' || c = '\t'

/-- A character that may be shown as it is: a tab or no control character. -/
def isShown (c : Char) : Bool := c = '\t' || 0x20 ≤ c.toNat && c.toNat ≠ 0x7f

/-- Passes over spaces and tabs. -/
def blanks : CharReader Unit := do
  let _ ← many isWhite

/-- Takes a line end; a carriage return stands only before a line feed. -/
def newline : CharReader Unit
  | '\n' :: cs => some ((), cs)
  | '\r' :: '\n' :: cs => some ((), cs)
  | _ => none

/-- Takes a comment, up to its line end. -/
def comment : CharReader Unit := do
  char '#'
  let _ ← many isShown

/-- Takes a line end or finds the end of the text. -/
def lineEnd : CharReader Unit
  | [] => some ((), [])
  | cs => newline cs

/-- What may follow on the line of a key or header. -/
def endOfLine : CharReader Unit := do
  blanks
  if (← peek?) = some '#' then comment
  lineEnd

/-- Passes over blanks, comments and line ends, where `n` bounds the number of characters left. -/
def gapWithin : Nat → CharReader Unit
  | 0 => return
  | n + 1 => do
      blanks
      match ← peek? with
      | some '#' =>
          comment
          newline
          gapWithin n
      | some '\n' | some '\r' =>
          newline
          gapWithin n
      | _ => return

/-- Passes over blanks, comments and line ends. -/
def gap : CharReader Unit := bounded gapWithin

/-! ### Strings -/

/-- The value of a hexadecimal digit. -/
def hexValue? (c : Char) : Option Nat :=
  if c.isDigit then some (c.toNat - '0'.toNat)
  else if 'a' ≤ c ∧ c ≤ 'f' then some (c.toNat - 'a'.toNat + 10)
  else if 'A' ≤ c ∧ c ≤ 'F' then some (c.toNat - 'A'.toNat + 10)
  else none

/-- A number of exactly so many hexadecimal digits, after those that make up `n`. -/
def hexFrom (n : Nat) : Nat → CharReader Nat
  | 0 => return n
  | k + 1 => do
      match hexValue? (← one fun _ => true) with
      | some d => hexFrom (16 * n + d) k
      | none => failure

/-- The character whose code point has so many hexadecimal digits. -/
def codePoint (digits : Nat) : CharReader Char := do
  let n ← hexFrom 0 digits
  if n.isValidChar then return Char.ofNat n else failure

/-- The character that an escape stands for, after its backslash. -/
def escape : CharReader Char := do
  match ← one fun _ => true with
  | 'b' => return '\x08'
  | 'f' => return '\x0c'
  | 'n' => return '\n'
  | 'r' => return '\r'
  | 't' => return '\t'
  | 'u' => codePoint 4
  | 'U' => codePoint 8
  | '\\' => return '\\'
  | '"' => return '"'
  | _ => failure

/-- The rest of a string on one line, where `n` bounds the number of characters left. Escapes are known between
double quotes only. -/
def inlineWithin (quote : Char) : Nat → CharReader (List Char)
  | 0 => failure
  | n + 1 => do
      let c ← one isShown
      if c = quote then return []
      else if c = '\\' ∧ quote = '"' then
        let c ← escape
        return c :: (← inlineWithin quote n)
      else return c :: (← inlineWithin quote n)

/-- A string on one line. -/
def inlineString (quote : Char) : CharReader String := do
  char quote
  return String.ofList (← bounded (inlineWithin quote))

/-- Passes over blanks and line ends, where `n` bounds the number of characters left. -/
def marginWithin : Nat → CharReader Unit
  | 0 => return
  | n + 1 => do
      blanks
      match ← peek? with
      | some '\n' | some '\r' => (do newline; marginWithin n) <|> return
      | _ => return

/-- A line end that a backslash hides, with all blanks and line ends after it. -/
def hiddenLineEnd : CharReader Unit := do
  blanks
  newline
  bounded marginWithin

/-- The rest of a string on several lines, where `n` bounds the number of characters left. One or two quotes are part
of the string, also right before the three that end it. -/
def blockWithin (quote : Char) : Nat → CharReader (List Char)
  | 0 => failure
  | n + 1 => do
      match ← peek? with
      | some '\n' | some '\r' =>
          newline
          return '\n' :: (← blockWithin quote n)
      | some c =>
          if c = quote then
            let run ← many (· = quote)
            if run.length < 3 then return run ++ (← blockWithin quote n)
            else if run.length ≤ 5 then return run.drop 3
            else failure
          else
            let c ← one isShown
            if c = '\\' ∧ quote = '"' then
              (do hiddenLineEnd; blockWithin quote n)
                <|> (do let c ← escape; return c :: (← blockWithin quote n))
            else return c :: (← blockWithin quote n)
      | none => failure

/-- A string on several lines; a line end right after its quotes does not count. -/
def blockString (quote : Char) : CharReader String := do
  exactly [quote, quote, quote]
  newline <|> return
  return String.ofList (← bounded (blockWithin quote))

/-- A string of any kind. -/
def string : CharReader String :=
  blockString '"' <|> inlineString '"' <|> blockString '\'' <|> inlineString '\''

/-! ### Keys -/

/-- A character of a bare key. -/
def isBare (c : Char) : Bool := c.isAlphanum || c = '_' || c = '-'

/-- A bare key or one in quotes. -/
def simpleKey : CharReader String := do
  match ← peek? with
  | some '"' => inlineString '"'
  | some '\'' => inlineString '\''
  | _ =>
      let name ← many isBare
      if name.isEmpty then failure else return String.ofList name

/-- Keys with dots between them, where `n` bounds the number of characters left. -/
def keysWithin : Nat → CharReader (List String)
  | 0 => failure
  | n + 1 => do
      blanks
      let k ← simpleKey
      blanks
      if (← peek?) = some '.' then
        char '.'
        return k :: (← keysWithin n)
      else return [k]

/-- The greatest depth of tables and arrays is below this. -/
def depthLimit : Nat := 80

/-- A key: the tables it leads through, and its last part. -/
def key : CharReader (List String × String) := do
  let keys ← bounded keysWithin
  match keys.getLast? with
  | some last => if keys.length < depthLimit then return (keys.dropLast, last) else failure
  | none => failure

end CharReader

end CostBound.Toml
