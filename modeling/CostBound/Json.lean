/-!
# JSON text

What is escaped in a text, and how the items of arrays and objects are laid out over lines, is as `serde_json` writes
them.

* `Json` — the values that reports are made of; the fields of an object keep their order.
* `Json.Style` — what stands around values: nothing, or line ends and two blanks for each level.
* `Json.write` — the text of a value.
-/

namespace CostBound

/-- A JSON value without fractions. -/
inductive Json where
  | str (value : String)
  | int (value : Int)
  | bool (value : Bool)
  | arr (items : List Json)
  | obj (fields : List (String × Json))
deriving Repr

namespace Json

/-- A hexadecimal digit, in lower case. -/
def hexDigit (n : Nat) : Char := if n < 10 then Char.ofNat (48 + n) else Char.ofNat (87 + n)

/-- A character within quotes. Quotes, backslashes and control characters are escaped. -/
def escape (c : Char) : List Char :=
  if c = '"' then ['\\', '"']
  else if c = '\\' then ['\\', '\\']
  else if c = '\n' then ['\\', 'n']
  else if c = '\r' then ['\\', 'r']
  else if c = '\t' then ['\\', 't']
  else if c = '\x08' then ['\\', 'b']
  else if c = '\x0c' then ['\\', 'f']
  else if c.toNat < 0x20 then
    ['\\', 'u', '0', '0', hexDigit (c.toNat / 16), hexDigit (c.toNat % 16)]
  else [c]

/-- A text within quotes. -/
def quote (s : String) : String := "\"" ++ String.ofList (s.toList.flatMap escape) ++ "\""

/-- What stands between the parts of a value. -/
structure Style where
  /-- Between the name of a field and its value. -/
  colon : String
  /-- Before a part at a given depth. -/
  newline : Nat → String

/-- All on one line, without blanks. -/
def Style.compact : Style := ⟨":", fun _ => ""⟩

/-- One part a line, two blanks for each level. -/
def Style.pretty : Style := ⟨": ", fun depth => "\n" ++ String.ofList (List.replicate (2 * depth) ' ')⟩

mutual

/-- The text of a value at a given depth. -/
def write (s : Style) (depth : Nat) : Json → String
  | str value => quote value
  | int value => toString value
  | bool value => if value then "true" else "false"
  | arr [] => "[]"
  | arr (x :: xs) => "[" ++ writeItems s (depth + 1) (x :: xs) ++ s.newline depth ++ "]"
  | obj [] => "\x7b\x7d"
  | obj (x :: xs) => "\x7b" ++ writeFields s (depth + 1) (x :: xs) ++ s.newline depth ++ "\x7d"

/-- The texts of the items of an array. -/
def writeItems (s : Style) (depth : Nat) : List Json → String
  | [] => ""
  | [x] => s.newline depth ++ write s depth x
  | x :: xs => s.newline depth ++ write s depth x ++ "," ++ writeItems s depth xs

/-- The texts of the fields of an object. -/
def writeFields (s : Style) (depth : Nat) : List (String × Json) → String
  | [] => ""
  | [(name, x)] => s.newline depth ++ quote name ++ s.colon ++ write s depth x
  | (name, x) :: xs =>
      s.newline depth ++ quote name ++ s.colon ++ write s depth x ++ "," ++ writeFields s depth xs

end

/-- The text on one line. -/
def compact (j : Json) : String := write .compact 0 j

/-- The text with one part a line. -/
def pretty (j : Json) : String := write .pretty 0 j

end Json

end CostBound
