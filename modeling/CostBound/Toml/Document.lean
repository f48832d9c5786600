import CostBound.Toml.Scalar

/-!
# TOML documents

* `CharReader.value` — a value; arrays and inline tables nest below a fixed depth.
* `Toml.read` — the table that a document stands for.
-/

namespace CostBound.Toml

namespace CharReader

/-! ### Values -/

/-- The rest of an array, where `n` bounds the number of characters left; a comma may stand after the last item. -/
def arrayWithin (item : CharReader Item) : Nat → CharReader (List Item)
  | 0 => failure
  | n + 1 => do
      gap
      if (← peek?) = some ']' then
        char ']'
        return []
      else
        let x ← item
        gap
        if (← peek?) = some ',' then
          char ','
          return x :: (← arrayWithin item n)
        else
          char ']'
          return [x]

/-- A key and its value. -/
def assignment (item : CharReader Item) : CharReader ((List String × String) × Item) := do
  let k ← key
  char '='
  blanks
  return (k, ← item)

/-- The assignments of an inline table up to its end, where `n` bounds the number of characters left. -/
def inlineWithinBraces (item : CharReader Item) : Nat → Entries → CharReader Entries
  | 0, _ => failure
  | n + 1, entries => do
      let ((path, k), x) ← assignment item
      let entries ← (setDotted k x path entries : Option Entries)
      blanks
      if (← peek?) = some ',' then
        char ','
        inlineWithinBraces item n entries
      else
        char '\x7d'
        return entries

/-- The rest of an inline table. -/
def inlineTable (item : CharReader Item) : CharReader Entries := do
  blanks
  if (← peek?) = some '\x7d' then
    char '\x7d'
    return []
  else bounded fun n => inlineWithinBraces item n []

/-- A value in which arrays and inline tables nest at most so deep. -/
def value : Nat → CharReader Item
  | 0 => do return .scalar (← scalar)
  | depth + 1 => do
      match ← peek? with
      | some '[' =>
          char '['
          return .array (← bounded (arrayWithin (value depth)))
      | some '\x7b' =>
          char '\x7b'
          return .table .inline (← inlineTable (value depth))
      | _ => return .scalar (← scalar)

/-! ### Lines -/

/-- A document that is read in part: its entries, and the header that applies to the next keys. -/
structure Progress where
  entries : Entries
  header : List String

/-- A header in brackets. -/
def header (p : Progress) : CharReader Progress := do
  let (rows, path, k) ← (do
    exactly ['[', '[']
    let (path, k) ← key
    exactly [']', ']']
    return (true, path, k)) <|> (do
    char '['
    let (path, k) ← key
    char ']'
    return (false, path, k))
  endOfLine
  let opened : Option Entries :=
    if rows then openRow k path p.entries else openTable k path p.entries
  return ⟨← opened, path ++ [k]⟩

/-- A key and its value on a line. -/
def setting (p : Progress) : CharReader Progress := do
  let ((path, k), x) ← assignment (value (depthLimit - 1))
  endOfLine
  return { p with entries := ← (atHeader (setDotted k x path) p.header p.entries : Option Entries) }

/-- The rest of a document, where `n` bounds the number of characters left. -/
def linesWithin : Nat → Progress → CharReader Entries
  | 0, p => return p.entries
  | n + 1, p => do
      blanks
      match ← peek? with
      | none => return p.entries
      | some '#' =>
          comment
          lineEnd
          linesWithin n p
      | some '\n' | some '\r' =>
          newline
          linesWithin n p
      | some '[' => linesWithin n (← header p)
      | some _ => linesWithin n (← setting p)

end CharReader

/-- A text without the mark of its byte order. -/
def dropMark : List Char → List Char
  | '\ufeff' :: cs => cs
  | cs => cs

/-- The table that a document stands for. -/
def read (source : String) : Option Entries := do
  let cs := dropMark source.toList
  let (entries, _) ← CharReader.linesWithin cs.length ⟨[], []⟩ cs
  return entries

end CostBound.Toml
