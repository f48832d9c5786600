/-!
# String literals

A string stands between two quotes of one kind. A backslash and the character after it belong together.

* `Quoted.body` — splits off what stands before the closing quote.
* `Quoted.decode` — the text that a body stands for; only six escapes are known.
-/

namespace CostBound.Quoted

/-- The two characters that open a string. -/
def isQuote (c : Char) : Bool := c = '"' || c = '\''

/-- Splits a text before the first quote that no backslash guards. A backslash at the very end is left over. -/
def body (quote : Char) : List Char → List Char × List Char
  | [] => ([], [])
  | ['\\'] => ([], ['\\'])
  | '\\' :: c :: cs =>
      let (inner, rest) := body quote cs
      ('\\' :: c :: inner, rest)
  | c :: cs =>
      if c = quote then ([], c :: cs)
      else
        let (inner, rest) := body quote cs
        (c :: inner, rest)

/-- The character that an escape stands for. -/
def escape? : Char → Option Char
  | 'n' => some '\n'
  | 't' => some '\t'
  | 'r' => some '\r'
  | '"' => some '"'
  | '\'' => some '\''
  | '\\' => some '\\'
  | _ => none

/-- The text that a body stands for. -/
def decode : List Char → Option (List Char)
  | [] => some []
  | ['\\'] => none
  | '\\' :: c :: cs =>
      match escape? c with
      | some d => (decode cs).map (d :: ·)
      | none => none
  | c :: cs => (decode cs).map (c :: ·)

theorem body_append (quote : Char) (cs : List Char) :
    (body quote cs).1 ++ (body quote cs).2 = cs := by
  fun_induction body quote cs <;> simp_all

end CostBound.Quoted
