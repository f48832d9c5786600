/-!
# Integer literals

A literal is decimal, or has the mark `0b`, `0o` or `0x` and digits of base 2, 8 or 16. Single underscores may
stand between digits.

* `Numeral.take` — splits off the longest literal.
* `Numeral.value?` — the number that some digits stand for, unless an underscore is misplaced or the number needs
  more than 64 bits.
-/

namespace CostBound.Numeral

/-- The value of a digit, in any base up to 16. -/
def digit? (c : Char) : Option Nat :=
  if '0' ≤ c ∧ c ≤ '9' then some (c.toNat - '0'.toNat)
  else if 'a' ≤ c ∧ c ≤ 'f' then some (c.toNat - 'a'.toNat + 10)
  else if 'A' ≤ c ∧ c ≤ 'F' then some (c.toNat - 'A'.toNat + 10)
  else none

/-- A digit of a base. -/
def isDigit (base : Nat) (c : Char) : Bool := (digit? c).any (· < base)

/-- A character that a literal of a base goes on with. -/
def continues (base : Nat) (c : Char) : Bool := c = '_' || isDigit base c

/-- The base that a mark announces. -/
def base? : Char → Option Nat
  | 'b' => some 2
  | 'o' => some 8
  | 'x' => some 16
  | _ => none

/-- A literal: its mark, its base and its digits. -/
structure Shape where
  mark : List Char
  base : Nat
  digits : List Char
deriving DecidableEq, Repr

/-- The whole text of a literal. -/
def Shape.text (s : Shape) : List Char := s.mark ++ s.digits

/-- Splits a literal without a mark off a text. -/
def takeDecimal (cs : List Char) : Shape × List Char :=
  (⟨[], 10, cs.takeWhile (continues 10)⟩, cs.dropWhile (continues 10))

/-- Splits the longest literal off a text that begins with a digit. A mark without digits is none. -/
def take : List Char → Shape × List Char
  | '0' :: m :: d :: cs =>
      match base? m with
      | some base =>
          if continues base d then
            (⟨['0', m], base, (d :: cs).takeWhile (continues base)⟩,
              (d :: cs).dropWhile (continues base))
          else takeDecimal ('0' :: m :: d :: cs)
      | none => takeDecimal ('0' :: m :: d :: cs)
  | cs => takeDecimal cs

/-- Two underscores stand next to each other. -/
def hasDoubleGap : List Char → Bool
  | '_' :: '_' :: _ => true
  | _ :: cs => hasDoubleGap cs
  | [] => false

/-- Underscores stand singly and between digits. -/
def wellGrouped (ds : List Char) : Bool :=
  !ds.isEmpty && ds.head? != some '_' && ds.getLast? != some '_' && !hasDoubleGap ds

/-- The number that digits stand for, underscores left out. -/
def positional (base : Nat) (ds : List Char) : Nat :=
  (ds.filterMap digit?).foldl (fun n d => n * base + d) 0

/-- The value of a literal, if it is well written and fits in 64 bits. -/
def value? (s : Shape) : Option Nat :=
  if wellGrouped s.digits ∧ positional s.base s.digits < UInt64.size then
    some (positional s.base s.digits)
  else none

theorem take_text_append (cs : List Char) : (take cs).1.text ++ (take cs).2 = cs := by
  unfold take
  split
  · split
    · split
      · simp [Shape.text, List.takeWhile_append_dropWhile]
      · simp [takeDecimal, Shape.text, List.takeWhile_append_dropWhile]
    · simp [takeDecimal, Shape.text, List.takeWhile_append_dropWhile]
  · simp [takeDecimal, Shape.text, List.takeWhile_append_dropWhile]

end CostBound.Numeral
