import CostBound.Toml.Item
import CostBound.Toml.Text

/-!
# Numbers, dates and truth values of TOML

* `CharReader.moment` — a date, a time of day or both.
* `CharReader.float` — a number with a fraction or an exponent; one too large for 64 bits is refused.
* `CharReader.integer` — a decimal, hexadecimal, octal or binary integer of 64 bits.
* `CharReader.scalar` — a value without parts.
-/

namespace CostBound.Toml.CharReader

/-! ### Digits -/

/-- The value of a digit of a base. -/
def digitOf? (base : Nat) (c : Char) : Option Nat := (hexValue? c).filter (· < base)

/-- Further digits; an underscore may stand before each. -/
def moreDigits (base : Nat) : CharReader (List Nat)
  | [] => some ([], [])
  | '_' :: c :: cs =>
      match digitOf? base c with
      | some d => do
          let (ds, rest) ← moreDigits base cs
          return (d :: ds, rest)
      | none => some ([], '_' :: c :: cs)
  | c :: cs =>
      match digitOf? base c with
      | some d => do
          let (ds, rest) ← moreDigits base cs
          return (d :: ds, rest)
      | none => some ([], c :: cs)

/-- One digit of a base. -/
def digit (base : Nat) : CharReader Nat := do
  match digitOf? base (← one fun _ => true) with
  | some d => return d
  | none => failure

/-- One or more digits, which may begin with zeros. -/
def digits (base : Nat) : CharReader (List Nat) := do
  return (← digit base) :: (← moreDigits base)

/-- The number that digits stand for. -/
def numeral (base : Nat) (ds : List Nat) : Nat := ds.foldl (fun n d => n * base + d) 0

/-- A sign, if there is one; says whether it is a minus. -/
def sign : CharReader Bool := do
  match ← peek? with
  | some '-' => char '-'; return true
  | some '+' => char '+'; return false
  | _ => return false

/-- The whole part of a decimal number: no zeros stand before other digits. -/
def whole : CharReader (List Nat) := do
  let d ← digit 10
  if d = 0 then return [0] else return d :: (← moreDigits 10)

/-! ### Integers -/

/-- An integer, if it has 64 bits. -/
def word (n : Int) : CharReader Scalar :=
  if Int64.minValue.toInt ≤ n ∧ n ≤ Int64.maxValue.toInt then return .integer (.ofInt n) else failure

/-- An integer after the mark of its base. -/
def marked (mark : Char) (base : Nat) : CharReader Scalar := do
  exactly ['0', mark]
  word (numeral base (← digits base))

/-- A decimal integer. -/
def decimal : CharReader Scalar := do
  let negative ← sign
  let n : Int := numeral 10 (← whole)
  word (if negative then -n else n)

/-- An integer. -/
def integer : CharReader Scalar := marked 'x' 16 <|> marked 'o' 8 <|> marked 'b' 2 <|> decimal

/-! ### Floats -/

/-- The least number that is rounded up beyond the 64-bit floats: halfway from the greatest of them to the next step. -/
def floatLimit : Nat := Nat.pow 2 1024 - Nat.pow 2 970

/-- Whether `m * 10 ^ e` is rounded up beyond the 64-bit floats. Numbers far from the limit are told by their length. -/
def overflows (m : Nat) (e : Int) : Bool :=
  let places : Int := (Nat.toDigits 10 m).length + e
  if m = 0 ∨ places < 300 then false
  else if 320 < places then true
  else if 0 ≤ e then floatLimit ≤ m * Nat.pow 10 e.toNat
  else floatLimit * Nat.pow 10 (-e).toNat ≤ m

/-- The digits after a decimal point. -/
def fraction : CharReader (List Nat) := do
  char '.'
  digits 10

/-- A power of ten. -/
def exponent : CharReader Int := do
  let _ ← one fun c => c = 'e' || c = 'E'
  let negative ← sign
  let n : Int := numeral 10 (← digits 10)
  return if negative then -n else n

/-- A float in digits: with a fraction, an exponent or both. -/
def plainFloat : CharReader Scalar := do
  let negative ← sign
  let ds ← whole
  let (fs, e) ← (do return ([], ← exponent)) <|> (do
    let fs ← fraction
    return (fs, ← exponent <|> return 0))
  if !negative && overflows (numeral 10 (ds ++ fs)) (e - fs.length) then failure
  else return .float

/-- Infinity, or no number. -/
def specialFloat : CharReader Scalar := do
  let _ ← sign
  exactly ['i', 'n', 'f'] <|> exactly ['n', 'a', 'n']
  return .float

/-- A float. -/
def float : CharReader Scalar := plainFloat <|> specialFloat

/-! ### Dates and times -/

/-- A number of exactly so many decimal digits, after those that make up `n`. -/
def placesFrom (n : Nat) : Nat → CharReader Nat
  | 0 => return n
  | k + 1 => do placesFrom (10 * n + (← digit 10)) k

/-- A number of two digits within bounds. -/
def pair (least most : Nat) : CharReader Nat := do
  let n ← placesFrom 0 2
  if least ≤ n ∧ n ≤ most then return n else failure

/-- The number of days of a month. -/
def daysIn (year month : Nat) : Nat :=
  if month = 2 then
    if year % 4 = 0 ∧ (year % 100 ≠ 0 ∨ year % 400 = 0) then 29 else 28
  else if month ∈ [4, 6, 9, 11] then 30
  else 31

/-- A day of the calendar. -/
def date : CharReader Unit := do
  let year ← placesFrom 0 4
  char '-'
  let month ← pair 1 12
  char '-'
  let _ ← pair 1 (daysIn year month)

/-- A time of day, with a leap second if need be. -/
def time : CharReader Unit := do
  let _ ← pair 0 23
  char ':'
  let _ ← pair 0 59
  char ':'
  let _ ← pair 0 60
  (do char '.'
      let _ ← one Char.isDigit
      let _ ← many Char.isDigit) <|> return

/-- The distance of a clock from universal time. -/
def offset : CharReader Unit := do
  match ← one fun c => c = 'Z' || c = 'z' || c = '+' || c = '-' with
  | '+' | '-' =>
      let _ ← pair 0 23
      char ':'
      let _ ← pair 0 59
  | _ => return

/-- A date, a time of day or both. -/
def moment : CharReader Scalar := do
  (do date
      (do let _ ← one fun c => c = 'T' || c = 't' || c = ' '
          time
          offset <|> return) <|> return) <|> time
  return .moment

/-! ### Values without parts -/

/-- A truth value. -/
def boolean : CharReader Scalar :=
  (do exactly ['t', 'r', 'u', 'e']; return .boolean true)
    <|> (do exactly ['f', 'a', 'l', 's', 'e']; return .boolean false)

/-- A value without parts. -/
def scalar : CharReader Scalar :=
  (do return .string (← string)) <|> boolean <|> moment <|> float <|> integer

end CostBound.Toml.CharReader
