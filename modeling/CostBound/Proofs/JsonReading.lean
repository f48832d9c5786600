import CostBound.Json
import Mathlib.Tactic.SplitIfs

/-!
# Reading JSON texts

A strict reader of JSON, and what it makes of written values. It knows nothing of how values are written: white space
may stand between any two parts, a character may be escaped by a letter or by its code point, and what JSON forbids is
refused (a control character within quotes, a needless zero, a comma after the last item).

* `Json.front?` — the value at the front of a text, and the rest; `Json.ofText?` — the value of a whole text.
* `chars?_escape`, `text?_flatMap_escape` — escaped characters and quoted texts.
* `int?_toString` — numbers.
* `items?_intercalate`, `list?_intercalate` — one item after another, up to the closing bracket.
* `Style.Neutral` — only white space is added between the parts of a value; `front?_write` — a value that is written
  in such a style is read back.
-/

namespace CostBound.Json

variable {α : Type}

/-! ### The reader -/

/-- White space between the parts of a value. -/
def isSpace (c : Char) : Bool := c = ' ' || c = '\n' || c = '\r' || c = '\t'

/-- A text without the white space in front. -/
def skip (cs : List Char) : List Char := cs.dropWhile isSpace

/-- What follows a mark; white space may stand before the mark. -/
def after? (mark : Char) (cs : List Char) : Option (List Char) :=
  if (skip cs).head? = some mark then some (skip cs).tail else none

/-- The value of a hexadecimal digit. -/
def hexValue? (c : Char) : Option Nat :=
  if '0' ≤ c ∧ c ≤ '9' then some (c.toNat - 48)
  else if 'a' ≤ c ∧ c ≤ 'f' then some (c.toNat - 87)
  else if 'A' ≤ c ∧ c ≤ 'F' then some (c.toNat - 55)
  else none

/-- The character with a code point of four hexadecimal digits. -/
def unicode? (a b c d : Char) : Option Char := do
  let code := (((← hexValue? a) * 16 + (← hexValue? b)) * 16 + (← hexValue? c)) * 16 + (← hexValue? d)
  if code.isValidChar then some (Char.ofNat code) else none

/-- The character that a letter stands for after a backslash. -/
def unescape? (c : Char) : Option Char :=
  if c = '"' ∨ c = '\\' ∨ c = '/' then some c
  else if c = 'b' then some '\x08'
  else if c = 'f' then some '\x0c'
  else if c = 'n' then some '\n'
  else if c = 'r' then some '\r'
  else if c = 't' then some '\t'
  else none

/-- The characters up to the closing quote, and what follows it. -/
def chars? : List Char → Option (List Char × List Char)
  | [] => none
  | c :: cs =>
      if c = '"' then some ([], cs)
      else if c = '\\' then
        match cs with
        | 'u' :: h₁ :: h₂ :: h₃ :: h₄ :: cs => do
            let c ← unicode? h₁ h₂ h₃ h₄
            (chars? cs).map (Prod.map (c :: ·) id)
        | e :: cs => do
            let c ← unescape? e
            (chars? cs).map (Prod.map (c :: ·) id)
        | [] => none
      else if c.toNat < 0x20 then none
      else (chars? cs).map (Prod.map (c :: ·) id)

/-- A text, from after its opening quote. -/
def text? (cs : List Char) : Option (String × List Char) := (chars? cs).map (Prod.map String.ofList id)

/-- A natural number. A zero stands in front of no other digit. -/
def nat? (cs : List Char) : Option (Nat × List Char) :=
  let digits := cs.takeWhile Char.isDigit
  if digits = [] ∨ digits.head? = some '0' ∧ digits ≠ ['0'] then none
  else some (Nat.ofDigitChars 10 digits 0, cs.dropWhile Char.isDigit)

/-- An integer. -/
def int? (cs : List Char) : Option (Int × List Char) :=
  if cs.head? = some '-' then (nat? cs.tail).map (Prod.map (fun n => -Int.ofNat n) id)
  else (nat? cs).map (Prod.map Int.ofNat id)

/-- One or more items with commas between them, up to the closing bracket. `n` bounds the number of items. -/
def items? (item : List Char → Option (α × List Char)) (close : Char) :
    Nat → List Char → Option (List α × List Char)
  | 0, _ => none
  | n + 1, cs => do
      let (x, cs) ← item (skip cs)
      (after? close cs).map ([x], ·) <|> do
        let cs ← after? ',' cs
        (items? item close n cs).map (Prod.map (x :: ·) id)

/-- The items of a list, from after its opening bracket. -/
def list? (item : List Char → Option (α × List Char)) (close : Char) (cs : List Char) :
    Option (List α × List Char) :=
  (after? close cs).map ([], ·) <|> items? item close cs.length cs

/-- A name, a colon and a value. -/
def field? (value : List Char → Option (Json × List Char)) (cs : List Char) :
    Option ((String × Json) × List Char) := do
  let (name, cs) ← text? (← after? '"' cs)
  let (x, cs) ← value (skip (← after? ':' cs))
  some ((name, x), cs)

/-- A value. `n` bounds the number of values that lie within one another. -/
def value? : Nat → List Char → Option (Json × List Char)
  | 0, _ => none
  | n + 1, cs =>
      if cs.head? = some '"' then (text? cs.tail).map (Prod.map str id)
      else if cs.head? = some '[' then (list? (value? n) ']' cs.tail).map (Prod.map arr id)
      else if cs.head? = some '\x7b' then (list? (field? (value? n)) '\x7d' cs.tail).map (Prod.map obj id)
      else if "true".toList.isPrefixOf cs then some (bool true, cs.drop 4)
      else if "false".toList.isPrefixOf cs then some (bool false, cs.drop 5)
      else (int? cs).map (Prod.map int id)

/-- The value at the front of a text, and what follows it. -/
def front? (cs : List Char) : Option (Json × List Char) := value? cs.length cs

/-- The value that a text consists of, with white space around it. -/
def ofText? (text : String) : Option Json := do
  let (x, cs) ← front? (skip text.toList)
  if (skip cs).isEmpty then some x else none

/-! ### White space and marks -/

theorem skip_append {blanks : List Char} (h : ∀ c ∈ blanks, isSpace c = true) (rest : List Char) :
    skip (blanks ++ rest) = skip rest :=
  List.dropWhile_append_of_pos h

theorem skip_cons {c : Char} (h : isSpace c = false) (rest : List Char) : skip (c :: rest) = c :: rest :=
  List.dropWhile_cons_of_neg (by simp [h])

theorem after?_mark {blanks : List Char} (h : ∀ c ∈ blanks, isSpace c = true) {mark : Char}
    (hmark : isSpace mark = false) (rest : List Char) : after? mark (blanks ++ mark :: rest) = some rest := by
  unfold after?
  rw [skip_append h, skip_cons hmark]
  exact if_pos rfl

theorem after?_self {mark : Char} (hmark : isSpace mark = false) (rest : List Char) :
    after? mark (mark :: rest) = some rest :=
  after?_mark (List.forall_mem_nil _) hmark rest

theorem after?_other {mark other : Char} (hother : isSpace other = false) (hne : other ≠ mark) (rest : List Char) :
    after? mark (other :: rest) = none := by
  unfold after?
  rw [skip_cons hother]
  exact if_neg fun h => hne (Option.some.inj h)

theorem skip_eq_cons_of_after? {mark : Char} {cs rest : List Char} (h : after? mark cs = some rest) :
    skip cs = mark :: rest := by
  unfold after? at h
  split at h
  · rename_i hhead
    obtain ⟨mid, hmid⟩ := List.head?_eq_some_iff.1 hhead
    rw [hmid] at h ⊢
    rw [← Option.some.inj h]
    rfl
  · exact absurd h (by simp)

/-! ### Texts -/

theorem hexValue?_hexDigit : ∀ {n : Nat}, n < 16 → hexValue? (hexDigit n) = some n := by
  decide

theorem unicode?_hexDigit {c : Char} (h : c.toNat < 0x20) :
    unicode? '0' '0' (hexDigit (c.toNat / 16)) (hexDigit (c.toNat % 16)) = some c := by
  have hzero : hexValue? '0' = some 0 := rfl
  have hcode : ((0 * 16 + 0) * 16 + c.toNat / 16) * 16 + c.toNat % 16 = c.toNat := by omega
  have hvalid : c.toNat.isValidChar := c.valid
  unfold unicode?
  simp only [hzero, hexValue?_hexDigit (show c.toNat / 16 < 16 by omega),
    hexValue?_hexDigit (show c.toNat % 16 < 16 by omega), Option.bind_eq_bind, Option.bind_some, hcode, if_pos hvalid,
    Char.ofNat_toNat]

/-- An escaped character is read back, whatever follows. -/
theorem chars?_escape (c : Char) (rest : List Char) :
    chars? (escape c ++ rest) = (chars? rest).map (Prod.map (c :: ·) id) := by
  unfold escape
  split_ifs with hquote hback hfeed hreturn htab hbackspace hform hcontrol
  · subst hquote; rfl
  · subst hback; rfl
  · subst hfeed; rfl
  · subst hreturn; rfl
  · subst htab; rfl
  · subst hbackspace; rfl
  · subst hform; rfl
  · show ((unicode? '0' '0' _ _) >>= fun c => (chars? rest).map (Prod.map (c :: ·) id)) = _
    rw [unicode?_hexDigit hcontrol]
    rfl
  · rw [List.singleton_append, chars?.eq_def]
    exact (if_neg hquote).trans ((if_neg hback).trans (if_neg hcontrol))

theorem chars?_flatMap_escape (cs rest : List Char) :
    chars? (cs.flatMap escape ++ '"' :: rest) = some (cs, rest) := by
  induction cs with
  | nil =>
      rw [List.flatMap_nil, List.nil_append, chars?.eq_def]
      exact if_pos rfl
  | cons c cs ih => rw [List.flatMap_cons, List.append_assoc, chars?_escape, ih]; rfl

/-- A quoted text is read back, whatever follows. -/
theorem text?_flatMap_escape (s : String) (rest : List Char) :
    text? (s.toList.flatMap escape ++ '"' :: rest) = some (s, rest) := by
  unfold text?
  rw [chars?_flatMap_escape]
  exact congrArg some (Prod.ext String.ofList_toList rfl)

/-! ### Numbers -/

/-- A text that does not go on with a digit. -/
def Stops (rest : List Char) : Prop := ∀ c ∈ rest.head?, c.isDigit = false

theorem stops_nil : Stops [] := fun _ h => by cases h

theorem stops_cons {c : Char} (h : c.isDigit = false) (cs : List Char) : Stops (c :: cs) := by
  intro d hd
  rw [← Option.some.inj hd]
  exact h

theorem isDigit_of_isSpace {c : Char} (h : isSpace c = true) : c.isDigit = false := by
  simp only [isSpace, Bool.or_eq_true, decide_eq_true_eq] at h
  obtain ((rfl | rfl) | rfl) | rfl := h <;> rfl

theorem stops_append {blanks : List Char} (h : ∀ c ∈ blanks, isSpace c = true) {rest : List Char} (hrest : Stops rest) :
    Stops (blanks ++ rest) := by
  cases blanks with
  | nil => exact hrest
  | cons c blanks => exact stops_cons (isDigit_of_isSpace (h c List.mem_cons_self)) (blanks ++ rest)

theorem Stops.takeWhile {rest : List Char} (h : Stops rest) : rest.takeWhile Char.isDigit = [] := by
  cases rest with
  | nil => rfl
  | cons c rest => exact List.takeWhile_cons_of_neg (by simp [h c rfl])

theorem Stops.dropWhile {rest : List Char} (h : Stops rest) : rest.dropWhile Char.isDigit = rest := by
  cases rest with
  | nil => rfl
  | cons c rest => exact List.dropWhile_cons_of_neg (by simp [h c rfl])

/-- The decimal digits of a number begin with a zero only for zero. -/
theorem toDigits_of_head? {n : Nat} (h : (Nat.toDigits 10 n).head? = some '0') : Nat.toDigits 10 n = ['0'] := by
  induction n using Nat.strongRecOn with
  | ind n ih =>
      by_cases hn : n < 10
      · rw [Nat.toDigits_of_lt_base hn] at h ⊢
        rw [Option.some.inj h]
      · -- all digits but the last are those of the tenth part, which is not zero
        have hsplit := Nat.toDigits_of_base_le (b := 10) (n := n) (by omega) (by omega)
        rw [hsplit, List.head?_append, Option.or_of_isSome (by simp [Nat.toDigits_ne_nil])] at h
        have hzero : n / 10 = 0 := by
          rw [← Nat.ofDigitChars_ten_toDigits (n := n / 10), ih (n / 10) (by omega) h]
          rfl
        omega

theorem nat?_repr (n : Nat) {rest : List Char} (h : Stops rest) : nat? (n.repr.toList ++ rest) = some (n, rest) := by
  have hdigits : ∀ c ∈ Nat.toDigits 10 n, c.isDigit = true :=
    fun c hc => Nat.isDigit_of_mem_toDigits (by omega) (by omega) hc
  have hproper : ¬ (Nat.toDigits 10 n = [] ∨ (Nat.toDigits 10 n).head? = some '0' ∧ Nat.toDigits 10 n ≠ ['0']) := by
    rintro (hnil | ⟨hhead, hne⟩)
    · exact Nat.toDigits_ne_nil hnil
    · exact hne (toDigits_of_head? hhead)
  unfold nat?
  rw [Nat.toList_repr, List.takeWhile_append_of_pos hdigits, List.dropWhile_append_of_pos hdigits, h.takeWhile,
    h.dropWhile, List.append_nil]
  exact (if_neg hproper).trans (by rw [Nat.ofDigitChars_ten_toDigits])

theorem exists_repr_eq_cons (n : Nat) : ∃ d ds, n.repr.toList = d :: ds ∧ d.isDigit = true := by
  rw [Nat.toList_repr]
  cases hd : Nat.toDigits 10 n with
  | nil => exact absurd hd Nat.toDigits_ne_nil
  | cons d ds =>
      refine ⟨d, ds, rfl, Nat.isDigit_of_mem_toDigits (b := 10) (n := n) (by omega) (by omega) ?_⟩
      rw [hd]
      exact List.mem_cons_self

theorem toList_toString_negSucc (n : Nat) : (toString (Int.negSucc n)).toList = '-' :: (n + 1).repr.toList := by
  show ("-" ++ (n + 1).repr).toList = _
  rw [String.toList_append]
  rfl

/-- A number is read back if no digit follows. -/
theorem int?_toString (i : Int) {rest : List Char} (h : Stops rest) :
    int? ((toString i).toList ++ rest) = some (i, rest) := by
  unfold int?
  cases i with
  | ofNat n =>
      show (if (n.repr.toList ++ rest).head? = some '-' then _ else (nat? (n.repr.toList ++ rest)).map _) = _
      have hunsigned : (n.repr.toList ++ rest).head? ≠ some '-' := by
        obtain ⟨d, ds, heq, hd⟩ := exists_repr_eq_cons n
        rw [heq]
        rintro ⟨⟩
        cases hd
      rw [if_neg hunsigned, nat?_repr n h]
      rfl
  | negSucc n =>
      rw [toList_toString_negSucc, List.cons_append, List.head?_cons, if_pos rfl, List.tail_cons, nat?_repr (n + 1) h]
      rfl

/-! ### Lists -/

theorem length_le_intercalate (sep : List α) {texts : List (List α)} {text : List α} (h : text ∈ texts) :
    text.length ≤ (sep.intercalate texts).length := by
  induction texts with
  | nil => cases h
  | cons t texts ih =>
      cases texts with
      | nil =>
          refine Nat.le_of_eq ?_
          rw [List.mem_singleton.1 h, List.intercalate_singleton]
      | cons t' texts =>
          rw [List.intercalate_cons_cons]
          simp only [List.length_append]
          obtain rfl | h := List.mem_cons.1 h
          · omega
          · have := ih h
            omega

/-- There is a mark between any two parts. -/
theorem length_le_intercalate_singleton (mark : α) (texts : List (List α)) :
    texts.length ≤ ([mark].intercalate texts).length + 1 := by
  induction texts with
  | nil => exact Nat.zero_le _
  | cons text texts ih =>
      cases texts with
      | nil => exact Nat.le_add_left 1 _
      | cons text' texts =>
          rw [List.intercalate_cons_cons]
          simp only [List.length_append, List.length_cons, List.length_nil] at ih ⊢
          omega

section Lists

variable {item : List Char → Option (α × List Char)} {text : α → List Char} {close : Char} {blanks : List Char}
  {xs : List α}

/-- Items are read one after the other, if each of them is read back before any text that does not go on with a
digit. -/
theorem items?_intercalate (hclose : close = ']' ∨ close = '\x7d') (hblanks : ∀ c ∈ blanks, isSpace c = true)
    (hitem : ∀ x ∈ xs, ∀ rest, Stops rest → item (skip (text x ++ rest)) = some (x, rest)) (hxs : xs ≠ [])
    (rest : List Char) {n : Nat} (hn : xs.length ≤ n) :
    items? item close n ([','].intercalate (xs.map text) ++ (blanks ++ close :: rest)) = some (xs, rest) := by
  have hmark : isSpace close = false ∧ close.isDigit = false ∧ ',' ≠ close := by
    obtain rfl | rfl := hclose <;> decide
  induction xs generalizing n with
  | nil => exact absurd rfl hxs
  | cons x xs ih =>
      have hx := hitem x List.mem_cons_self
      obtain ⟨n, rfl⟩ : ∃ m, n = m + 1 := ⟨n - 1, by simp only [List.length_cons] at hn; omega⟩
      cases xs with
      | nil =>
          rw [List.map_singleton, List.intercalate_singleton, items?,
            hx _ (stops_append hblanks (stops_cons hmark.2.1 rest))]
          simp only [Option.bind_eq_bind, Option.bind_some, after?_mark hblanks hmark.1]
          rfl
      | cons y ys =>
          -- a comma follows, which is neither a digit nor the closing bracket
          have hys := ih (fun z hz => hitem z (List.mem_cons_of_mem x hz)) (List.cons_ne_nil y ys)
            (Nat.le_of_succ_le_succ hn)
          rw [List.map_cons] at hys
          rw [List.map_cons, List.map_cons, List.intercalate_cons_cons, List.append_assoc, List.append_assoc,
            List.singleton_append, items?, hx _ (stops_cons rfl _)]
          simp only [Option.bind_eq_bind, Option.bind_some]
          rw [after?_other rfl hmark.2.2, after?_self rfl]
          simp only [Option.map_none, Option.bind_some, hys]
          rfl

/-- Items up to the closing bracket are read, if no item begins with that bracket. -/
theorem list?_intercalate (hclose : close = ']' ∨ close = '\x7d') (hblanks : ∀ c ∈ blanks, isSpace c = true)
    (hitem : ∀ x ∈ xs, ∀ rest, Stops rest → item (skip (text x ++ rest)) = some (x, rest))
    (hopen : ∀ rest, item (close :: rest) = none) (hxs : xs ≠ []) (rest : List Char) :
    list? item close ([','].intercalate (xs.map text) ++ (blanks ++ close :: rest)) = some (xs, rest) := by
  have hlength : xs.length ≤ ([','].intercalate (xs.map text) ++ (blanks ++ close :: rest)).length := by
    have := length_le_intercalate_singleton ',' (xs.map text)
    simp only [List.length_map, List.length_append, List.length_cons] at this ⊢
    omega
  have hitems := items?_intercalate hclose hblanks hitem hxs rest hlength
  unfold list?
  cases hafter : after? close ([','].intercalate (xs.map text) ++ (blanks ++ close :: rest)) with
  | none => exact hitems
  | some cs =>
      -- the first item would begin with the closing bracket
      obtain ⟨n, hn⟩ : ∃ m, ([','].intercalate (xs.map text) ++ (blanks ++ close :: rest)).length = m + 1 :=
        ⟨_, (Nat.succ_pred_eq_of_pos (by simp only [List.length_append, List.length_cons]; omega)).symm⟩
      rw [hn, items?, skip_eq_cons_of_after? hafter, hopen] at hitems
      cases hitems

end Lists

/-! ### Values -/

/-- Only white space is added between the parts of a value. -/
structure Style.Neutral (s : Style) : Prop where
  newline : ∀ depth, ∀ c ∈ (s.newline depth).toList, isSpace c = true
  colon : ∃ blanks, s.colon.toList = ':' :: blanks ∧ ∀ c ∈ blanks, isSpace c = true

theorem Style.neutral_compact : Style.compact.Neutral where
  newline _ := List.forall_mem_nil _
  colon := ⟨[], rfl, List.forall_mem_nil _⟩

theorem Style.neutral_pretty : Style.pretty.Neutral where
  newline depth c hc := by
    simp only [Style.pretty, String.toList_append, String.toList_ofList, List.mem_append, List.mem_replicate] at hc
    obtain hc | ⟨-, rfl⟩ := hc
    · rw [List.mem_singleton.1 hc]
      rfl
    · rfl
  colon := ⟨[' '], rfl, List.forall_mem_singleton.2 rfl⟩

variable (s : Style)

theorem toList_quote (text : String) : (quote text).toList = '"' :: (text.toList.flatMap escape ++ ['"']) := by
  unfold quote
  simp only [String.toList_append, String.toList_ofList]
  rfl

/-- The text of an item, with what stands before it. -/
def itemChars (depth : Nat) (x : Json) : List Char := (s.newline depth).toList ++ (write s depth x).toList

/-- The text of a field, with what stands before it. -/
def fieldChars (depth : Nat) (f : String × Json) : List Char :=
  (s.newline depth).toList ++ ((quote f.1).toList ++ (s.colon.toList ++ (write s depth f.2).toList))

theorem toList_writeItems (depth : Nat) (items : List Json) :
    (writeItems s depth items).toList = [','].intercalate (items.map (itemChars s depth)) := by
  induction items with
  | nil => rfl
  | cons x items ih =>
      cases items with
      | nil =>
          rw [writeItems, String.toList_append]
          exact List.intercalate_singleton.symm
      | cons y items =>
          rw [writeItems, List.map_cons, List.map_cons, List.intercalate_cons_cons, ← List.map_cons, ← ih]
          · simp only [String.toList_append, itemChars, List.append_assoc]
            rfl
          · exact List.cons_ne_nil y items

theorem toList_writeFields (depth : Nat) (fields : List (String × Json)) :
    (writeFields s depth fields).toList = [','].intercalate (fields.map (fieldChars s depth)) := by
  induction fields with
  | nil => rfl
  | cons f fields ih =>
      cases fields with
      | nil =>
          rw [writeFields, List.map_singleton, List.intercalate_singleton]
          simp only [String.toList_append, fieldChars, List.append_assoc]
      | cons g fields =>
          rw [writeFields, List.map_cons, List.map_cons, List.intercalate_cons_cons, ← List.map_cons, ← ih]
          · simp only [String.toList_append, fieldChars, List.append_assoc]
            rfl
          · exact List.cons_ne_nil g fields

theorem toList_write_arr (depth : Nat) {items : List Json} (h : items ≠ []) :
    (write s depth (arr items)).toList
      = '[' :: ([','].intercalate (items.map (itemChars s (depth + 1))) ++ ((s.newline depth).toList ++ [']'])) := by
  obtain ⟨x, items, rfl⟩ := List.exists_cons_of_ne_nil h
  rw [write]
  simp only [String.toList_append, toList_writeItems, List.append_assoc]
  rfl

theorem toList_write_obj (depth : Nat) {fields : List (String × Json)} (h : fields ≠ []) :
    (write s depth (obj fields)).toList
      = '\x7b' :: ([','].intercalate (fields.map (fieldChars s (depth + 1)))
          ++ ((s.newline depth).toList ++ ['\x7d'])) := by
  obtain ⟨f, fields, rfl⟩ := List.exists_cons_of_ne_nil h
  rw [write]
  simp only [String.toList_append, toList_writeFields, List.append_assoc]
  rfl

theorem length_write_lt_arr {depth : Nat} {items : List Json} {x : Json} (h : x ∈ items) :
    (write s (depth + 1) x).toList.length < (write s depth (arr items)).toList.length := by
  have hle := length_le_intercalate [','] (List.mem_map_of_mem (f := itemChars s (depth + 1)) h)
  rw [toList_write_arr s depth (List.ne_nil_of_mem h)]
  simp only [itemChars, List.length_append, List.length_cons] at hle ⊢
  omega

theorem length_write_lt_obj {depth : Nat} {fields : List (String × Json)} {f : String × Json} (h : f ∈ fields) :
    (write s (depth + 1) f.2).toList.length < (write s depth (obj fields)).toList.length := by
  have hle := length_le_intercalate [','] (List.mem_map_of_mem (f := fieldChars s (depth + 1)) h)
  rw [toList_write_obj s depth (List.ne_nil_of_mem h)]
  simp only [fieldChars, List.length_append, List.length_cons] at hle ⊢
  omega

theorem exists_toString_eq_cons (i : Int) : ∃ c cs, (toString i).toList = c :: cs ∧ (c = '-' ∨ c.isDigit = true) := by
  cases i with
  | ofNat n =>
      obtain ⟨d, ds, heq, hd⟩ := exists_repr_eq_cons n
      exact ⟨d, ds, heq, .inr hd⟩
  | negSucc n => exact ⟨'-', (n + 1).repr.toList, toList_toString_negSucc n, .inl rfl⟩

/-- A value is not written with white space in front. -/
theorem exists_write_eq_cons (depth : Nat) (j : Json) :
    ∃ c cs, (write s depth j).toList = c :: cs ∧ isSpace c = false := by
  cases j with
  | str value => exact ⟨'"', _, by rw [write, toList_quote], rfl⟩
  | int value =>
      obtain ⟨c, cs, heq, hc⟩ := exists_toString_eq_cons value
      refine ⟨c, cs, by rw [write, heq], Bool.eq_false_iff.2 fun hspace => ?_⟩
      obtain rfl | hc := hc
      · cases hspace
      · rw [isDigit_of_isSpace hspace] at hc
        cases hc
  | bool value => cases value <;> exact ⟨_, _, by rw [write]; rfl, rfl⟩
  | arr items =>
      cases items with
      | nil => exact ⟨'[', _, by rw [write]; rfl, rfl⟩
      | cons x items => exact ⟨'[', _, toList_write_arr s depth (List.cons_ne_nil x items), rfl⟩
  | obj fields =>
      cases fields with
      | nil => exact ⟨'\x7b', _, by rw [write]; rfl, rfl⟩
      | cons f fields => exact ⟨'\x7b', _, toList_write_obj s depth (List.cons_ne_nil f fields), rfl⟩

theorem skip_write (depth : Nat) (j : Json) (rest : List Char) :
    skip ((write s depth j).toList ++ rest) = (write s depth j).toList ++ rest := by
  obtain ⟨c, cs, heq, hc⟩ := exists_write_eq_cons s depth j
  rw [heq, List.cons_append, skip_cons hc]

variable {s}

theorem skip_itemChars (hs : s.Neutral) (depth : Nat) (x : Json) (rest : List Char) :
    skip (itemChars s depth x ++ rest) = (write s depth x).toList ++ rest := by
  rw [itemChars, List.append_assoc, skip_append (hs.newline depth), skip_write]

/-- A field is read back if its value is. -/
theorem field?_fieldChars (hs : s.Neutral) {value : List Char → Option (Json × List Char)} {depth : Nat}
    {f : String × Json} {rest : List Char}
    (hvalue : value ((write s depth f.2).toList ++ rest) = some (f.2, rest)) :
    field? value (skip (fieldChars s depth f ++ rest)) = some (f, rest) := by
  obtain ⟨blanks, hcolon, hblanks⟩ := hs.colon
  rw [fieldChars, List.append_assoc, skip_append (hs.newline depth), toList_quote, hcolon]
  simp only [List.cons_append, List.append_assoc, List.nil_append]
  rw [skip_cons rfl, field?]
  simp only [after?_self (show isSpace '"' = false from rfl), after?_self (show isSpace ':' = false from rfl),
    text?_flatMap_escape, Option.bind_eq_bind, Option.bind_some, skip_append hblanks, skip_write, hvalue]

theorem value?_bracket (n : Nat) (cs : List Char) :
    value? (n + 1) ('[' :: cs) = (list? (value? n) ']' cs).map (Prod.map arr id) := rfl

theorem value?_brace (n : Nat) (cs : List Char) :
    value? (n + 1) ('\x7b' :: cs) = (list? (field? (value? n)) '\x7d' cs).map (Prod.map obj id) := rfl

theorem value?_toString (n : Nat) (i : Int) {rest : List Char} (h : Stops rest) :
    value? (n + 1) ((toString i).toList ++ rest) = some (int i, rest) := by
  obtain ⟨c, cs, heq, hc⟩ := exists_toString_eq_cons i
  have hne : ∀ d : Char, d ≠ '-' → d.isDigit = false → c ≠ d := by
    rintro _ hminus hdigit rfl
    exact hc.elim hminus fun h => absurd (hdigit.symm.trans h) Bool.false_ne_true
  have hword : ∀ d : Char, d ≠ '-' → d.isDigit = false → ∀ ds, (d :: ds).isPrefixOf (c :: (cs ++ rest)) = false := by
    intro d hminus hdigit ds
    rw [List.isPrefixOf, beq_false_of_ne (hne d hminus hdigit).symm, Bool.false_and]
  -- neither a sign nor a digit opens a value of another kind
  have hint := int?_toString i h
  rw [heq, List.cons_append] at hint ⊢
  rw [value?, hint, List.head?_cons]
  simp only [Option.some.injEq, hne '"' (by decide) rfl, hne '[' (by decide) rfl, hne '\x7b' (by decide) rfl, if_false,
    show "true".toList = 't' :: ['r', 'u', 'e'] from rfl, show "false".toList = 'f' :: ['a', 'l', 's', 'e'] from rfl,
    hword 't' (by decide) rfl, hword 'f' (by decide) rfl, Bool.false_eq_true]
  rfl

/-- **Written values are read back.** In a neutral style, before any text that does not go on with a digit. -/
theorem value?_write (hs : s.Neutral) {j : Json} {depth n : Nat} {rest : List Char}
    (hn : (write s depth j).toList.length ≤ n) (hrest : Stops rest) :
    value? n ((write s depth j).toList ++ rest) = some (j, rest) := by
  -- the reader recurs on the bound; the values within an array or an object have shorter texts
  induction n generalizing j depth rest with
  | zero =>
      obtain ⟨c, cs, heq, -⟩ := exists_write_eq_cons s depth j
      rw [heq] at hn
      exact absurd hn (Nat.not_succ_le_zero _)
  | succ n ih =>
      cases j with
      | str value =>
          rw [write, toList_quote, List.cons_append, List.append_assoc, value?, List.head?_cons, if_pos rfl,
            List.tail_cons, List.singleton_append, text?_flatMap_escape]
          rfl
      | int value =>
          rw [write]
          exact value?_toString n value hrest
      | bool value =>
          rw [write]
          cases value <;> rfl
      | arr items =>
          have hitem : ∀ x ∈ items, ∀ rest, Stops rest →
              value? n (skip (itemChars s (depth + 1) x ++ rest)) = some (x, rest) := by
            intro x hx rest hrest
            rw [skip_itemChars hs]
            exact ih (Nat.le_of_lt_succ (Nat.lt_of_lt_of_le (length_write_lt_arr s hx) hn)) hrest
          have hopen : ∀ rest, value? n (']' :: rest) = none := by
            intro rest
            cases n <;> rfl
          by_cases hitems : items = []
          · subst hitems
            rw [write]
            rfl
          · rw [toList_write_arr s depth hitems, List.cons_append, value?_bracket, List.append_assoc, List.append_assoc,
              List.singleton_append, list?_intercalate (.inl rfl) (hs.newline depth) hitem hopen hitems]
            rfl
      | obj fields =>
          have hfield : ∀ f ∈ fields, ∀ rest, Stops rest →
              field? (value? n) (skip (fieldChars s (depth + 1) f ++ rest)) = some (f, rest) := by
            intro f hf rest hrest
            refine field?_fieldChars hs (ih ?_ hrest)
            exact Nat.le_of_lt_succ (Nat.lt_of_lt_of_le (length_write_lt_obj s hf) hn)
          by_cases hfields : fields = []
          · subst hfields
            rw [write]
            rfl
          · rw [toList_write_obj s depth hfields, List.cons_append, value?_brace, List.append_assoc, List.append_assoc,
              List.singleton_append,
              list?_intercalate (.inr rfl) (hs.newline depth) hfield (fun _ => rfl) hfields]
            rfl

/-- A written value is read back from the front of a text. -/
theorem front?_write (hs : s.Neutral) (j : Json) {rest : List Char} (hrest : Stops rest) :
    front? ((write s 0 j).toList ++ rest) = some (j, rest) := by
  refine value?_write hs ?_ hrest
  rw [List.length_append]
  exact Nat.le_add_right _ _

/-- A written value is what its text consists of, with white space after it. -/
theorem ofText?_write (hs : s.Neutral) (j : Json) {blanks : List Char} (hblanks : ∀ c ∈ blanks, isSpace c = true) :
    ofText? (write s 0 j ++ String.ofList blanks) = some j := by
  have hstops : Stops blanks := fun c hc => isDigit_of_isSpace (hblanks c (List.mem_of_mem_head? hc))
  have hrest : skip blanks = [] := by
    rw [← List.append_nil blanks, skip_append hblanks]
    rfl
  unfold ofText?
  rw [String.toList_append, String.toList_ofList, skip_write, front?_write hs j hstops]
  simp only [Option.bind_eq_bind, Option.bind_some, hrest]
  rfl

-- a needless zero, a comma too many, one too few, a bare line feed within quotes, half of a character
example : ["01", "[1,]", "[1 2]", "\"\n\"", "\"\\ud800\""].all (fun text => (ofText? text).isNone) = true := by
  decide +kernel

end CostBound.Json
