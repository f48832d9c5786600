import CostBound.Proofs.Readers
import CostBound.Proofs.Spelling
import CostBound.Proofs.Typing

/-!
# The text of an expression, cut into lexemes

* `Lexes` — a text consists of gaps and tokens of given kinds, each as long as it can be.
* `Lexes.place` — such a text is scanned into tokens of those kinds.
* `lexes_word`, `lexes_numeral`, `lexes_quoted`, `lexes_sign` — one lexeme before a text that does not go on
  with it.
* `Prints` — a text gives tokens of given kinds before any text that does not go on with it.
* `Expr.prints_text`, `inked_text` — the text of an expression: its tokens, and the characters in it.
-/

namespace CostBound

open Token (Kind)

namespace Lexeme

/-- A text consists of gaps and of tokens of the kinds `ks`. -/
inductive Lexes : List Char → List Kind → Prop
  | nil : Lexes [] []
  | gap {c : Char} {cs : List Char} {ks : List Kind} (h : isGap c = true) (hs : Lexes cs ks) :
      Lexes (c :: cs) ks
  | token {c : Char} {cs text rest : List Char} {k : Kind} {ks : List Kind}
      (h : first c cs = ⟨c :: text, .token k, rest⟩) (hs : Lexes rest ks) : Lexes (c :: cs) (k :: ks)

theorem first_of_isGap {c : Char} {cs : List Char} (h : isGap c = true) : first c cs = ⟨[c], .gap, cs⟩ := by
  unfold first
  rw [if_pos h]

theorem Lexes.place {cs : List Char} {ks : List Kind} (h : Lexes cs ks) {n : Nat} (hn : cs.length ≤ n)
    (offset : Nat) :
    ∃ ts, Scan.place offset (allWithin n cs) = .ok ts ∧ TokenReader.kinds ts = ks := by
  induction h generalizing n offset with
  | nil =>
      cases n with
      | zero => exact ⟨[], rfl, rfl⟩
      | succ n => exact ⟨[], rfl, rfl⟩
  | @gap c cs ks h hs ih =>
      obtain ⟨n, rfl⟩ : ∃ m, n = m + 1 := ⟨n - 1, by simp at hn; omega⟩
      obtain ⟨ts, hts, hks⟩ := ih (Nat.le_of_succ_le_succ hn) (offset + utf8Length [c])
      refine ⟨ts, ?_, hks⟩
      rw [allWithin, first_of_isGap h, Scan.place_cons]
      exact hts
  | @token c cs text rest k ks h hs ih =>
      obtain ⟨n, rfl⟩ : ∃ m, n = m + 1 := ⟨n - 1, by simp at hn; omega⟩
      have happend := first_append c cs
      rw [h] at happend
      have hlength := congrArg List.length happend
      simp only [List.cons_append, List.length_cons, List.length_append] at hlength hn
      obtain ⟨ts, hts, hks⟩ := ih (n := n) (by omega) (offset + utf8Length (c :: text))
      refine ⟨⟨k, ⟨offset, utf8Length (c :: text)⟩⟩ :: ts, ?_, by rw [TokenReader.kinds_cons, hks]⟩
      rw [allWithin, h, Scan.place_cons]
      exact except_bind_eq_ok.2 ⟨ts, hts, rfl⟩

/-! ### Words -/

/-- No word goes on with a text. -/
def Breaks (rest : List Char) : Prop := ∀ c ∈ rest.head?, isWordPart c = false

/-- Of two characters that a test tells apart, neither is the other. -/
theorem ne_of_test {p : Char → Bool} {c d : Char} (hc : p c = true) (hd : p d = false) : c ≠ d := by
  intro h
  rw [h, hd] at hc
  cases hc

theorem isGap_of_isWordStart {c : Char} (h : isWordStart c = true) : isGap c = false := by
  have hblank : c ≠ ' ' := ne_of_test h rfl
  have hfeed : c ≠ '\x0c' := ne_of_test h rfl
  have hreturn : c ≠ '\r' := ne_of_test h rfl
  simp [isGap, hblank, hfeed, hreturn]

theorem isGap_of_isDigit {c : Char} (h : c.isDigit = true) : isGap c = false := by
  have hblank : c ≠ ' ' := ne_of_test h rfl
  have hfeed : c ≠ '\x0c' := ne_of_test h rfl
  have hreturn : c ≠ '\r' := ne_of_test h rfl
  simp [isGap, hblank, hfeed, hreturn]

theorem takeWhile_append_of_stop {p : Char → Bool} {rest : List Char} (hr : ∀ c ∈ rest.head?, p c = false)
    (cs : List Char) : (cs ++ rest).takeWhile p = cs.takeWhile p := by
  have hstop : rest.takeWhile p = [] := by
    cases rest with
    | nil => rfl
    | cons c rest => exact List.takeWhile_cons_of_neg (Bool.eq_false_iff.1 (hr c rfl))
  rw [List.takeWhile_append, hstop, List.append_nil]
  split
  · rename_i hall
    exact ((List.takeWhile_sublist p).eq_of_length hall).symm
  · rfl

theorem dropWhile_append_of_stop {p : Char → Bool} {rest : List Char} (hr : ∀ c ∈ rest.head?, p c = false)
    (cs : List Char) : (cs ++ rest).dropWhile p = cs.dropWhile p ++ rest := by
  have hstop : rest.dropWhile p = rest := by
    cases rest with
    | nil => rfl
    | cons c rest => exact List.dropWhile_cons_of_neg (Bool.eq_false_iff.1 (hr c rfl))
  rw [List.dropWhile_append, hstop]
  split
  · rename_i hempty
    rw [List.isEmpty_iff.1 hempty]
    rfl
  · rfl

theorem takeWhile_append_of_breaks {p : Char → Bool} {cs rest : List Char} (hcs : ∀ c ∈ cs, p c = true)
    (hr : ∀ c ∈ rest.head?, p c = false) : (cs ++ rest).takeWhile p = cs := by
  rw [takeWhile_append_of_stop hr, ← List.append_nil cs, List.takeWhile_append_of_pos hcs, List.takeWhile_nil]

theorem dropWhile_append_of_breaks {p : Char → Bool} {cs rest : List Char} (hcs : ∀ c ∈ cs, p c = true)
    (hr : ∀ c ∈ rest.head?, p c = false) : (cs ++ rest).dropWhile p = rest := by
  have hall : cs.dropWhile p = [] := by
    rw [← List.append_nil cs, List.dropWhile_append_of_pos hcs, List.dropWhile_nil]
  rw [dropWhile_append_of_stop hr, hall, List.nil_append]

theorem lexes_word {x : String} {rest : List Char} {ks : List Kind} (h : IsWord x) (hr : Breaks rest)
    (hs : Lexes rest ks) : Lexes (x.toList ++ rest) (.ofWord x :: ks) := by
  obtain ⟨c, cs, hx, hc, hcs⟩ := h
  have hfirst : first c (cs ++ rest) = ⟨c :: cs, .token (.ofWord x), rest⟩ := by
    unfold first
    rw [if_neg (by rw [isGap_of_isWordStart hc]; decide), if_pos hc, takeWhile_append_of_breaks hcs hr,
      dropWhile_append_of_breaks hcs hr, ← hx]
    dsimp only
    rw [String.ofList_toList]
  rw [hx]
  exact .token hfirst hs

/-! ### Numerals -/

theorem isDigit_iff {c : Char} : c.isDigit = true ↔ '0' ≤ c ∧ c ≤ '9' := by
  simp [Char.isDigit, Char.le_def]

theorem isAlpha_iff {c : Char} :
    c.isAlpha = true ↔ 65 ≤ c.toNat ∧ c.toNat ≤ 90 ∨ 97 ≤ c.toNat ∧ c.toNat ≤ 122 := by
  show (decide (65 ≤ c.val ∧ c.val ≤ 90) || decide (97 ≤ c.val) && decide (c.val ≤ 122)) = true ↔ _
  rw [Bool.or_eq_true, Bool.and_eq_true, decide_eq_true_iff, decide_eq_true_iff, decide_eq_true_iff]
  exact Iff.rfl

theorem digit?_of_isDigit {c : Char} (h : c.isDigit = true) :
    Numeral.digit? c = some (c.toNat - '0'.toNat) := by
  unfold Numeral.digit?
  rw [if_pos (isDigit_iff.1 h)]

theorem digit_lt_of_isDigit {c : Char} (h : c.isDigit = true) : c.toNat - '0'.toNat < 10 := by
  have hle := (isDigit_iff.1 h).2
  rw [Char.le_def, UInt32.le_iff_toNat_le] at hle
  show c.val.toNat - 48 < 10
  have : '9'.val.toNat = 57 := rfl
  omega

theorem continues_of_isDigit {c : Char} (h : c.isDigit = true) : Numeral.continues 10 c = true := by
  unfold Numeral.continues Numeral.isDigit
  rw [digit?_of_isDigit h, Bool.or_eq_true]
  exact .inr (decide_eq_true (digit_lt_of_isDigit h))

theorem isWordStart_of_isDigit {c : Char} (h : c.isDigit = true) : isWordStart c = false := by
  have hgap : c ≠ '_' := ne_of_test h rfl
  obtain ⟨-, hle⟩ := isDigit_iff.1 h
  have hnat : c.toNat ≤ 57 := UInt32.le_iff_toNat_le.1 hle
  have halpha : ¬ c.isAlpha = true := by
    rw [isAlpha_iff]
    omega
  simp [isWordStart, hgap, halpha]

/-- What goes on with a decimal numeral goes on with a word, too. -/
theorem isWordPart_of_continues {c : Char} (h : Numeral.continues 10 c = true) : isWordPart c = true := by
  unfold Numeral.continues at h
  rw [Bool.or_eq_true] at h
  obtain hgap | hdigit := h
  · simp [isWordPart, of_decide_eq_true hgap]
  · suffices hd : c.isDigit = true by simp [isWordPart, Char.isAlphanum, hd]
    rw [isDigit_iff]
    unfold Numeral.isDigit Numeral.digit? at hdigit
    split at hdigit
    · assumption
    · split at hdigit
      · have hlt : c.toNat - 'a'.toNat + 10 < 10 := of_decide_eq_true hdigit
        omega
      · split at hdigit
        · have hlt : c.toNat - 'A'.toNat + 10 < 10 := of_decide_eq_true hdigit
          omega
        · cases hdigit

theorem positional_eq_ofDigitChars {ds : List Char} (h : ∀ c ∈ ds, c.isDigit = true) (n : Nat) :
    (ds.filterMap Numeral.digit?).foldl (fun n d => n * 10 + d) n = Nat.ofDigitChars 10 ds n := by
  induction ds generalizing n with
  | nil => rfl
  | cons c ds ih =>
      have hc := h c List.mem_cons_self
      rw [List.filterMap_cons, digit?_of_isDigit hc]
      simp only [List.foldl_cons]
      rw [ih (fun d hd => h d (List.mem_cons_of_mem c hd)), Nat.ofDigitChars_cons, Nat.mul_comm]

theorem hasDoubleGap_eq_false {ds : List Char} (h : ∀ c ∈ ds, c ≠ '_') : Numeral.hasDoubleGap ds = false := by
  fun_induction Numeral.hasDoubleGap ds with
  | case1 cs => exact absurd rfl (h '_' List.mem_cons_self)
  | case2 c cs hne ih => exact ih (fun d hd => h d (List.mem_cons_of_mem c hd))
  | case3 => rfl

theorem take_eq_takeDecimal {c : Char} {cs : List Char} (h : ∀ m ∈ cs.head?, Numeral.base? m = none) :
    Numeral.take (c :: cs) = Numeral.takeDecimal (c :: cs) := by
  unfold Numeral.take
  split
  · rename_i m d cs' heq
    cases heq
    rw [h m rfl]
  · rfl

theorem base?_eq_none {m : Char} (hb : m ≠ 'b') (ho : m ≠ 'o') (hx : m ≠ 'x') : Numeral.base? m = none := by
  unfold Numeral.base?
  split
  · exact absurd rfl hb
  · exact absurd rfl ho
  · exact absurd rfl hx
  · rfl

theorem base?_of_isDigit {m : Char} (h : m.isDigit = true) : Numeral.base? m = none :=
  base?_eq_none (ne_of_test h rfl) (ne_of_test h rfl) (ne_of_test h rfl)

theorem base?_of_not_isWordPart {m : Char} (h : isWordPart m = false) : Numeral.base? m = none :=
  base?_eq_none (ne_of_test (p := isWordPart) rfl h).symm (ne_of_test (p := isWordPart) rfl h).symm
    (ne_of_test (p := isWordPart) rfl h).symm

theorem value?_decimal {ds : List Char} {n : Nat} (hne : ds ≠ []) (hds : ∀ c ∈ ds, c.isDigit = true)
    (hpos : Nat.ofDigitChars 10 ds 0 = n) (hn : n < UInt64.size) :
    Numeral.value? ⟨[], 10, ds⟩ = some n := by
  have hgap : ∀ c ∈ ds, c ≠ '_' := fun c hc => ne_of_test (hds c hc) rfl
  have hhead : ds.head? ≠ some '_' := fun h => hgap '_' (List.mem_of_mem_head? h) rfl
  have hlast : ds.getLast? ≠ some '_' := fun h => hgap '_' (List.mem_of_getLast? h) rfl
  have hgrouped : Numeral.wellGrouped ds = true := by
    simp [Numeral.wellGrouped, hne, hhead, hlast, hasDoubleGap_eq_false hgap]
  have hvalue : Numeral.positional 10 ds = n := (positional_eq_ofDigitChars hds 0).trans hpos
  unfold Numeral.value?
  rw [hvalue, if_pos ⟨hgrouped, hn⟩]

theorem lexes_numeral {n : Nat} {rest : List Char} {ks : List Kind} (hn : n < UInt64.size) (hr : Breaks rest)
    (hs : Lexes rest ks) : Lexes (n.repr.toList ++ rest) (.int n :: ks) := by
  rw [Nat.toList_repr]
  have hds : ∀ c ∈ Nat.toDigits 10 n, c.isDigit = true :=
    fun c hc => Nat.isDigit_of_mem_toDigits (by omega) (by omega) hc
  have hpos : Nat.ofDigitChars 10 (Nat.toDigits 10 n) 0 = n := Nat.ofDigitChars_toDigits (by omega) (by omega)
  cases hd : Nat.toDigits 10 n with
  | nil => exact absurd hd (List.ne_nil_of_length_pos Nat.length_toDigits_pos)
  | cons c ds =>
      rw [hd] at hds hpos
      have hc := hds c List.mem_cons_self
      -- no mark of another base after the first digit
      have hmark : ∀ m ∈ (ds ++ rest).head?, Numeral.base? m = none := by
        intro m hm
        cases ds with
        | nil => exact base?_of_not_isWordPart (hr m hm)
        | cons d ds =>
            cases hm
            exact base?_of_isDigit (hds _ (List.mem_cons_of_mem c List.mem_cons_self))
      have hcontinues : ∀ d ∈ c :: ds, Numeral.continues 10 d = true :=
        fun d hd => continues_of_isDigit (hds d hd)
      have hstop : ∀ d ∈ rest.head?, Numeral.continues 10 d = false := by
        intro d hd
        cases h : Numeral.continues 10 d with
        | false => rfl
        | true => exact absurd (isWordPart_of_continues h) (by rw [hr d hd]; decide)
      have htake : Numeral.take (c :: (ds ++ rest)) = (⟨[], 10, c :: ds⟩, rest) := by
        rw [take_eq_takeDecimal hmark]
        unfold Numeral.takeDecimal
        rw [← List.cons_append, takeWhile_append_of_breaks hcontinues hstop,
          dropWhile_append_of_breaks hcontinues hstop]
      have hfirst : first c (ds ++ rest) = ⟨c :: ds, .token (.int n), rest⟩ := by
        unfold first
        rw [if_neg (by rw [isGap_of_isDigit hc]; decide), if_neg (by rw [isWordStart_of_isDigit hc]; decide),
          if_pos hc]
        unfold numeral
        simp only [htake, value?_decimal (List.cons_ne_nil c ds) hds hpos hn]
        rfl
      exact .token hfirst hs

/-! ### Signs -/

/-- A character that begins neither a gap, a word, a numeral nor a string. -/
def isSign (c : Char) : Bool := !isGap c && !isWordStart c && !c.isDigit && !Quoted.isQuote c

theorem first_of_isSign {c : Char} {cs : List Char} (h : isSign c = true) : first c cs = sign c cs := by
  simp only [isSign, Bool.and_eq_true, Bool.not_eq_true'] at h
  obtain ⟨⟨⟨hgap, hword⟩, hdigit⟩, hquote⟩ := h
  simp [first, hgap, hword, hdigit, hquote]

theorem lexes_sign {c : Char} {cs : List Char} {k : Kind} {ks : List Kind} (hc : isSign c = true)
    (hk : sign? c = some k) (h : ∀ d ∈ cs.head?, sign₂? c d = none) (hs : Lexes cs ks) :
    Lexes (c :: cs) (k :: ks) := by
  have hfirst : first c cs = ⟨[c], .token k, cs⟩ := by
    rw [first_of_isSign hc]
    cases cs with
    | nil => simp [sign, single, hk]
    | cons d cs => simp [sign, single, hk, h d rfl]
  exact .token hfirst hs

theorem lexes_sign₂ {c d : Char} {cs : List Char} {k : Kind} {ks : List Kind} (hc : isSign c = true)
    (hk : sign₂? c d = some k) (hs : Lexes cs ks) : Lexes (c :: d :: cs) (k :: ks) := by
  have hfirst : first c (d :: cs) = ⟨[c, d], .token k, cs⟩ := by
    rw [first_of_isSign hc]
    simp [sign, hk]
  exact .token hfirst hs

/-! ### Strings -/

theorem body_of_plain {text rest : List Char} (h : ∀ c ∈ text, c ≠ '"' ∧ c ≠ '\\') :
    Quoted.body '"' (text ++ '"' :: rest) = (text, '"' :: rest) := by
  induction text with
  | nil => rfl
  | cons c text ih =>
      obtain ⟨hquote, hguard⟩ := h c List.mem_cons_self
      rw [List.cons_append, Quoted.body.eq_4 _ _ _ (fun hc _ => hguard hc) (fun _ _ hc _ => hguard hc),
        if_neg hquote, ih (fun d hd => h d (List.mem_cons_of_mem c hd))]

theorem decode_of_plain {text : List Char} (h : ∀ c ∈ text, c ≠ '\\') : Quoted.decode text = some text := by
  induction text with
  | nil => rfl
  | cons c text ih =>
      have hguard := h c List.mem_cons_self
      rw [Quoted.decode.eq_4 _ _ (fun hc _ => hguard hc) (fun _ _ hc _ => hguard hc),
        ih (fun d hd => h d (List.mem_cons_of_mem c hd))]
      rfl

theorem lexes_quoted {text rest : List Char} {ks : List Kind} (h : ∀ c ∈ text, c ≠ '"' ∧ c ≠ '\\')
    (hs : Lexes rest ks) : Lexes ('"' :: text ++ '"' :: rest) (.str (String.ofList text) :: ks) := by
  have hfirst : first '"' (text ++ '"' :: rest)
      = ⟨'"' :: (text ++ ['"']), .token (.str (String.ofList text)), rest⟩ := by
    show quoted '"' (text ++ '"' :: rest) = _
    unfold quoted
    rw [body_of_plain h]
    simp only [decode_of_plain (fun c hc => (h c hc).2)]
    rfl
  exact .token hfirst hs

/-! ### Expressions -/

/-- A text consists of tokens of the kinds `ks`, whatever follows that no word goes on with. -/
def Prints (text : String) (ks : List Kind) : Prop :=
  ∀ ⦃rest ks'⦄, Breaks rest → Lexes rest ks' → Lexes (text.toList ++ rest) (ks ++ ks')

theorem breaks_cons {c : Char} {cs : List Char} (h : isWordPart c = false) : Breaks (c :: cs) := by
  intro d hd
  cases hd
  exact h

theorem breaks_blank {cs : List Char} : Breaks (' ' :: cs) := breaks_cons rfl

theorem lexes_blank {cs : List Char} {ks : List Kind} (hs : Lexes cs ks) : Lexes (' ' :: cs) ks := .gap rfl hs

end Lexeme

open Lexeme in
theorem IsName.prints {x : String} (h : IsName x) : Prints x [.ident x] := by
  intro rest ks hr hs
  have := lexes_word h.1 hr hs
  rw [h.2] at this
  exact this

namespace Lexeme

theorem lexes_lparen {cs : List Char} {ks : List Kind} (hs : Lexes cs ks) : Lexes ('(' :: cs) (.lparen :: ks) :=
  lexes_sign rfl rfl (fun _ _ => rfl) hs

theorem lexes_rparen {cs : List Char} {ks : List Kind} (hs : Lexes cs ks) : Lexes (')' :: cs) (.rparen :: ks) :=
  lexes_sign rfl rfl (fun _ _ => rfl) hs

theorem Prints.bracket {text : String} {ks : List Kind} (h : Prints text ks) (needed : Bool) :
    Prints (Expr.bracket needed text) (Expr.bracketKinds needed ks) := by
  intro rest ks' hr hs
  cases needed with
  | false => exact h hr hs
  | true =>
      have hclosed := h (breaks_cons rfl) (lexes_rparen hs)
      have := lexes_lparen hclosed
      simpa [Expr.bracket, Expr.bracketKinds] using this

/-- The sign of an operator, between blanks. -/
theorem lexes_symbol (op : BinaryOp) {cs : List Char} {ks : List Kind} (hs : Lexes cs ks) :
    Lexes (' ' :: op.symbol.toList ++ ' ' :: cs) (op.kind :: ks) := by
  have hblank : Lexes (' ' :: cs) ks := lexes_blank hs
  refine lexes_blank ?_
  cases op with
  | add | sub | mul | mod | lt | gt =>
      refine lexes_sign rfl rfl (fun d hd => ?_) hblank
      cases hd
      rfl
  | le | ge | eq | ne => exact lexes_sign₂ rfl rfl hblank
  | and => exact lexes_word (.of_all rfl rfl rfl) breaks_blank hblank
  | or => exact lexes_word (.of_all rfl rfl rfl) breaks_blank hblank

/-- A character that the text of an expression may begin with. -/
def opens (c : Char) : Bool := isWordStart c || c.isDigit || c = '-' || c = '('

/-- The text begins with such a character. -/
def Opened (text : String) : Prop := ∃ c cs, text.toList = c :: cs ∧ opens c = true

theorem Opened.append {text : String} (h : Opened text) (text' : String) : Opened (text ++ text') := by
  obtain ⟨c, cs, htext, hc⟩ := h
  exact ⟨c, cs ++ text'.toList, by rw [String.toList_append, htext]; rfl, hc⟩

theorem Opened.bracket {text : String} (h : Opened text) (needed : Bool) :
    Opened (Expr.bracket needed text) := by
  cases needed with
  | false => exact h
  | true => exact Opened.append (Opened.append ⟨'(', [], rfl, rfl⟩ text) ")"

theorem opened_repr (n : Nat) : Opened n.repr := by
  cases hd : Nat.toDigits 10 n with
  | nil => exact absurd hd (List.ne_nil_of_length_pos Nat.length_toDigits_pos)
  | cons c ds =>
      have hc : c.isDigit = true :=
        Nat.isDigit_of_mem_toDigits (b := 10) (n := n) (by omega) (by omega) (by rw [hd]; exact List.mem_cons_self)
      exact ⟨c, ds, by rw [Nat.toList_repr, hd], by simp [opens, hc]⟩

theorem lexes_minus {text : String} {rest : List Char} {ks : List Kind} (h : Opened text)
    (hs : Lexes (text.toList ++ rest) ks) : Lexes ('-' :: (text.toList ++ rest)) (.minus :: ks) := by
  -- the text after the sign does not make it an arrow
  obtain ⟨c, cs, htext, hc⟩ := h
  refine lexes_sign rfl rfl (fun d hd => ?_) hs
  rw [htext] at hd
  cases hd
  have hne : c ≠ '>' := ne_of_test hc rfl
  unfold sign₂?
  split
  all_goals simp_all

end Lexeme

namespace Expr

open Lexeme

theorem int_text_of_nonneg {n : Int64} (h : ¬ n < 0) : (Literal.int n).text = n.toInt.natAbs.repr := by
  rw [Int64.lt_iff_toInt_lt, toInt_zero] at h
  show n.toInt.repr = _
  cases hn : n.toInt with
  | ofNat m => rfl
  | negSucc m => omega

theorem int_text_of_neg {n : Int64} (h : n < 0) : (Literal.int n).text = "-" ++ n.toInt.natAbs.repr := by
  rw [Int64.lt_iff_toInt_lt, toInt_zero] at h
  show n.toInt.repr = _
  cases hn : n.toInt with
  | ofNat m =>
      rw [hn] at h
      exact absurd h (by simp)
  | negSucc m => rfl

theorem opened_text {e : Expr} (h : e.WellNamed) : Opened e.text := by
  induction e with
  | var name =>
      obtain ⟨⟨c, cs, hx, hc, -⟩, -⟩ := wellNamed_var.1 h
      exact ⟨c, cs, hx, by simp [opens, hc]⟩
  | lit l =>
      cases l with
      | int n =>
          show Opened (Literal.int n).text
          by_cases hn : n < 0
          · rw [int_text_of_neg hn]
            exact Opened.append ⟨'-', [], rfl, rfl⟩ _
          · rw [int_text_of_nonneg hn]
            exact opened_repr _
      | bool b =>
          cases b with
          | true => exact ⟨'T', _, rfl, rfl⟩
          | false => exact ⟨'F', _, rfl, rfl⟩
  | unary op e ih =>
      cases op with
      | neg => exact Opened.append ⟨'-', [], rfl, rfl⟩ _
      | not => exact Opened.append ⟨'n', ['o', 't', ' '], rfl, rfl⟩ _
  | binary op l r ihl ihr =>
      exact (((((ihl (wellNamed_binary.1 h).1).bracket _).append _).append _).append _).append _
  | cond c t e =>
      have hopen : Opened "(" := ⟨'(', [], rfl, rfl⟩
      exact (((((hopen.append _).append _).append _).append _).append _).append _

/-- No literal needs more than 64 bits without its sign. -/
theorem natAbs_toInt_lt (n : Int64) : n.toInt.natAbs < UInt64.size := by
  have hlt := n.toInt_lt
  have hge := n.le_toInt
  have hsize : UInt64.size = 2 ^ 64 := rfl
  omega

theorem prints_text {e : Expr} (h : e.WellNamed) : Prints e.text e.kinds := by
  induction e with
  | var name => exact IsName.prints (wellNamed_var.1 h)
  | lit l =>
      intro rest ks hr hs
      cases l with
      | int n =>
          show Lexes ((Literal.int n).text.toList ++ rest) ((if n < 0 then _ else _) ++ ks)
          have hnumeral := lexes_numeral (natAbs_toInt_lt n) hr hs
          by_cases hn : n < 0
          · rw [int_text_of_neg hn, if_pos hn, String.toList_append]
            exact lexes_minus (opened_repr _) hnumeral
          · rw [int_text_of_nonneg hn, if_neg hn]
            exact hnumeral
      | bool b =>
          cases b with
          | true => exact lexes_word (.of_all rfl rfl rfl) hr hs
          | false => exact lexes_word (.of_all rfl rfl rfl) hr hs
  | unary op e ih =>
      intro rest ks hr hs
      have hoperand := (ih h).bracket (e.level < op.level) hr hs
      cases op with
      | neg =>
          have := lexes_minus ((opened_text (e := e) h).bracket _) hoperand
          simpa [text, kinds, UnaryOp.symbol, UnaryOp.kind] using this
      | not =>
          have hword : IsWord "not" := .of_all rfl rfl rfl
          have := lexes_word hword breaks_blank (lexes_blank hoperand)
          rw [show Kind.ofWord "not" = .kwNot from rfl] at this
          simpa [text, kinds, UnaryOp.symbol, UnaryOp.kind] using this
  | binary op l r ihl ihr =>
      intro rest ks hr hs
      obtain ⟨hl, hright⟩ := wellNamed_binary.1 h
      have hright := (ihr hright).bracket (r.level ≤ op.level) hr hs
      have hop := lexes_symbol op hright
      have := (ihl hl).bracket (l.level < op.level || l.level == op.level && op.isComparison)
        breaks_blank hop
      simpa [text, kinds] using this
  | cond c t e ihc iht ihe =>
      intro rest ks hr hs
      obtain ⟨hc, ht, he⟩ := wellNamed_cond.1 h
      have hif : IsWord "if" := .of_all rfl rfl rfl
      have helse : IsWord "else" := .of_all rfl rfl rfl
      -- from the closing bracket to the opening one
      have hno := ihe he (breaks_cons rfl) (lexes_rparen hs)
      have htest := ihc hc breaks_blank (lexes_blank (lexes_word helse breaks_blank (lexes_blank hno)))
      have hyes := iht ht breaks_blank (lexes_blank (lexes_word hif breaks_blank (lexes_blank htest)))
      have := lexes_lparen hyes
      rw [show Kind.ofWord "if" = .kwIf from rfl, show Kind.ofWord "else" = .kwElse from rfl] at this
      simpa [text, kinds] using this

end Expr

namespace Lexeme

/-! ### Characters of a text -/

/-- All characters of a text pass a test. -/
def Consists (p : Char → Bool) (text : String) : Prop := ∀ c ∈ text.toList, p c = true

theorem Consists.of_all {p : Char → Bool} {text : String} (h : text.toList.all p = true) : Consists p text :=
  List.all_eq_true.1 h

theorem Consists.append {p : Char → Bool} {text text' : String} (h : Consists p text) (h' : Consists p text') :
    Consists p (text ++ text') := by
  intro c hc
  rw [String.toList_append, List.mem_append] at hc
  exact hc.elim (h c) (h' c)

/-- A character that the text of an expression or a line may have, strings apart. -/
def isInk (c : Char) : Bool := isWordPart c || " ()+-*%<>=!,:".toList.contains c

/-- A text of such characters only. -/
abbrev Inked (text : String) : Prop := Consists isInk text

theorem isWordPart_of_isWordStart {c : Char} (h : isWordStart c = true) : isWordPart c = true := by
  simp only [isWordStart, Bool.or_eq_true] at h
  obtain h | h := h
  · simp [isWordPart, Char.isAlphanum, h]
  · simp [isWordPart, of_decide_eq_true h]

end Lexeme

open Lexeme in
theorem IsName.inked {x : String} (h : IsName x) : Inked x := by
  obtain ⟨⟨c, cs, hx, hc, hcs⟩, -⟩ := h
  intro d hd
  rw [hx] at hd
  unfold isInk
  obtain rfl | hd := List.mem_cons.1 hd
  · rw [isWordPart_of_isWordStart hc, Bool.true_or]
  · rw [hcs d hd, Bool.true_or]

namespace Lexeme

theorem Inked.bracket {text : String} (h : Inked text) (needed : Bool) : Inked (Expr.bracket needed text) := by
  cases needed with
  | false => exact h
  | true =>
      have hopen : Inked "(" := .of_all rfl
      have hclose : Inked ")" := .of_all rfl
      exact (hopen.append h).append hclose

theorem inked_repr (n : Nat) : Inked n.repr := by
  intro c hc
  rw [Nat.toList_repr] at hc
  have hdigit := Nat.isDigit_of_mem_toDigits (by omega) (by omega) hc
  simp [isInk, isWordPart, Char.isAlphanum, hdigit]

theorem inked_text {e : Expr} (h : e.Printable) : Inked e.text := by
  induction e with
  | var name => exact IsName.inked h
  | lit l =>
      cases l with
      | int n =>
          show Inked (Literal.int n).text
          by_cases hn : n < 0
          · have hminus : Inked "-" := .of_all rfl
            rw [Expr.int_text_of_neg hn]
            exact hminus.append (inked_repr _)
          · rw [Expr.int_text_of_nonneg hn]
            exact inked_repr _
      | bool b =>
          cases b <;> exact .of_all rfl
  | unary op e ih =>
      have hop : Inked op.symbol := by cases op <;> exact .of_all rfl
      exact hop.append (Inked.bracket (ih h) _)
  | binary op l r ihl ihr =>
      have hop : Inked op.symbol := by cases op <;> exact .of_all rfl
      have hblank : Inked " " := .of_all rfl
      exact (((((ihl h.1).bracket _).append hblank).append hop).append hblank).append ((ihr h.2).bracket _)
  | cond c t e => exact h.elim

end Lexeme

end CostBound
