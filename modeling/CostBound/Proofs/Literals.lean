import CostBound.Proofs.CodeTail
import CostBound.Proofs.RoundTrip
import CostBound.Proofs.Spans
import Mathlib.Data.List.TakeWhile
import Mathlib.Data.Nat.Digits.Defs

/-!
# Literals

A source that is one literal and nothing else is scanned into one token or one fault, and either spans all of it. So
what a literal stands for can be said without the scanner.

* `Scan.Solitary` — a line that is one lexeme; `Solitary.scan_token`, `Solitary.scan_fault` say how it is scanned.
* `Quoted.escape`, `Quoted.literal` — a text written as a string literal; `Quoted.decode_escaped` reads it back.
* `Quoted.escapes` — the characters that are escaped in a literal.
* `Quoted.literal_scans_back` — every text has a literal, and a literal with an unknown escape is refused.
* `Numeral.Grouped`, `Shape.value` — where underscores may stand in an integer, and its value.
* `Numeral.literal_denotes` — an integer stands for its value, or is refused.
-/

namespace CostBound

open Token (Kind)

/-! ### One lexeme on a line -/

/-- The tokens of a source that is one lexeme of a kind. -/
def Token.alone (kind : Kind) (source : String) : List Token :=
  [⟨kind, ⟨0, source.utf8ByteSize⟩⟩, ⟨.newline, ⟨source.utf8ByteSize, 0⟩⟩, ⟨.eof, ⟨source.utf8ByteSize, 0⟩⟩]

namespace Scan

/-- A line that is one lexeme: it has no margin, comment or line end, and nothing that lines may not have. -/
structure Solitary (text : List Char) (meaning : Lexeme.Meaning) : Prop where
  front : ∃ c cs, text = c :: cs ∧ Text.isBlank c = false ∧ Lexeme.first c cs = ⟨text, meaning, []⟩
  feed : '\n' ∉ text
  tab : '\t' ∉ text
  last : text.getLast? ≠ some '\r'
  code : code text = text

namespace Solitary

variable {text : List Char} {meaning : Lexeme.Meaning}

theorem all_eq (h : Solitary text meaning) : Lexeme.all text = [⟨text, meaning, []⟩] := by
  obtain ⟨c, cs, rfl, -, hfirst⟩ := h.front
  show Lexeme.first c cs :: Lexeme.allWithin cs.length (Lexeme.first c cs).rest = _
  rw [hfirst]
  cases cs <;> rfl

theorem content_eq (h : Solitary text meaning) : content text = text := by
  unfold content
  rw [dropLastIf_of_not_mem h.feed, dropLastIf, if_neg h.last]

theorem width_eq (h : Solitary text meaning) : width text = 0 := by
  obtain ⟨c, cs, rfl, hc, -⟩ := h.front
  have hblank : c ≠ ' ' := (Lexeme.ne_of_test (p := Text.isBlank) rfl hc).symm
  exact width_blanks (n := 0) hblank

theorem isEmptyLine_eq (h : Solitary text meaning) : isEmptyLine text = false := by
  unfold isEmptyLine
  simp only [h.content_eq, h.width_eq, List.drop_zero, h.code]
  obtain ⟨c, cs, rfl, hc, -⟩ := h.front
  rw [List.all_cons, hc, Bool.false_and]

/-- The line is scanned as its lexeme is, and then it ends. -/
theorem scan_eq (h : Solitary text meaning) :
    Token.scan (String.ofList text) = (place 0 [⟨text, meaning, []⟩]).map
      (· ++ [⟨.newline, ⟨utf8Length text, 0⟩⟩, ⟨.eof, ⟨utf8Length text, 0⟩⟩]) := by
  have hne : text ≠ [] := by
    obtain ⟨c, cs, rfl, -, -⟩ := h.front
    exact List.cons_ne_nil c cs
  have htab : text.contains '\t' = false := by simpa using h.tab
  have hindentation : indentation [] 0 = some ([], []) := rfl
  rw [Token.scan_eq, String.toList_ofList, lines_of_not_mem h.feed hne, fromLines_cons, h.isEmptyLine_eq,
    if_neg Bool.false_ne_true, line_eq]
  simp only [h.content_eq, h.width_eq, htab, List.drop_zero, h.code, h.all_eq, Bool.false_eq_true, if_false,
    fromLines_nil]
  rw [hindentation]
  cases place (0 + 0) [⟨text, meaning, []⟩] with
  | ok ts =>
      show Except.ok (ts ++ [_] ++ [_]) = _
      rw [List.append_assoc, Nat.zero_add]
      rfl
  | error e => rfl

theorem scan_token {k : Kind} (h : Solitary text (.token k)) :
    Token.scan (String.ofList text) = .ok (Token.alone k (String.ofList text)) := by
  rw [h.scan_eq, Token.alone, ← utf8Length_ofList, place_cons]
  rfl

theorem scan_fault {f : ScanFault} (h : Solitary text (.fault f)) :
    Token.scan (String.ofList text) = .error ⟨f, ⟨0, (String.ofList text).utf8ByteSize⟩⟩ := by
  rw [h.scan_eq, ← utf8Length_ofList, place_cons]
  rfl

end Solitary

end Scan

/-! ### Strings -/

namespace Quoted

/-- How a character is written in a literal. -/
def escape (quote c : Char) : List Char :=
  if c = '\n' then ['\\', 'n']
  else if c = '\t' then ['\\', 't']
  else if c = '\r' then ['\\', 'r']
  else if c = quote ∨ c = '\\' then ['\\', c]
  else [c]

/-- The text between the quotes of a literal. -/
def escaped (quote : Char) (s : String) : List Char := s.toList.flatMap (escape quote)

/-- A literal: its quotes, and what stands between them. -/
def literal (quote : Char) (inner : List Char) : String := String.ofList (quote :: inner ++ [quote])

/-- The characters that follow a backslash which no backslash guards. -/
def escapes : List Char → List Char
  | '\\' :: c :: cs => c :: escapes cs
  | _ :: cs => escapes cs
  | [] => []

/-- The characters that may be escaped. -/
def escapable : List Char := ['n', 't', 'r', '"', '\'', '\\']

theorem decode_plain {c : Char} (hc : c ≠ '\\') (cs : List Char) : decode (c :: cs) = (decode cs).map (c :: ·) :=
  decode.eq_4 c cs (fun h _ => hc h) (fun _ _ h _ => hc h)

theorem escapes_plain {c : Char} (hc : c ≠ '\\') (cs : List Char) : escapes (c :: cs) = escapes cs :=
  escapes.eq_2 c cs fun _ _ h _ => hc h

theorem escape?_eq_none {c : Char} : escape? c = none ↔ c ∉ escapable := by
  unfold escape? escapable
  split
  all_goals simp_all

section

variable {quote : Char} (hq : isQuote quote = true)

include hq

theorem eq_of_isQuote : quote = '"' ∨ quote = '\'' := by simpa [isQuote] using hq

/-- What a character is written as: itself, or an escape that stands for it. -/
theorem escape_cases (c : Char) :
    escape quote c = [c] ∧ c ≠ quote ∧ c ≠ '\\' ∧ c ≠ '\n' ∧ c ≠ '\t' ∧ c ≠ '\r'
      ∨ ∃ d, escape quote c = ['\\', d] ∧ escape? d = some c ∧ d ≠ '\n' ∧ d ≠ '\t' := by
  unfold escape
  split_ifs with hfeed htab hreturn hself
  · exact .inr ⟨'n', rfl, by rw [hfeed]; rfl, by decide, by decide⟩
  · exact .inr ⟨'t', rfl, by rw [htab]; rfl, by decide, by decide⟩
  · exact .inr ⟨'r', rfl, by rw [hreturn]; rfl, by decide, by decide⟩
  · have hknown : escape? c = some c := by
      obtain rfl | rfl := hself
      · obtain rfl | rfl := eq_of_isQuote hq <;> rfl
      · rfl
    exact .inr ⟨c, rfl, hknown, hfeed, htab⟩
  · exact .inl ⟨rfl, fun h => hself (.inl h), fun h => hself (.inr h), hfeed, htab, hreturn⟩

theorem inner_escaped (cs : List Char) : Inner quote (cs.flatMap (escape quote)) := by
  induction cs with
  | nil => exact .nil
  | cons c cs ih =>
      rw [List.flatMap_cons]
      obtain ⟨hplain, hquote, hguard, -⟩ | ⟨d, hescape, -⟩ := escape_cases hq c
      · rw [hplain]
        exact .plain hquote hguard ih
      · rw [hescape]
        exact .guarded d ih

theorem decode_escaped (cs : List Char) : decode (cs.flatMap (escape quote)) = some cs := by
  induction cs with
  | nil => rfl
  | cons c cs ih =>
      rw [List.flatMap_cons]
      obtain ⟨hplain, -, hguard, -⟩ | ⟨d, hescape, hd, -⟩ := escape_cases hq c
      · rw [hplain, List.singleton_append, decode_plain hguard, ih]
        rfl
      · rw [hescape, List.cons_append, List.singleton_append, decode]
        simp only [hd, ih]
        rfl

theorem not_mem_escaped (cs : List Char) : '\n' ∉ cs.flatMap (escape quote) ∧ '\t' ∉ cs.flatMap (escape quote) := by
  have hchar : ∀ c, '\n' ∉ escape quote c ∧ '\t' ∉ escape quote c := by
    intro c
    obtain ⟨hplain, -, -, hfeed, htab, -⟩ | ⟨d, hescape, -, hfeed, htab⟩ := escape_cases hq c
    · rw [hplain]
      exact ⟨by simpa using hfeed.symm, by simpa using htab.symm⟩
    · rw [hescape]
      exact ⟨by simpa using hfeed.symm, by simpa using htab.symm⟩
  simp only [List.mem_flatMap, not_exists, not_and]
  exact ⟨fun c _ => (hchar c).1, fun c _ => (hchar c).2⟩

omit hq in
/-- **Unknown escapes.** What stands between two quotes cannot be decoded exactly if it escapes some other character. -/
theorem decode_eq_none {inner : List Char} (h : Inner quote inner) :
    decode inner = none ↔ ∃ c ∈ escapes inner, c ∉ escapable := by
  induction h with
  | nil => exact iff_of_false (by simp [decode]) (by simp [escapes])
  | @plain c cs _ hguard _ ih => rw [decode_plain hguard, escapes_plain hguard, Option.map_eq_none_iff, ih]
  | @guarded cs c _ ih =>
      rw [decode, escapes]
      simp only [List.mem_cons, exists_eq_or_imp]
      cases hc : escape? c with
      | none => exact iff_of_true rfl (.inl (escape?_eq_none.1 hc))
      | some d =>
          have hknown : ¬ c ∉ escapable := by
            rw [← escape?_eq_none, hc]
            exact Option.some_ne_none d
          rw [Option.map_eq_none_iff, ih]
          exact (or_iff_right hknown).symm

/-- What stands between two quotes on a line is scanned as a string or as a fault. -/
theorem solitary_literal {inner : List Char} (h : Inner quote inner) (hfeed : '\n' ∉ inner) (htab : '\t' ∉ inner) :
    (∀ value, decode inner = some value →
        Scan.Solitary (quote :: inner ++ [quote]) (.token (.str (String.ofList value))))
      ∧ (decode inner = none → Scan.Solitary (quote :: inner ++ [quote]) (.fault .string)) := by
  have hchars : ∀ c, c ≠ quote → c ∉ inner → c ∉ quote :: inner ++ [quote] := by
    intro c hquote hinner
    simp [hquote, hinner]
  have hother : ∀ c, isQuote c = false → c ≠ quote := fun c hc => (Lexeme.ne_of_test hq hc).symm
  have hsolitary : ∀ meaning, Lexeme.quoted quote (inner ++ [quote]) = ⟨quote :: inner ++ [quote], meaning, []⟩ →
      Scan.Solitary (quote :: inner ++ [quote]) meaning := by
    intro meaning hquoted
    refine ⟨⟨quote, inner ++ [quote], rfl, ?_, ?_⟩, hchars _ (hother _ rfl) hfeed, hchars _ (hother _ rfl) htab, ?_, ?_⟩
    · obtain rfl | rfl := eq_of_isQuote hq <;> decide
    · rw [Lexeme.first_of_isQuote hq, hquoted]
    · rw [List.getLast?_concat]
      exact fun heq => hother _ rfl (Option.some.inj heq).symm
    · have hsettled := Scan.settled_quoted hq h []
      rwa [List.append_nil, show Scan.code [] = [] from rfl, List.append_nil] at hsettled
  have hbody := Lexeme.body_of_inner hq h []
  refine ⟨fun value hvalue => hsolitary _ ?_, fun hnone => hsolitary _ ?_⟩
  · unfold Lexeme.quoted
    rw [hbody]
    simp only [hvalue, if_true]
  · unfold Lexeme.quoted
    rw [hbody]
    simp only [hnone, if_true]

/-- **String literals.** Every text is the value of its literal: the literal is scanned into one token that spans it.
What is written as a literal on one line, without tabs, is refused as a whole exactly if it escapes a character that
cannot be escaped. -/
theorem literal_scans_back :
    (∀ s : String, Token.scan (literal quote (escaped quote s))
        = .ok (Token.alone (.str s) (literal quote (escaped quote s))))
      ∧ ∀ inner, Inner quote inner → '\n' ∉ inner → '\t' ∉ inner →
        ((∃ e, Token.scan (literal quote inner) = .error e ∧ e.fault.message = "invalid string literal"
            ∧ e.span = ⟨0, (literal quote inner).utf8ByteSize⟩)
          ↔ ∃ c ∈ escapes inner, c ∉ escapable) := by
  constructor
  · intro s
    obtain ⟨hfeed, htab⟩ := not_mem_escaped hq s.toList
    have hsolitary := (solitary_literal hq (inner_escaped hq s.toList) hfeed htab).1 _ (decode_escaped hq s.toList)
    rw [String.ofList_toList] at hsolitary
    exact hsolitary.scan_token
  · intro inner hinner hfeed htab
    obtain ⟨hstring, hfault⟩ := solitary_literal hq hinner hfeed htab
    rw [← decode_eq_none hinner]
    constructor
    · rintro ⟨e, he, -⟩
      cases hdecode : decode inner with
      | none => rfl
      | some value => cases he.symm.trans (hstring value hdecode).scan_token
    · intro hnone
      exact ⟨_, (hfault hnone).scan_fault, rfl, rfl⟩

end

/-- A text with both quotes, a tab, a number sign, a backslash and a wide blank. -/
def mixed : String := "\t# it's \"1\\\u2003"

theorem literal_scans_back_mixed :
    isQuote '"' = true ∧ literal '"' (escaped '"' mixed) = "\"\\t# it's \\\"1\\\\\u2003\""
      ∧ Token.scan (literal '"' (escaped '"' mixed))
          = .ok [⟨.str mixed, ⟨0, 19⟩⟩, ⟨.newline, ⟨19, 0⟩⟩, ⟨.eof, ⟨19, 0⟩⟩]
      ∧ ∃ e, Token.scan (literal '"' ['n', '\\', '#']) = .error e ∧ e.fault.message = "invalid string literal"
          ∧ e.span = ⟨0, 5⟩ := by
  have hinner : Inner '"' ['n', '\\', '#'] := .plain (by decide) (by decide) (.guarded '#' .nil)
  have hunknown : ∃ c ∈ escapes ['n', '\\', '#'], c ∉ escapable := ⟨'#', List.mem_cons_self, by decide⟩
  obtain ⟨hread, hrefused⟩ := literal_scans_back (show isQuote '"' = true from rfl)
  exact ⟨rfl, by decide +kernel, hread mixed, (hrefused _ hinner (by decide) (by decide)).2 hunknown⟩

end Quoted

/-! ### Integers -/

namespace Numeral

/-- No underscore stands first, last or after another one. -/
def Grouped (ds : List Char) : Prop := ds.head? ≠ some '_' ∧ ds.getLast? ≠ some '_' ∧ ¬ ['_', '_'] <:+: ds

/-- The value of a literal: the sum of its digits, each times the power of the base that belongs to its place. -/
def Shape.value (s : Shape) : Nat := Nat.ofDigits s.base (s.digits.filterMap digit?).reverse

/-- The literal as a source. -/
def Shape.source (s : Shape) : String := String.ofList s.text

theorem hasDoubleGap_iff {ds : List Char} : hasDoubleGap ds = true ↔ ['_', '_'] <:+: ds := by
  fun_induction hasDoubleGap ds with
  | case1 cs => exact iff_of_true rfl ⟨[], cs, rfl⟩
  | case2 c cs hne ih =>
      have hfront : ¬ ['_', '_'] <+: c :: cs := by
        rintro ⟨rest, hrest⟩
        obtain ⟨rfl, rfl⟩ := List.cons.inj hrest
        exact hne rest rfl rfl
      rw [ih, List.infix_cons_iff, or_iff_right hfront]
  | case3 => exact iff_of_false Bool.false_ne_true (by simp)

theorem wellGrouped_iff {ds : List Char} (hne : ds ≠ []) : wellGrouped ds = true ↔ Grouped ds := by
  unfold wellGrouped Grouped
  rw [← hasDoubleGap_iff]
  simp [hne, and_assoc]

theorem positional_eq_value (s : Shape) : positional s.base s.digits = s.value := by
  unfold positional Shape.value
  rw [Nat.ofDigits_eq_foldr, List.foldr_reverse]
  simp only [Nat.cast_id, Nat.add_comm, Nat.mul_comm]

theorem value?_eq_some {s : Shape} (hne : s.digits ≠ []) {n : Nat} :
    value? s = some n ↔ (Grouped s.digits ∧ s.value < UInt64.size) ∧ n = s.value := by
  have hgrouped := wellGrouped_iff hne
  unfold value?
  rw [positional_eq_value]
  split
  · rename_i h
    rw [hgrouped] at h
    simp [h, eq_comm]
  · rename_i h
    rw [hgrouped] at h
    simp [h]

namespace Pattern

variable {s : Shape} (h : Pattern s)

include h

theorem digits_ne_nil : s.digits ≠ [] := by
  cases h with
  | decimal hd hs => exact List.cons_ne_nil _ _
  | marked hm hne hs => exact hne

/-- A literal is taken off as a whole. -/
theorem take_eq : take s.text = (s, []) := by
  cases h with
  | @decimal d ds hd hs =>
      have hall : ∀ c ∈ d :: ds, continues 10 c = true :=
        List.forall_mem_cons.2 ⟨Lexeme.continues_of_isDigit hd, hs⟩
      have hmark : ∀ m ∈ ds.head?, base? m = none := by
        intro m hm
        have hcontinues := hs m (List.mem_of_mem_head? hm)
        exact Lexeme.base?_eq_none (Lexeme.ne_of_test hcontinues rfl) (Lexeme.ne_of_test hcontinues rfl)
          (Lexeme.ne_of_test hcontinues rfl)
      show take (d :: ds) = _
      rw [Lexeme.take_eq_takeDecimal hmark, takeDecimal, List.takeWhile_eq_self_iff.2 hall,
        List.dropWhile_eq_nil_iff.2 hall]
  | @marked m base ds hm hne hs =>
      obtain ⟨d, ds, rfl⟩ := List.exists_cons_of_ne_nil hne
      show take ('0' :: m :: d :: ds) = _
      unfold take
      simp only [base?_eq_some.2 hm, hs d List.mem_cons_self, if_true, List.takeWhile_eq_self_iff.2 hs,
        List.dropWhile_eq_nil_iff.2 hs]

/-- A character that no literal goes on with does not occur in one. -/
theorem not_mem_text {x : Char} (hzero : x ≠ '0') (hmark : base? x = none)
    (hcontinues : ∀ base, continues base x = false) : x ∉ s.text := by
  have hdigits : ∀ {base : Nat} {ds : List Char}, (∀ c ∈ ds, continues base c = true) → x ∉ ds :=
    fun hs hx => Bool.false_ne_true ((hcontinues _).symm.trans (hs x hx))
  cases h with
  | decimal hd hs => exact hdigits (List.forall_mem_cons.2 ⟨Lexeme.continues_of_isDigit hd, hs⟩)
  | @marked m base ds hm hne hs =>
      have hx : x ≠ m := by
        rintro rfl
        cases hmark.symm.trans (base?_eq_some.2 hm)
      exact List.not_mem_cons_of_ne_of_not_mem hzero (List.not_mem_cons_of_ne_of_not_mem hx (hdigits hs))

theorem exists_digit : ∃ d cs, s.text = d :: cs ∧ d.isDigit = true := by
  cases h with
  | @decimal d ds hd hs => exact ⟨d, ds, rfl, hd⟩
  | @marked m base ds hm hne hs => exact ⟨'0', m :: ds, rfl, rfl⟩

theorem solitary {meaning : Lexeme.Meaning} (hmeaning : Lexeme.numeral s.text = ⟨s.text, meaning, []⟩) :
    Scan.Solitary s.text meaning where
  front := by
    obtain ⟨d, cs, htext, hd⟩ := h.exists_digit
    refine ⟨d, cs, htext, Scan.isBlank_of_opens (by simp [Lexeme.opens, hd]), ?_⟩
    unfold Lexeme.first
    rw [if_neg (by rw [Lexeme.isGap_of_isDigit hd]; decide), if_neg (by rw [Lexeme.isWordStart_of_isDigit hd]; decide),
      if_pos hd, ← htext, hmeaning]
  feed := h.not_mem_text (by decide) rfl fun _ => rfl
  tab := h.not_mem_text (by decide) rfl fun _ => rfl
  last := by
    intro hlast
    exact h.not_mem_text (x := '\r') (by decide) rfl (fun _ => rfl) (List.mem_of_getLast? hlast)
  code := by
    have hsettled := Scan.settled_of_isPlain (isPlain_of_pattern h) []
    rwa [List.append_nil, show Scan.code [] = [] from rfl, List.append_nil] at hsettled

theorem scan_of_value {n : Nat} (hn : value? s = some n) :
    Token.scan s.source = .ok (Token.alone (.int n) s.source) := by
  have hnumeral : Lexeme.numeral s.text = ⟨s.text, .token (.int n), []⟩ := by
    unfold Lexeme.numeral
    simp only [h.take_eq, hn]
  exact (h.solitary hnumeral).scan_token

theorem scan_of_no_value (hn : value? s = none) :
    Token.scan s.source = .error ⟨.integer, ⟨0, s.source.utf8ByteSize⟩⟩ := by
  have hnumeral : Lexeme.numeral s.text = ⟨s.text, .fault .integer, []⟩ := by
    unfold Lexeme.numeral
    simp only [h.take_eq, hn]
  exact (h.solitary hnumeral).scan_fault

end Pattern

end Numeral

/-! ### Integers as expressions -/

/-- An expression that is spelled as one integer is that integer. -/
theorem Expr.Spelled.eq_int {l n : Nat} {ks : List Kind} {e : Expr} (h : Spelled l ks e) (hks : ks = [.int n]) :
    n < Int64.size / 2 ∧ e = .int (.ofNat n) := by
  induction h with
  | var name => cases hks
  | int h =>
      cases hks
      exact ⟨h, rfl⟩
  | bool b => cases b <;> cases hks
  | brackets h _ => cases hks
  | unary op h _ => cases op <;> cases hks
  | @binary op ks _ _ _ hl _ _ _ =>
      obtain ⟨k, ks', rfl, -⟩ := hl.front
      simp at hks
  | tighter _ ih => exact ih hks

/-- A source that is one integer is read as an expression if it fits in a signed word. -/
theorem Expr.ofSource_alone {source : String} {n : Nat}
    (hscan : Token.scan source = .ok (Token.alone (.int n) source)) {e : Expr} :
    ofSource source = .ok e ↔ n < Int64.size / 2 ∧ e = .int (.ofNat n) := by
  unfold ofSource
  rw [TokenReader.runOn_eq_ok]
  constructor
  · rintro ⟨ts, rest, hts, hread⟩
    cases hscan.symm.trans hts
    obtain ⟨used, gap, htokens, hspelled, -⟩ := TokenReader.exprToEnd_eq_ok.1 hread
    refine hspelled.eq_int ?_
    -- the expression has a token, and no token of it is a line end
    rw [List.append_assoc] at htokens
    match used, htokens with
    | [], _ =>
        obtain ⟨k, ks, hks, -⟩ := hspelled.front
        cases hks
    | [t], htokens =>
        obtain ⟨rfl, -⟩ := List.cons.inj htokens
        rfl
    | t :: u :: used, htokens =>
        obtain ⟨-, htokens⟩ := List.cons.inj htokens
        obtain ⟨rfl, -⟩ := List.cons.inj htokens
        have hline := hspelled.isLayout_eq .newline (by simp [TokenReader.kinds])
        cases hline
  · rintro ⟨hn, rfl⟩
    have hspelled : Spelled 0 [.int n] (.int (.ofNat n)) := (Spelled.int hn).mono (Nat.zero_le _)
    exact ⟨_, _, hscan, TokenReader.exprToEnd_eq_ok.2 ⟨[_], [_], rfl, hspelled, List.forall_mem_singleton.2 rfl, rfl⟩⟩

namespace Numeral

section

variable {s : Shape} (h : Pattern s)

include h

theorem value?_eq_none : value? s = none ↔ ¬ (Grouped s.digits ∧ s.value < UInt64.size) := by
  constructor
  · intro hnone hgood
    rw [(value?_eq_some h.digits_ne_nil).2 ⟨hgood, rfl⟩] at hnone
    cases hnone
  · intro hbad
    cases hvalue : value? s with
    | none => rfl
    | some n => exact absurd ((value?_eq_some h.digits_ne_nil).1 hvalue).1 hbad

theorem scan_eq_alone {n : Nat} :
    Token.scan s.source = .ok (Token.alone (.int n) s.source)
      ↔ (Grouped s.digits ∧ s.value < UInt64.size) ∧ n = s.value := by
  rw [← value?_eq_some h.digits_ne_nil]
  constructor
  · intro hscan
    cases hvalue : value? s with
    | none => cases (h.scan_of_no_value hvalue).symm.trans hscan
    | some m =>
        cases (h.scan_of_value hvalue).symm.trans hscan
        rfl
  · exact h.scan_of_value

theorem ofSource_eq_ok {e : Expr} :
    Expr.ofSource s.source = .ok e
      ↔ (Grouped s.digits ∧ s.value < Int64.size / 2) ∧ e = .int (.ofNat s.value) := by
  have hwide : Int64.size / 2 ≤ UInt64.size := by decide
  constructor
  · intro hread
    obtain ⟨ts, _, hts, -⟩ := TokenReader.runOn_eq_ok.1 hread
    cases hvalue : value? s with
    | none => cases (h.scan_of_no_value hvalue).symm.trans hts
    | some n =>
        obtain ⟨⟨hgrouped, -⟩, rfl⟩ := (value?_eq_some h.digits_ne_nil).1 hvalue
        obtain ⟨hn, he⟩ := (Expr.ofSource_alone (h.scan_of_value hvalue)).1 hread
        exact ⟨⟨hgrouped, hn⟩, he⟩
  · rintro ⟨⟨hgrouped, hn⟩, he⟩
    have hscan := (scan_eq_alone h).2 ⟨⟨hgrouped, by omega⟩, rfl⟩
    exact (Expr.ofSource_alone hscan).2 ⟨hn, he⟩

/-- **Integer literals.** A literal of any base is scanned into one integer, its value, exactly if its underscores stand
singly between digits and the value is less than `2 ^ 64`; otherwise it is refused as a whole. As an expression it is
its value if that is also less than `2 ^ 63`, and otherwise it is refused. -/
theorem literal_denotes :
    (∀ n, Token.scan s.source = .ok (Token.alone (.int n) s.source)
        ↔ Grouped s.digits ∧ s.value < 0x10000000000000000 ∧ n = s.value)
      ∧ ((∃ e, Token.scan s.source = .error e ∧ e.fault.message = "invalid integer literal"
            ∧ e.span = ⟨0, s.source.utf8ByteSize⟩)
          ↔ ¬ (Grouped s.digits ∧ s.value < 0x10000000000000000))
      ∧ (∀ e, Expr.ofSource s.source = .ok e
        ↔ Grouped s.digits ∧ s.value ≤ 0x7fffffffffffffff ∧ ∃ k : Int64, k.toInt = s.value ∧ e = .int k)
      ∧ ((∃ e, Expr.ofSource s.source = .error e) ↔ ¬ (Grouped s.digits ∧ s.value ≤ 0x7fffffffffffffff)) := by
  have hword : UInt64.size = 0x10000000000000000 := rfl
  have hsigned : Int64.size / 2 = 0x8000000000000000 := rfl
  have hle : s.value ≤ 0x7fffffffffffffff ↔ s.value < Int64.size / 2 := by omega
  rw [← hword, hle]
  refine ⟨fun n => (scan_eq_alone h).trans and_assoc, ?_, fun e => ?_, ?_⟩
  · rw [← value?_eq_none h]
    constructor
    · rintro ⟨e, he, -⟩
      cases hvalue : value? s with
      | none => rfl
      | some n => cases he.symm.trans (h.scan_of_value hvalue)
    · intro hnone
      exact ⟨_, h.scan_of_no_value hnone, rfl, rfl⟩
  · rw [ofSource_eq_ok h, and_assoc]
    refine and_congr_right fun _ => and_congr_right fun hn => ?_
    have hvalue : (Int64.ofNat s.value).toInt = s.value := Int64.toInt_ofNat_of_lt (by omega)
    constructor
    · intro he
      exact ⟨_, hvalue, he⟩
    · rintro ⟨k, hk, he⟩
      rw [he, Int64.toInt_inj.1 (hk.trans hvalue.symm)]
  · constructor
    · rintro ⟨e, he⟩ hgood
      cases he.symm.trans ((ofSource_eq_ok h).2 ⟨hgood, rfl⟩)
    · intro hbad
      cases hread : Expr.ofSource s.source with
      | ok e => exact absurd ((ofSource_eq_ok h).1 hread).1 hbad
      | error e => exact ⟨e, rfl⟩

end

/-- The greatest value of a signed word, in base sixteen and with an underscore. -/
def greatest : Shape :=
  ⟨['0', 'x'], 16, ['7', 'f', 'f', 'f', 'F', 'F', 'F', 'F', '_', 'f', 'f', 'f', 'f', 'F', 'F', 'F', 'F']⟩

/-- Two nibbles in base two. -/
def nibbles : Shape := ⟨['0', 'b'], 2, ['1', '0', '1', '0', '_', '0', '0', '0', '1']⟩

/-- All digits of base eight. -/
def octals : Shape := ⟨['0', 'o'], 8, ['7', '6', '5', '4', '3', '2', '1', '0']⟩

/-- Two underscores in turn. -/
def torn : Shape := ⟨[], 10, ['1', '_', '_', '0']⟩

theorem literal_denotes_greatest :
    Pattern greatest ∧ Pattern nibbles ∧ Pattern octals ∧ Pattern torn
      ∧ greatest.source = "0x7fffFFFF_ffffFFFF" ∧ nibbles.source = "0b1010_0001" ∧ octals.source = "0o76543210"
      ∧ Token.scan greatest.source = .ok (Token.alone (.int 0x7fffffffffffffff) greatest.source)
      ∧ Expr.ofSource greatest.source = .ok (.int Int64.maxValue)
      ∧ Token.scan nibbles.source = .ok (Token.alone (.int 161) nibbles.source)
      ∧ Token.scan octals.source = .ok (Token.alone (.int 16434824) octals.source)
      ∧ ∃ e, Token.scan torn.source = .error e ∧ e.fault.message = "invalid integer literal" ∧ e.span = ⟨0, 4⟩ := by
  have hgreatest : Pattern greatest := .marked (by decide) (List.cons_ne_nil _ _) (List.all_eq_true.1 rfl)
  have hnibbles : Pattern nibbles := .marked (by decide) (List.cons_ne_nil _ _) (List.all_eq_true.1 rfl)
  have hoctals : Pattern octals := .marked (by decide) (List.cons_ne_nil _ _) (List.all_eq_true.1 rfl)
  have htorn : Pattern torn := .decimal rfl (List.all_eq_true.1 rfl)
  have hgrouped : Grouped greatest.digits := ⟨by decide, by decide, by decide⟩
  have hvalue : greatest.value = 0x7fffffffffffffff := by decide
  obtain ⟨hscan, -, hread, -⟩ := literal_denotes hgreatest
  obtain ⟨-, hrefused, -⟩ := literal_denotes htorn
  have hbinary := ((literal_denotes hnibbles).1 161).2 ⟨⟨by decide, by decide, by decide⟩, by decide, by decide⟩
  have hoctal := ((literal_denotes hoctals).1 16434824).2 ⟨⟨by decide, by decide, by decide⟩, by decide, by decide⟩
  refine ⟨hgreatest, hnibbles, hoctals, htorn, by decide, by decide, by decide,
    (hscan _).2 ⟨hgrouped, by omega, hvalue.symm⟩, (hread _).2 ⟨hgrouped, by omega, Int64.maxValue, ?_, rfl⟩, hbinary,
    hoctal, hrefused.2 fun hgood => ?_⟩
  · rw [hvalue]
    rfl
  · exact hgood.1.2.2 ⟨['1'], ['0'], rfl⟩

end Numeral

end CostBound
