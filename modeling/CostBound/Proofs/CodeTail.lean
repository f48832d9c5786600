import CostBound.Proofs.Lexemes

/-!
# What may follow the code of a line

Comments are looked for before tokens are, by other means; yet both see strings alike. So after the code of a line a
comment may follow, and so may a gap.

* `Scan.Settled` — no string is open at the end of a text and no comment begins in it.
* `Token.Kind.Written.settled`, `Lexeme.Lexes.settled` — tokens, and the code of a line, are such texts.
* `Lexeme.first_append_gap`, `Lexeme.lexes_append_gaps` — a gap at the end of the code changes no token.
-/

namespace CostBound

open Token (Kind)

/-! ### Comments -/

namespace Scan

/-- A character that begins neither a comment nor a string. -/
def isPlain (c : Char) : Bool := c ≠ '#' && !Quoted.isQuote c

theorem isPlain_of_test {p : Char → Bool} {c : Char} (h : p c = true) (hnote : p '#' = false) (hdouble : p '"' = false)
    (hsingle : p '\'' = false) : isPlain c = true := by
  have h₁ : c ≠ '#' := Lexeme.ne_of_test h hnote
  have h₂ : c ≠ '"' := Lexeme.ne_of_test h hdouble
  have h₃ : c ≠ '\'' := Lexeme.ne_of_test h hsingle
  simp [isPlain, Quoted.isQuote, h₁, h₂, h₃]

/-- No string is open at the end of the text, and no comment begins in it. -/
def Settled (cs : List Char) : Prop := ∀ rest, code (cs ++ rest) = cs ++ code rest

theorem settled_of_isPlain {cs : List Char} (h : ∀ c ∈ cs, isPlain c = true) : Settled cs := by
  induction cs with
  | nil => exact fun rest => rfl
  | cons c cs ih =>
      intro rest
      have hc := h c List.mem_cons_self
      simp only [isPlain, Bool.and_eq_true, decide_eq_true_eq, Bool.not_eq_true'] at hc
      show codeIn none (c :: (cs ++ rest)) = _
      rw [codeIn, if_neg hc.1, hc.2, if_neg Bool.false_ne_true]
      exact congrArg (c :: ·) (ih (fun d hd => h d (List.mem_cons_of_mem c hd)) rest)

theorem settled_of_isBlank {cs : List Char} (h : cs.all Text.isBlank = true) : Settled cs :=
  settled_of_isPlain fun c hc => isPlain_of_test (List.all_eq_true.1 h c hc) rfl rfl rfl

theorem Settled.append {cs cs' : List Char} (h : Settled cs) (h' : Settled cs') : Settled (cs ++ cs') := by
  intro rest
  rw [List.append_assoc, h, h', List.append_assoc]

/-- Within a string the search for a comment ends where the string does. -/
theorem codeIn_inner {quote : Char} (hq : Quoted.isQuote quote = true) {inner : List Char}
    (h : Quoted.Inner quote inner) (rest : List Char) :
    codeIn (some quote) (inner ++ quote :: rest) = inner ++ quote :: code rest := by
  induction h with
  | nil =>
      have hguard : quote ≠ '\\' := Lexeme.ne_of_test hq rfl
      rw [List.nil_append, codeIn.eq_4 _ _ _ fun _ _ hc _ => hguard hc, if_pos rfl]
      rfl
  | plain hquote hguard _ ih =>
      rw [List.cons_append, codeIn.eq_4 _ _ _ fun _ _ hc _ => hguard hc, if_neg hquote, ih]
      rfl
  | guarded c _ ih =>
      rw [List.cons_append, List.cons_append, codeIn, ih]
      rfl

theorem settled_quoted {quote : Char} (hq : Quoted.isQuote quote = true) {inner : List Char}
    (h : Quoted.Inner quote inner) : Settled (quote :: inner ++ [quote]) := by
  intro rest
  have hnote : quote ≠ '#' := Lexeme.ne_of_test hq rfl
  rw [List.append_assoc, List.singleton_append, List.cons_append]
  show codeIn none (quote :: (inner ++ quote :: rest)) = _
  rw [codeIn, if_neg hnote, hq, if_pos rfl, codeIn_inner hq h]
  simp

end Scan

open Scan (isPlain isPlain_of_test Settled settled_of_isPlain)

theorem Numeral.isPlain_of_continues {base : Nat} {c : Char} (h : continues base c = true) : isPlain c = true :=
  isPlain_of_test h rfl rfl rfl

theorem Numeral.isPlain_of_pattern {s : Shape} (h : Pattern s) : ∀ c ∈ s.text, isPlain c = true := by
  cases h with
  | decimal hd hs =>
      have hdigit := isPlain_of_continues (Lexeme.continues_of_isDigit hd)
      exact List.forall_mem_cons.2 ⟨hdigit, fun c hc => isPlain_of_continues (hs c hc)⟩
  | @marked m base ds hm hne hs =>
      have hmark : isPlain m = true :=
        isPlain_of_test (p := fun c => (base? c).isSome) (congrArg Option.isSome (base?_eq_some.2 hm)) rfl rfl rfl
      exact List.forall_mem_cons.2 ⟨rfl, List.forall_mem_cons.2 ⟨hmark, fun c hc => isPlain_of_continues (hs c hc)⟩⟩

/-- **A token and a comment.** After the text of any token a comment may follow. -/
theorem Token.Kind.Written.settled {k : Kind} {text : List Char} (h : k.Written text) : Settled text := by
  have htable : ∀ p ∈ keywords ++ signs, p.1.toList.all isPlain = true := by decide
  cases h with
  | fixed h => exact settled_of_isPlain (List.all_eq_true.1 (htable _ h))
  | ident h =>
      obtain ⟨⟨c, cs, hx, hc, hcs⟩, -⟩ := h
      rw [hx]
      exact settled_of_isPlain (List.forall_mem_cons.2
        ⟨isPlain_of_test hc rfl rfl rfl, fun d hd => isPlain_of_test (hcs d hd) rfl rfl rfl⟩)
  | int hs hn => exact settled_of_isPlain (Numeral.isPlain_of_pattern hs)
  | str hq hi hv => exact Scan.settled_quoted hq hi

namespace Lexeme

theorem Lexes.settled {cs : List Char} {ks : List Kind} (h : Lexes cs ks) : Settled cs := by
  induction h with
  | nil => exact fun rest => rfl
  | @gap c cs ks h hs ih =>
      have hc : Settled [c] := settled_of_isPlain (List.forall_mem_singleton.2 (isPlain_of_test h rfl rfl rfl))
      exact hc.append ih
  | @token c cs text rest k ks h hs ih =>
      have happend := first_append c cs
      have hw : k.Written (first c cs).text := written_first (by rw [h])
      rw [h] at happend hw
      rw [← happend]
      exact hw.settled.append ih

/-! ### Gaps -/

/-- The lexeme with more after it. -/
def followedBy (l : Lexeme) (more : List Char) : Lexeme := { l with rest := l.rest ++ more }

section Gap

variable {g : Char} (hg : isGap g = true)

include hg

theorem eq_of_isGap : (g = ' ' ∨ g = '\x0c') ∨ g = '\r' := by
  simpa only [isGap, Bool.or_eq_true, decide_eq_true_eq] using hg

theorem breaks_gap : Breaks [g] := by
  refine breaks_cons ?_
  obtain (rfl | rfl) | rfl := eq_of_isGap hg <;> rfl

theorem not_continues_gap (base : Nat) : ∀ d ∈ [g].head?, Numeral.continues base d = false := by
  intro d hd
  cases hd
  obtain (rfl | rfl) | rfl := eq_of_isGap hg <;> rfl

theorem sign₂?_gap (c : Char) : sign₂? c g = none := by
  have hgreater : g ≠ '>' := ne_of_test hg rfl
  have hequal : g ≠ '=' := ne_of_test hg rfl
  unfold sign₂?
  split
  · exact absurd rfl hgreater
  · exact absurd rfl hequal
  · exact absurd rfl hequal
  · exact absurd rfl hequal
  · exact absurd rfl hequal
  · rfl

theorem takeDecimal_append_gap (cs : List Char) :
    Numeral.takeDecimal (cs ++ [g]) = ((Numeral.takeDecimal cs).1, (Numeral.takeDecimal cs).2 ++ [g]) := by
  unfold Numeral.takeDecimal
  rw [takeWhile_append_of_stop (not_continues_gap hg 10), dropWhile_append_of_stop (not_continues_gap hg 10)]

theorem take_append_gap (cs : List Char) :
    Numeral.take (cs ++ [g]) = ((Numeral.take cs).1, (Numeral.take cs).2 ++ [g]) := by
  by_cases hmark : ∃ m d rest, cs = '0' :: m :: d :: rest
  · obtain ⟨m, d, rest, rfl⟩ := hmark
    have hdecimal := takeDecimal_append_gap hg ('0' :: m :: d :: rest)
    rw [List.cons_append, List.cons_append, List.cons_append] at hdecimal ⊢
    rw [Numeral.take.eq_1, Numeral.take.eq_1]
    cases Numeral.base? m with
    | none => exact hdecimal
    | some base =>
        dsimp only
        split
        · rw [← List.cons_append, takeWhile_append_of_stop (not_continues_gap hg base),
            dropWhile_append_of_stop (not_continues_gap hg base)]
        · exact hdecimal
  · rw [Numeral.take.eq_2 cs fun m d rest h => hmark ⟨m, d, rest, h⟩, ← takeDecimal_append_gap hg]
    -- a mark with nothing but the gap after it is none
    by_cases hbare : ∃ m, cs = ['0', m]
    · obtain ⟨m, rfl⟩ := hbare
      show Numeral.take ['0', m, g] = Numeral.takeDecimal ['0', m, g]
      rw [Numeral.take.eq_1]
      cases Numeral.base? m with
      | none => rfl
      | some base =>
          dsimp only
          rw [not_continues_gap hg base g rfl, if_neg Bool.false_ne_true]
    · refine Numeral.take.eq_2 _ fun m d rest h => ?_
      match cs, h with
      | [_], h => cases h
      | [_, _], h =>
          cases h
          exact hbare ⟨m, rfl⟩
      | _ :: _ :: _ :: _, h =>
          cases h
          exact hmark ⟨_, _, _, rfl⟩

omit hg in
/-- A string ends at the first quote that no backslash guards, whatever follows. -/
theorem body_of_inner {quote : Char} (hq : Quoted.isQuote quote = true) {inner : List Char}
    (h : Quoted.Inner quote inner) (rest : List Char) :
    Quoted.body quote (inner ++ quote :: rest) = (inner, quote :: rest) := by
  induction h with
  | nil =>
      have hguard : quote ≠ '\\' := ne_of_test hq rfl
      rw [List.nil_append, Quoted.body.eq_4 _ _ _ (fun hc _ => hguard hc) (fun _ _ hc _ => hguard hc), if_pos rfl]
  | plain hquote hguard _ ih =>
      rw [List.cons_append, Quoted.body.eq_4 _ _ _ (fun hc _ => hguard hc) (fun _ _ hc _ => hguard hc), if_neg hquote,
        ih]
  | guarded c _ ih => rw [List.cons_append, List.cons_append, Quoted.body.eq_3, ih]

variable {c : Char} {cs text rest : List Char} {k : Kind}

omit hg in
/-- A string has its closing quote, and a text that can be decoded before it. -/
theorem quoted_eq_token (hq : Quoted.isQuote c = true) :
    quoted c cs = ⟨text, .token k, rest⟩ ↔ ∃ inner value, cs = inner ++ c :: rest ∧ Quoted.Inner c inner
      ∧ Quoted.decode inner = some value ∧ text = c :: inner ++ [c] ∧ k = .str (String.ofList value) := by
  constructor
  · intro h
    have hinner := Quoted.inner_body c cs
    have happend := Quoted.body_append c cs
    unfold quoted at h
    split at h
    · rename_i inner d left hbody
      rw [hbody] at hinner happend
      split at h
      · rename_i hd
        subst hd
        split at h
        · rename_i value hv
          cases h
          exact ⟨inner, value, happend.symm, hinner, hv, rfl, rfl⟩
        · cases h
      · cases h
    · cases h
  · rintro ⟨inner, value, rfl, hinner, hv, rfl, rfl⟩
    unfold quoted
    rw [body_of_inner hq hinner]
    simp only [hv, if_true]

/-- The closing quote of a string is not the gap after it. -/
theorem quoted_append_gap (hq : Quoted.isQuote c = true) :
    quoted c (cs ++ [g]) = ⟨text, .token k, rest⟩ ↔
      ∃ left, rest = left ++ [g] ∧ quoted c cs = ⟨text, .token k, left⟩ := by
  simp only [quoted_eq_token hq]
  constructor
  · rintro ⟨inner, value, hcs, hinner, hv, htext, hk⟩
    have hne : c ≠ g := by
      rintro rfl
      obtain (rfl | rfl) | rfl := eq_of_isGap hg <;> cases hq
    obtain rfl | ⟨left, d, rfl⟩ := List.eq_nil_or_concat rest
    · exact absurd (List.append_inj' hcs rfl).2 (by simpa using hne.symm)
    · rw [List.concat_eq_append] at hcs ⊢
      rw [← List.cons_append, ← List.append_assoc] at hcs
      obtain ⟨rfl, hd⟩ := List.append_inj' hcs rfl
      cases hd
      exact ⟨left, rfl, inner, value, rfl, hinner, hv, htext, hk⟩
  · rintro ⟨left, rfl, inner, value, rfl, hinner, hv, htext, hk⟩
    exact ⟨inner, value, by simp, hinner, hv, htext, hk⟩

omit hg in
theorem single_append (cs more : List Char) : single c (cs ++ more) = (single c cs).followedBy more := by
  unfold single
  cases sign? c <;> rfl

theorem sign_append_gap (cs : List Char) : sign c (cs ++ [g]) = (sign c cs).followedBy [g] := by
  unfold sign
  cases cs with
  | nil =>
      dsimp only [List.nil_append]
      rw [sign₂?_gap hg]
      exact single_append [] [g]
  | cons d cs =>
      dsimp only [List.cons_append]
      cases sign₂? c d with
      | none => exact single_append (d :: cs) [g]
      | some k => rfl

theorem numeral_append_gap (cs : List Char) : numeral (cs ++ [g]) = (numeral cs).followedBy [g] := by
  unfold numeral
  rw [take_append_gap hg]
  dsimp only
  cases Numeral.value? (Numeral.take cs).1 <;> rfl

/-- Outside of strings a gap ends every lexeme, faults too. -/
theorem first_append_gap_of_not_quote (hq : Quoted.isQuote c = false) (cs : List Char) :
    first c (cs ++ [g]) = (first c cs).followedBy [g] := by
  unfold first
  by_cases hgap : isGap c = true
  · rw [if_pos hgap, if_pos hgap]
    rfl
  rw [if_neg hgap, if_neg hgap]
  by_cases hword : isWordStart c = true
  · rw [if_pos hword, if_pos hword, takeWhile_append_of_stop (breaks_gap hg), dropWhile_append_of_stop (breaks_gap hg)]
    rfl
  rw [if_neg hword, if_neg hword]
  by_cases hdigit : c.isDigit = true
  · rw [if_pos hdigit, if_pos hdigit]
    exact numeral_append_gap hg (c :: cs)
  rw [if_neg hdigit, if_neg hdigit, hq, if_neg Bool.false_ne_true, if_neg Bool.false_ne_true]
  exact sign_append_gap hg cs

omit hg in
theorem first_of_isQuote (hq : Quoted.isQuote c = true) (cs : List Char) : first c cs = quoted c cs := by
  have hc : c = '"' ∨ c = '\'' := by simpa [Quoted.isQuote] using hq
  obtain rfl | rfl := hc <;> rfl

/-- A token is the same token with a gap at the end of what follows it. -/
theorem first_append_gap :
    first c (cs ++ [g]) = ⟨text, .token k, rest⟩ ↔
      ∃ left, rest = left ++ [g] ∧ first c cs = ⟨text, .token k, left⟩ := by
  cases hq : Quoted.isQuote c with
  | true =>
      rw [first_of_isQuote hq, first_of_isQuote hq]
      exact quoted_append_gap hg hq
  | false =>
      rw [first_append_gap_of_not_quote hg hq]
      cases first c cs with
      | mk text' meaning left =>
          constructor
          · intro h
            cases h
            exact ⟨left, rfl, rfl⟩
          · rintro ⟨_, rfl, h⟩
            cases h
            rfl

theorem Lexes.append_gap {ks : List Kind} (h : Lexes cs ks) : Lexes (cs ++ [g]) ks := by
  induction h with
  | nil => exact .gap hg .nil
  | gap h _ ih => exact .gap h ih
  | token h _ ih => exact .token ((first_append_gap hg).2 ⟨_, rfl, h⟩) ih

theorem Lexes.of_append_gap {ks : List Kind} (h : Lexes (cs ++ [g]) ks) : Lexes cs ks := by
  generalize hcs : cs ++ [g] = cs' at h
  induction h generalizing cs with
  | nil => exact absurd hcs (by simp)
  | gap hgap hs ih =>
      obtain _ | ⟨d, cs⟩ := cs
      · cases hcs
        exact hs
      · cases hcs
        exact .gap hgap (ih rfl)
  | token hfirst hs ih =>
      obtain _ | ⟨d, cs⟩ := cs
      · cases hcs
        rw [first_of_isGap hg] at hfirst
        cases hfirst
      · cases hcs
        obtain ⟨left, rfl, hleft⟩ := (first_append_gap hg).1 hfirst
        exact .token hleft (ih rfl)

end Gap

/-- **Gaps at the end of the code.** -/
theorem lexes_append_gaps {gs : List Char} (hgs : ∀ g ∈ gs, isGap g = true) {cs : List Char} {ks : List Kind} :
    Lexes (cs ++ gs) ks ↔ Lexes cs ks := by
  induction gs generalizing cs with
  | nil => rw [List.append_nil]
  | cons g gs ih =>
      have hg : isGap g = true := hgs g List.mem_cons_self
      rw [List.append_cons, ih fun g' hg' => hgs g' (List.mem_cons_of_mem g hg')]
      exact ⟨.of_append_gap hg, .append_gap hg⟩

end Lexeme

end CostBound
