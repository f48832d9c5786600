import CostBound.Proofs.LockstepProgram
import CostBound.Proofs.Spans

/-!
# Blocks are closed

Scanning and reading agree on layout: as many blocks are open for the reader as there are widths open for the scanner,
so the tokens never run out inside a block.

* `Token.Balanced` — tokens that close some open blocks and all those they open, and then end.
* `Scan.Scanned.balanced` — what is scanned is balanced.
* `Span.Marked` — a span from the start of a token to the end of a token.
* `TokenReader.Contained` — a reader that never looks past some tokens; `TokenReader.program_contained` and
  `TokenReader.exprToEnd_contained` say so of balanced ones.
* `TokenReader.commands_ne_nil` — a block that opens with a token of its own has a statement.
* `Token.scan_never_missing` — reading what was scanned never misses a token, and closes no empty block.
-/

namespace CostBound

open Token (Kind)
open TokenReader

/-! ### Balanced tokens -/

namespace Token

theorem Kind.newline_or_of_isSteady {k : Kind} (h : k.isSteady = true) : k = .newline ∨ k.isLayout = false := by
  cases k with
  | newline => exact .inl rfl
  | indent | dedent | eof => cases h
  | _ => exact .inr rfl

/-- `Balanced d ts`: the tokens close `d` blocks that are open before them and all those they open, and then the text
ends. A block opens with a token that is no layout. -/
inductive Balanced : Nat → List Token → Prop
  | eof {t : Token} (h : t.kind = .eof) : Balanced 0 [t]
  | indent {d : Nat} {t u : Token} {ts : List Token} (h : t.kind = .indent) (hu : u.kind.isLayout = false)
      (hs : Balanced (d + 1) (u :: ts)) : Balanced d (t :: u :: ts)
  | dedent {d : Nat} {t : Token} {ts : List Token} (h : t.kind = .dedent) (hs : Balanced d ts) :
      Balanced (d + 1) (t :: ts)
  | other {d : Nat} {t : Token} {ts : List Token} (h : t.kind = .newline ∨ t.kind.isLayout = false)
      (hs : Balanced d ts) : Balanced d (t :: ts)

namespace Balanced

variable {d : Nat} {t : Token} {ts us : List Token}

theorem append (h : Balanced d ts) (hus : ∀ u ∈ us, u.kind.isLayout = false) : Balanced d (us ++ ts) := by
  induction us with
  | nil => exact h
  | cons u us ih =>
      obtain ⟨hu, hus⟩ := List.forall_mem_cons.1 hus
      exact .other (.inr hu) (ih hus)

theorem append_dedents (h : Balanced d ts) (us : List Token) (hus : ∀ u ∈ us, u.kind = .dedent) :
    Balanced (us.length + d) (us ++ ts) := by
  induction us with
  | nil =>
      rw [List.length_nil, Nat.zero_add]
      exact h
  | cons u us ih =>
      obtain ⟨hu, hus⟩ := List.forall_mem_cons.1 hus
      rw [List.length_cons, Nat.succ_add]
      exact .dedent hu (ih hus)

/-- What is left of balanced tokens is balanced. -/
theorem of_suffix (h : Balanced d ts) (hus : us <:+ ts) (hne : us ≠ []) : ∃ e, Balanced e us := by
  induction h with
  | @eof t h =>
      rcases List.suffix_cons_iff.1 hus with rfl | hus
      · exact ⟨0, .eof h⟩
      · exact absurd (List.suffix_nil.1 hus) hne
  | indent h hu hs ih =>
      rcases List.suffix_cons_iff.1 hus with rfl | hus
      · exact ⟨_, .indent h hu hs⟩
      · exact ih hus
  | dedent h hs ih =>
      rcases List.suffix_cons_iff.1 hus with rfl | hus
      · exact ⟨_, .dedent h hs⟩
      · exact ih hus
  | other h hs ih =>
      rcases List.suffix_cons_iff.1 hus with rfl | hus
      · exact ⟨_, .other h hs⟩
      · exact ih hus

theorem ne_nil (h : Balanced d ts) : ts ≠ [] := by
  cases h <;> exact List.cons_ne_nil _ _

theorem of_indent (h : Balanced d (t :: ts)) (ht : t.kind = .indent) :
    Balanced (d + 1) ts ∧ ∃ u us, ts = u :: us ∧ u.kind.isLayout = false := by
  cases h with
  | eof h => cases ht.symm.trans h
  | indent h hu hs => exact ⟨hs, _, _, rfl, hu⟩
  | dedent h hs => cases ht.symm.trans h
  | other h hs => rw [ht] at h; rcases h with h | h <;> cases h

theorem of_dedent (h : Balanced (d + 1) (t :: ts)) (ht : t.kind = .dedent) : Balanced d ts := by
  cases h with
  | indent h hu hs => cases ht.symm.trans h
  | dedent h hs => exact hs
  | other h hs => rw [ht] at h; rcases h with h | h <;> cases h

theorem of_other (h : Balanced d (t :: ts)) (ht : t.kind = .newline ∨ t.kind.isLayout = false) : Balanced d ts := by
  cases h with
  | eof h => rw [h] at ht; rcases ht with ht | ht <;> cases ht
  | indent h hu hs => rw [h] at ht; rcases ht with ht | ht <;> cases ht
  | dedent h hs => rw [h] at ht; rcases ht with ht | ht <;> cases ht
  | other h hs => exact hs

/-- The text does not end inside a block. -/
theorem ne_eof (h : Balanced (d + 1) (t :: ts)) : t.kind ≠ .eof := by
  intro ht
  cases h with
  | indent h hu hs => cases ht.symm.trans h
  | dedent h hs => cases ht.symm.trans h
  | other h hs => rw [ht] at h; rcases h with h | h <;> cases h

end Balanced

end Token

/-- As many blocks are open as widths. -/
theorem Scan.Scanned.balanced {offset : Nat} {opened : List Nat} {cs : List Char} {ts : List Token}
    (h : Scanned offset opened cs ts) : Token.Balanced opened.length ts := by
  induction h with
  | done offset opened =>
      have hclosed := (Token.Balanced.eof (t := ⟨.eof, ⟨offset, 0⟩⟩) rfl).append_dedents
        (opened.map fun _ => ⟨.dedent, ⟨offset, 0⟩⟩) (by simp)
      rwa [List.length_map] at hclosed
  | blank hl h hs ih => exact ih
  | @line offset opened opened' text rest layout body ts hl h ht hi hb hs ih =>
      have hcut := cut_of_place hb
      have hbody : Token.Balanced opened'.length (body ++ lineEnd offset text :: ts) :=
        (Token.Balanced.other (.inl rfl) ih).append hcut.isLayout_eq
      rw [List.append_assoc]
      obtain ⟨-, -, ⟨rfl, hlength⟩ | ⟨n, rfl, hlength⟩⟩ := indentation_eq_some hi
      · obtain ⟨u, body, rfl⟩ := List.exists_cons_of_ne_nil (hcut.ne_nil h)
        rw [hlength] at hbody
        exact .indent rfl (hcut.isLayout_eq u List.mem_cons_self) hbody
      · have hplaced := hbody.append_dedents (placed offset (List.replicate n .dedent) text) (by
          intro u hu
          obtain ⟨k, hk, rfl⟩ := List.mem_map.1 hu
          exact List.eq_of_mem_replicate hk)
        rw [placed, List.length_map, List.length_replicate] at hplaced
        rw [hlength]
        exact hplaced

/-! ### Reading to the end -/

theorem Scan.IsLine.ne_nil {text rest : List Char} (h : IsLine text rest) : text ≠ [] := by
  cases h with
  | ended body rest h => exact List.append_ne_nil_of_right_ne_nil _ (List.cons_ne_nil _ _)
  | last h hne => exact hne

/-- No token stops at the start of a text, unless the text is empty. -/
theorem Scan.Scanned.eq_nil_of_stop {cs : List Char} {ts : List Token} {t : Token} (h : Scanned 0 [] cs ts)
    (ht : t ∈ ts) (hstop : t.span.stop = 0) : cs = [] := by
  generalize hoffset : 0 = offset at h
  generalize hopened : [] = opened at h
  induction h with
  | done offset opened => rfl
  | @blank offset opened text rest ts hl h hs ih =>
      have hlater := hs.le_offset t ht
      have hpos := utf8Length_pos hl.ne_nil
      have : t.span.offset ≤ t.span.stop := Nat.le_add_right _ _
      omega
  | @line offset opened opened' text rest layout body ts hl h _ hi hb hs ih =>
      subst hoffset hopened
      have hpos := utf8Length_pos hl.ne_nil
      have hstart : t.span.offset ≤ t.span.stop := Nat.le_add_right _ _
      rcases List.mem_append.1 ht with ht | ht
      · rcases List.mem_append.1 ht with ht | ht
        · -- a line that starts the text and has no margin opens nothing and closes nothing
          obtain ⟨k, hk, rfl⟩ := List.mem_map.1 ht
          have hwidth : leading text = 0 := Nat.eq_zero_of_add_eq_zero_left hstop
          rw [hwidth] at hi
          cases hi
          cases hk
        · obtain ⟨left, part, right, -, hspan, hw⟩ := (cut_of_place hb).stretch t ht
          have hpart := utf8Length_pos hw.ne_nil
          rw [hspan] at hstop
          have : 0 + leading text + utf8Length left + utf8Length part = 0 := hstop
          omega
      · rcases List.mem_cons.1 ht with rfl | ht
        · have : 0 + utf8Length text + 0 = 0 := hstop
          omega
        · have hlater := hs.le_offset t ht
          omega

/-- The span begins where a token begins and stops where one stops. -/
def Span.Marked (ts : List Token) (s : Span) : Prop :=
  (∃ t ∈ ts, t.span.offset = s.offset) ∧ ∃ t ∈ ts, t.span.stop = s.stop

/-- A span ends after the start of every span that begins no later. -/
theorem Span.le_stop {a b : Span} (h : a.offset ≤ b.offset) : a.offset ≤ b.stop :=
  Nat.le_trans h (Nat.le_add_right _ _)

theorem Span.Marked.join {ts : List Token} {a b : Span} (ha : a.Marked ts) (hb : b.Marked ts) :
    (a.join b).Marked ts := by
  unfold Span.join
  by_cases h : a.offset ≤ b.offset
  · rw [if_pos h]
    refine ⟨ha.1, ?_⟩
    rw [stop_between (le_stop h)]
    exact hb.2
  · rw [if_neg h]
    refine ⟨hb.1, ?_⟩
    rw [stop_between (le_stop (Nat.le_of_not_le h))]
    exact ha.2

/-- Balanced tokens, and the same with `more` after them, are read in step: errors are the same, lie among the tokens
and are not about missing ones. -/
def Lockstep.balanced (all more : List Token) : Lockstep where
  Rel d ts us := Token.Balanced d ts ∧ (∀ t ∈ ts, t ∈ all) ∧ us = ts ++ more
  Place s s' := s = s' ∧ s.Marked all
  Fails e e' := e = e' ∧ e.fault.isMissing = false ∧ e.span.Marked all
  Bound := Eq
  front := by
    rintro d ts us ⟨hts, hall, rfl⟩
    obtain ⟨t, ts, rfl⟩ := List.exists_cons_of_ne_nil hts.ne_nil
    have ht := hall t List.mem_cons_self
    exact .inr ⟨t, ts, t, ts ++ more, rfl, rfl, .same _, rfl, ⟨t, ht, rfl⟩, ⟨t, ht, rfl⟩⟩
  steady := by
    rintro d t ts u us ⟨hts, hall, heq⟩ hk
    cases heq
    exact ⟨hts.of_other (Kind.newline_or_of_isSteady hk), fun t ht => hall t (List.mem_cons_of_mem _ ht), rfl⟩
  indent := by
    rintro d t ts u us ⟨hts, hall, heq⟩ hk
    cases heq
    exact ⟨(hts.of_indent hk).1, fun t ht => hall t (List.mem_cons_of_mem _ ht), rfl⟩
  dedent := by
    rintro d t ts u us ⟨hts, hall, heq⟩ hk
    cases heq
    exact ⟨hts.of_dedent hk, fun t ht => hall t (List.mem_cons_of_mem _ ht), rfl⟩
  str := by
    rintro d t ts u us s s' ⟨hts, hall, heq⟩ hk hk'
    cases heq
    cases hk.symm.trans hk'
    refine ⟨⟨hts.of_other (.inr ?_), fun t ht => hall t (List.mem_cons_of_mem _ ht), rfl⟩, rfl⟩
    rw [hk]
    rfl
  default := rfl
  join := by
    rintro s _ r _ ⟨rfl, hs⟩ ⟨rfl, hr⟩
    exact ⟨rfl, hs.join hr⟩
  fault := by
    rintro fault s _ ⟨rfl, hs⟩ hfault
    exact ⟨rfl, hfault, hs⟩
  missing := by
    rintro d ⟨hts, -⟩
    exact absurd rfl hts.ne_nil
  unterminated := by
    rintro d t ts u us s s' ⟨hts, -⟩ hk
    exact absurd hk hts.ne_eof

namespace TokenReader

variable {α : Type}

/-- A reader that never looks past the tokens `ts`: an error lies among them and is not about a missing one, and the
outcome does not depend on what follows them. -/
structure Contained (r : TokenReader α) (ts : List Token) : Prop where
  error : ∀ e, r ts = .error e → e.fault.isMissing = false ∧ e.span.Marked ts
  more : ∀ more, (r (ts ++ more)).map Prod.fst = (r ts).map Prod.fst

theorem contained_of_meets {r : TokenReader α} {ts : List Token}
    (h : ∀ more, (Lockstep.balanced ts more).Meets 0 ts.length (ts ++ more).length Eq (r ts) (r (ts ++ more))) :
    Contained r ts := by
  constructor
  case error =>
    intro e he
    have hmeets := h []
    rw [he] at hmeets
    generalize r (ts ++ []) = y at hmeets
    cases hmeets with
    | error h => exact h.2
  case more =>
    intro more
    have hmeets := h more
    generalize r ts = x at hmeets ⊢
    generalize r (ts ++ more) = y at hmeets ⊢
    cases hmeets with
    | ok hv _ =>
        subst hv
        rfl
    | error h =>
        cases h.1
        rfl

theorem at_balanced {ts : List Token} (h : Token.Balanced 0 ts) (more : List Token) :
    (Lockstep.balanced ts more).At 0 ts.length (ts ++ more).length ts (ts ++ more) :=
  ⟨⟨h, fun _ ht => ht, rfl⟩, Nat.le_refl _, Nat.le_refl _⟩

theorem exprToEnd_contained {ts : List Token} (h : Token.Balanced 0 ts) : Contained exprToEnd ts :=
  contained_of_meets fun more => Lockstep.exprToEnd_meets (at_balanced h more)

theorem program_contained {ts : List Token} (h : Token.Balanced 0 ts) : Contained program ts := by
  refine contained_of_meets fun more => ?_
  refine (Lockstep.program_meets (at_balanced h more)).mono (Nat.le_refl _) (Nat.le_refl _) ?_
  -- claimed bounds are equal here, so related functions are the same
  rintro ⟨fs⟩ ⟨fs'⟩ hfs
  have hsame : List.Forall₂ Eq fs fs' := by
    refine hfs.imp ?_
    rintro ⟨⟩ ⟨⟩ ⟨rfl, rfl, rfl, hbound⟩
    cases hbound
    rfl
  rw [List.forall₂_eq_eq_eq] at hsame
  rw [hsame]

/-! ### Blocks have statements -/

/-- The first token of a block begins a statement. -/
theorem commands_ne_nil {opening closing : Span} {n : Nat} {t : Token} {ts rest : List Token} {commands : List Command}
    (ht : t.kind.isLayout = false) (h : statements opening n (t :: ts) = .ok ((commands, closing), rest)) :
    commands ≠ [] := by
  cases n with
  | zero =>
      rw [statements] at h
      cases h
  | succ n =>
      obtain ⟨k, span⟩ := t
      rw [statements, peek?_bind] at h
      have hcons : ∀ {command : Command} {mid : List Token},
          (statements opening n >>= fun p => pure (command :: p.1, p.2)) mid = .ok ((commands, closing), rest) →
            commands ≠ [] := by
        intro command mid h
        obtain ⟨_, _, -, hcommands⟩ := bind_eq_ok.1 h
        obtain ⟨heq, -⟩ := pure_eq_ok.1 hcommands
        cases heq
        exact List.cons_ne_nil _ _
      cases k with
      | newline | indent | dedent | eof => cases ht
      | kwPass =>
          obtain ⟨_, _, -, h₁⟩ := bind_eq_ok.1 h
          obtain ⟨_, _, -, h₂⟩ := bind_eq_ok.1 h₁
          exact hcons h₂
      | kwIf =>
          obtain ⟨_, _, -, h₁⟩ := bind_eq_ok.1 h
          obtain ⟨_, _, -, h₂⟩ := bind_eq_ok.1 h₁
          exact hcons h₂
      | ident name =>
          obtain ⟨_, _, -, h₁⟩ := bind_eq_ok.1 h
          exact hcons h₁
      | _ => exact absurd h failHere_ne_ok

/-- A block that was read: its line end, its `indent` and its statements. -/
theorem block_eq_ok {n : Nat} {c : Command} {span : Span} {ts rest : List Token}
    (h : block n ts = .ok ((c, span), rest)) :
    ∃ newline indent body m commands closing, ts = newline :: indent :: body ∧ indent.kind = .indent ∧
      statements indent.span m body = .ok ((commands, closing), rest) ∧ c = .seq commands := by
  cases n with
  | zero =>
      rw [block] at h
      cases h
  | succ n =>
      rw [block] at h
      obtain ⟨newline, mid, hnewline, h₁⟩ := bind_eq_ok.1 h
      obtain ⟨rfl, -⟩ := expect_eq_ok.1 hnewline
      obtain ⟨indent, body, hindent, h₂⟩ := bind_eq_ok.1 h₁
      obtain ⟨rfl, hkind⟩ := expect_eq_ok.1 hindent
      obtain ⟨⟨commands, closing⟩, _, hstatements, h₃⟩ := bind_eq_ok.1 h₂
      obtain ⟨hc, rfl⟩ := pure_eq_ok.1 h₃
      cases hc
      exact ⟨newline, indent, body, n, commands, closing, rfl, hkind, hstatements, rfl⟩

end TokenReader

/-! ### Messages -/

/-- The text `s` begins with `a`. -/
def Starts (a s : String) : Prop := a.toList <+: s.toList

/-- A text begins with its first part. -/
theorem starts_foldl (a : String) (parts : List String) : Starts a (parts.foldl (· ++ ·) a) := by
  have happend : ∀ (parts : List String) {s : String}, Starts a s → Starts a (parts.foldl (· ++ ·) s) := by
    intro parts
    induction parts with
    | nil => exact id
    | cons t parts ih =>
        intro s h
        refine ih ?_
        show a.toList <+: (s ++ t).toList
        rw [String.toList_append]
        exact h.trans (List.prefix_append _ _)
  exact happend parts List.prefix_rfl

instance (a s : String) : Decidable (Starts a s) := inferInstanceAs (Decidable (a.toList <+: s.toList))

/-- The messages about missing tokens. -/
def missingMessages : List String := ["unterminated block; expected dedent", "unexpected end of input"]

/-- They belong to no other fault. -/
theorem ParseFault.isMissing_of_message {fault : ParseFault} (h : fault.message ∈ missingMessages) :
    fault.isMissing = true := by
  -- any other message begins otherwise
  have hstart : ∀ a : String, (∀ m ∈ missingMessages, ¬ Starts a m) → Starts a fault.message →
      fault.isMissing = true :=
    fun a hnone ha => absurd ha (hnone _ h)
  cases fault with
  | endOfTokens | unterminatedBlock => rfl
  | noDefinition | noStatement | noBound | noExpression | noIdentifier | noEndOfInput | noEndOfLine
  | chainedComparison | stringValue => exact hstart _ (by decide +kernel) (starts_foldl _ [])
  | expected kind => exact hstart "expected " (by decide +kernel) (starts_foldl _ [_])
  | duplicateParameter name =>
      exact hstart "duplicate parameter `" (by decide +kernel) (starts_foldl _ [_, _])
  | noCall name =>
      exact hstart "`" (by decide +kernel) (starts_foldl _ [_, _])
  | callInExpression name =>
      exact hstart "calls to `" (by decide +kernel) (starts_foldl _ [_, _])
  | integerTooLarge value =>
      exact hstart "integer literal " (by decide +kernel) (starts_foldl _ [_, _])
  | illFormed error =>
      cases error with
      | scope function name params =>
          exact hstart "used variable `" (by decide +kernel) (starts_foldl _ [_, _, _, _, _, _])
      | undefinedFunction name =>
          exact hstart "no function named `" (by decide +kernel) (starts_foldl _ [_, _])
      | ambiguousFunction name count =>
          exact hstart "multiple functions named `" (by decide +kernel) (starts_foldl _ [_, _, _, _])
      | unknownOperator tag =>
          exact hstart "unknown operator `" (by decide +kernel) (starts_foldl _ [_, _])
      | arity callee expected found =>
          exact hstart "function `" (by decide +kernel) (starts_foldl _ [_, _, _, _, _])

namespace Token

/-- **Scanning and reading agree on layout.** The tokens of a text are read, as a program or as an expression, without
one that is missing: an error is not about the end of the tokens or about an open block, it lies between the start of
a token and the end of one, and tokens after the last one would change nothing. Every block that is read has a
statement. -/
theorem scan_never_missing {source : String} {ts : List Token} (h : Token.scan source = .ok ts) :
    (∀ e, program ts = .error e ∨ exprToEnd ts = .error e →
        e.fault.message ≠ "unterminated block; expected dedent" ∧ e.fault.message ≠ "unexpected end of input"
        ∧ e.span.Marked ts ∧ (e.span = .origin → source = ""))
      ∧ (∀ more, (program (ts ++ more)).map Prod.fst = (program ts).map Prod.fst
        ∧ (exprToEnd (ts ++ more)).map Prod.fst = (exprToEnd ts).map Prod.fst)
      ∧ ∀ us n c span rest, us <:+ ts → block n us = .ok ((c, span), rest) →
        ∃ newline indent body m commands closing, us = newline :: indent :: body ∧ indent.kind = .indent
          ∧ statements indent.span m body = .ok ((commands, closing), rest) ∧ c = .seq commands ∧ commands ≠ [] := by
  have hscanned : Scan.Scanned 0 [] source.toList ts := Scan.fromLines_eq_ok.1 h
  have hbalanced : Balanced 0 ts := hscanned.balanced
  have hprogram := program_contained hbalanced
  have hexpr := exprToEnd_contained hbalanced
  refine ⟨fun e he => ?_, fun more => ⟨hprogram.more more, hexpr.more more⟩, ?_⟩
  · obtain ⟨hfault, hmarked⟩ := he.elim (hprogram.error e) (hexpr.error e)
    have hmessage : ∀ m ∈ missingMessages, e.fault.message ≠ m := by
      intro m hm heq
      rw [← heq] at hm
      rw [ParseFault.isMissing_of_message hm] at hfault
      cases hfault
    refine ⟨hmessage _ (by simp [missingMessages]), hmessage _ (by simp [missingMessages]), hmarked, fun horigin => ?_⟩
    obtain ⟨-, t, ht, hstop⟩ := hmarked
    rw [horigin] at hstop
    exact String.toList_eq_nil_iff.1 (hscanned.eq_nil_of_stop ht hstop)
  · intro us n c span rest hus hread
    obtain ⟨newline, indent, body, m, commands, closing, rfl, hindent, hstatements, hc⟩ := block_eq_ok hread
    obtain ⟨d, hleft⟩ := hbalanced.of_suffix ((List.suffix_cons _ _).trans hus) (List.cons_ne_nil _ _)
    obtain ⟨-, u, rest', rfl, hu⟩ := hleft.of_indent hindent
    exact ⟨newline, indent, _, m, commands, closing, rfl, hindent, hstatements, hc, commands_ne_nil hu hstatements⟩

/-- A block that is closed, and one inside another in which a number stands for a statement. -/
def strayText : String := "def f():\n  pass\n\ndef g(n):\n  if n > 0:\n    f()\n    1\n"

def strayTokens : List Token := (Token.scan strayText).toOption.getD []

theorem scan_never_missing_stray :
    Token.scan strayText = .ok strayTokens
      ∧ program strayTokens = .error ⟨.noStatement, ⟨51, 1⟩⟩ ∧ Span.Marked strayTokens ⟨51, 1⟩
      ∧ (∀ more, (program (strayTokens ++ more)).map Prod.fst = .error ⟨.noStatement, ⟨51, 1⟩⟩)
      ∧ block 9 (strayTokens.drop 5) = .ok ((.pass, ⟨9, 8⟩), strayTokens.drop 10)
      ∧ ∃ commands, Command.pass = .seq commands ∧ commands ≠ [] := by
  have hscan : Token.scan strayText = .ok strayTokens := by decide +kernel
  have hread : program strayTokens = .error ⟨.noStatement, ⟨51, 1⟩⟩ := by decide +kernel
  have hblock : block 9 (strayTokens.drop 5) = .ok ((.pass, ⟨9, 8⟩), strayTokens.drop 10) := by decide +kernel
  obtain ⟨herror, hmore, hblocks⟩ := scan_never_missing hscan
  obtain ⟨-, -, hmarked, -⟩ := herror _ (.inl hread)
  obtain ⟨_, _, _, _, commands, _, -, -, -, hc, hne⟩ := hblocks _ _ _ _ _ (List.drop_suffix 5 _) hblock
  refine ⟨hscan, hread, hmarked, fun more => ?_, hblock, commands, hc, hne⟩
  rw [(hmore more).1, hread]
  rfl

end Token

end CostBound
