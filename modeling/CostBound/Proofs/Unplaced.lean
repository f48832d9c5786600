import CostBound.Proofs.LockstepProgram
import CostBound.Proofs.Nesting

/-!
# Tokens without their places

Where a line stands in a text has no say in the tokens that it has, and where tokens stand has none in what is read from
them. So two texts can be compared by the kinds of their tokens, line by line.

* `ScanError.unplaced` — the outcome of scanning, with places left out.
* `Lexeme.tokenKinds`, `Scan.enter`, `Scan.kindsFrom` — scanning without places: lexemes, one line, and lines.
* `Token.unplaced_scan` — scanning without places gives what is left of scanning when places are left out.
* `Lexeme.tokenKinds_all` — the tokens of a line of code are those that it consists of; `Scan.enter_eq_ok` says what a
  line can do.
* `Program.ofSource_eq_of_unplaced` — a text gives the program, or the message, of any text with the same tokens.
-/

namespace CostBound

open Token (Kind)
open TokenReader (kinds)

/-! ### Outcomes -/

/-- Two computations with the same outcome, up to what `g` and `r` leave out, end alike. -/
theorem outcomes_of_mapError_map_eq {ε ε' α β : Type} {g : α → β} {r : ε → ε'} {x y : Except ε α}
    (h : (x.map g).mapError r = (y.map g).mapError r) :
    (∃ a b, x = .ok a ∧ y = .ok b ∧ g a = g b) ∨ ∃ e e', x = .error e ∧ y = .error e' ∧ r e = r e' := by
  cases x with
  | ok a =>
      cases y with
      | ok b => exact .inl ⟨a, b, rfl, rfl, Except.ok.inj h⟩
      | error e' => cases h
  | error e =>
      cases y with
      | ok b => cases h
      | error e' => exact .inr ⟨e, e', rfl, rfl, Except.error.inj h⟩

/-- The outcome of scanning with places left out: `g` takes them from a result. -/
def ScanError.unplaced {α β : Type} (g : α → β) (x : Except ScanError α) : Except ScanFault β :=
  (x.map g).mapError (·.fault)

namespace ScanError

variable {α β γ δ : Type} {g : α → β} {h : γ → δ}

theorem unplaced_eq_ok {x : Except ScanError α} {b : β} : unplaced g x = .ok b ↔ ∃ a, x = .ok a ∧ g a = b := by
  cases x with
  | ok a =>
      constructor
      · intro hb
        exact ⟨a, rfl, Except.ok.inj hb⟩
      · rintro ⟨_, ha, rfl⟩
        cases ha
        rfl
  | error e =>
      constructor
      · intro hb
        cases hb
      · rintro ⟨_, ha, -⟩
        cases ha

/-- Places may be left out step by step. -/
theorem unplaced_bind {x : Except ScanError α} {f : α → Except ScanError γ} {f' : β → Except ScanFault δ}
    (hf : ∀ a, unplaced h (f a) = f' (g a)) : unplaced h (x >>= f) = unplaced g x >>= f' := by
  cases x with
  | ok a => exact hf a
  | error e => rfl

end ScanError

open ScanError (unplaced unplaced_bind unplaced_eq_ok)

/-! ### Scanning without places -/

/-- The kinds of the tokens among lexemes, or the first fault. -/
def Lexeme.tokenKinds : List Lexeme → Except ScanFault (List Kind)
  | [] => .ok []
  | l :: ls =>
      match l.meaning with
      | .gap => tokenKinds ls
      | .token kind => return kind :: (← tokenKinds ls)
      | .fault fault => .error fault

namespace Scan

/-- The kinds of the tokens of a line, and the widths that are open after it. A blank line has none and changes
nothing. -/
def enter (opened : List Nat) (text : List Char) : Except ScanFault (List Kind × List Nat) :=
  if isEmptyLine text then .ok ([], opened)
  else if '\t' ∈ content text then .error .tab
  else
    match indentation opened (leading text) with
    | none => .error .indentation
    | some r => return (r.1 ++ (← Lexeme.tokenKinds (Lexeme.all (codeOf text))) ++ [.newline], r.2)

/-- The kinds of the tokens of lines, inside the open widths. -/
def kindsFrom : List Nat → List (List Char) → Except ScanFault (List Kind)
  | opened, [] => .ok (List.replicate opened.length .dedent ++ [.eof])
  | opened, text :: rest => do
      let r ← enter opened text
      return r.1 ++ (← kindsFrom r.2 rest)

theorem unplaced_place (offset : Nat) (ls : List Lexeme) :
    unplaced kinds (place offset ls) = Lexeme.tokenKinds ls := by
  induction ls generalizing offset with
  | nil => rfl
  | cons l ls ih =>
      rw [place_cons]
      unfold Lexeme.tokenKinds
      cases l.meaning with
      | gap => exact ih _
      | token kind =>
          rw [← ih]
          exact unplaced_bind fun ts => rfl
      | fault fault => rfl

theorem unplaced_line {text : List Char} (h : isEmptyLine text = false) (offset : Nat) (opened : List Nat) :
    unplaced (fun r => (kinds r.1, r.2)) (line offset opened text) = enter opened text := by
  rw [line_eq]
  unfold enter
  rw [h, if_neg Bool.false_ne_true]
  simp only [List.contains_eq_mem, decide_eq_true_eq]
  by_cases ht : '\t' ∈ content text
  · rw [if_pos ht, if_pos ht]
    rfl
  · rw [if_neg ht, if_neg ht, show width (content text) = leading text from rfl]
    cases indentation opened (leading text) with
    | none => rfl
    | some r =>
        rw [← unplaced_place (offset + leading text)]
        refine unplaced_bind fun ts => ?_
        show Except.ok (kinds (r.1.map (⟨·, ⟨offset, leading text⟩⟩) ++ ts ++ [lineEnd offset text]), r.2) = _
        rw [TokenReader.kinds_append, TokenReader.kinds_append, TokenReader.kinds_map_mk]
        rfl

/-- **Lines without places.** -/
theorem unplaced_fromLines (offset : Nat) (opened : List Nat) (ls : List (List Char)) :
    unplaced kinds (fromLines offset opened ls) = kindsFrom opened ls := by
  induction ls generalizing offset opened with
  | nil =>
      rw [fromLines_nil]
      show Except.ok (kinds (closing offset opened)) = _
      rw [kinds_closing]
      rfl
  | cons text ls ih =>
      rw [fromLines_cons]
      unfold kindsFrom
      cases hempty : isEmptyLine text with
      | true =>
          rw [if_pos rfl, ih, enter, if_pos hempty]
          show _ = (kindsFrom opened ls >>= fun ks => pure ([] ++ ks))
          cases kindsFrom opened ls <;> rfl
      | false =>
          rw [if_neg Bool.false_ne_true, ← unplaced_line hempty offset opened]
          refine unplaced_bind fun r => ?_
          show _ = (kindsFrom r.2 ls >>= fun ks => pure (kinds r.1 ++ ks))
          rw [← ih (offset + utf8Length text)]
          refine unplaced_bind fun ts => ?_
          show Except.ok (kinds (r.1 ++ ts)) = _
          rw [TokenReader.kinds_append]
          rfl

end Scan

open Scan in
/-- **Scanning without places.** -/
theorem Token.unplaced_scan (source : String) :
    unplaced kinds (Token.scan source) = kindsFrom [] (lines source.toList) :=
  unplaced_fromLines 0 [] _

/-! ### Lines of code -/

namespace Lexeme

theorem lexes_of_tokenKinds {n : Nat} {cs : List Char} {ks : List Kind} (hn : cs.length ≤ n)
    (h : tokenKinds (allWithin n cs) = .ok ks) : Lexes cs ks := by
  induction n generalizing cs ks with
  | zero =>
      obtain rfl := List.length_eq_zero_iff.1 (Nat.le_zero.1 hn)
      cases h
      exact .nil
  | succ n ih =>
      cases cs with
      | nil =>
          cases h
          exact .nil
      | cons c cs =>
          rw [allWithin, tokenKinds] at h
          cases hm : (first c cs).meaning with
          | gap =>
              have hgap := isGap_of_first hm
              rw [hm, first_of_isGap hgap] at h
              exact .gap hgap (ih (Nat.le_of_succ_le_succ hn) h)
          | token k =>
              rw [hm] at h
              obtain ⟨ks, hks, hcons⟩ := except_bind_eq_ok.1 h
              cases hcons
              have hne := (written_first hm).ne_nil
              have hrest := ih (Scan.length_rest_of_first hne hn) hks
              have happend := first_append c cs
              obtain ⟨d, text, htext⟩ := List.exists_cons_of_ne_nil hne
              rw [htext] at happend
              obtain ⟨rfl, -⟩ := List.cons.inj happend
              have hfirst : first d cs = ⟨d :: text, .token k, (first d cs).rest⟩ := by rw [← htext, ← hm]
              exact .token hfirst hrest
          | fault fault =>
              rw [hm] at h
              cases h

/-- **The tokens of a line of code.** -/
theorem tokenKinds_all {cs : List Char} {ks : List Kind} : tokenKinds (all cs) = .ok ks ↔ Lexes cs ks := by
  constructor
  · exact lexes_of_tokenKinds (Nat.le_refl _)
  · intro h
    obtain ⟨ts, hts, hks⟩ := h.place (Nat.le_refl _) 0
    rw [← Scan.unplaced_place 0]
    exact unplaced_eq_ok.2 ⟨ts, hts, hks⟩

theorem Lexes.unique {cs : List Char} {ks ks' : List Kind} (h : Lexes cs ks) (h' : Lexes cs ks') : ks = ks' :=
  Except.ok.inj ((tokenKinds_all.2 h).symm.trans (tokenKinds_all.2 h'))

end Lexeme

/-- **What a line can do.** It is blank, or it has tokens of its own after its layout. -/
theorem Scan.enter_eq_ok {opened : List Nat} {text : List Char} {r : List Kind × List Nat} :
    enter opened text = .ok r ↔ isEmptyLine text = true ∧ r = ([], opened) ∨
      isEmptyLine text = false ∧ '\t' ∉ content text ∧ ∃ layout opened' ks,
        indentation opened (leading text) = some (layout, opened') ∧ Lexeme.Lexes (codeOf text) ks
          ∧ r = (layout ++ ks ++ [.newline], opened') := by
  unfold enter
  cases isEmptyLine text with
  | true => simp [eq_comm]
  | false =>
      by_cases ht : '\t' ∈ content text
      · simp [ht]
      · simp only [ht, Bool.false_eq_true, if_false, false_and, false_or, not_false_eq_true, true_and]
        cases indentation opened (leading text) with
        | none => simp
        | some p =>
            obtain ⟨layout, kept⟩ := p
            constructor
            · intro h
              obtain ⟨ks, hks, hr⟩ := except_bind_eq_ok.1 h
              cases hr
              exact ⟨layout, kept, ks, rfl, Lexeme.tokenKinds_all.1 hks, rfl⟩
            · rintro ⟨_, _, ks, hlayout, hks, rfl⟩
              cases hlayout
              exact except_bind_eq_ok.2 ⟨ks, Lexeme.tokenKinds_all.2 hks, rfl⟩

theorem Scan.kindsFrom_cons_eq_ok {opened : List Nat} {text : List Char} {ls : List (List Char)} {ks : List Kind} :
    kindsFrom opened (text :: ls) = .ok ks ↔
      ∃ r ks', enter opened text = .ok r ∧ kindsFrom r.2 ls = .ok ks' ∧ ks = r.1 ++ ks' := by
  rw [kindsFrom, except_bind_eq_ok]
  constructor
  · intro h
    obtain ⟨r, hr, hrest⟩ := h
    obtain ⟨ks', hks', hks⟩ := except_bind_eq_ok.1 hrest
    exact ⟨r, ks', hr, hks', (Except.ok.inj hks).symm⟩
  · rintro ⟨r, ks', hr, hks', rfl⟩
    exact ⟨r, hr, except_bind_eq_ok.2 ⟨ks', hks', rfl⟩⟩

/-! ### Reading -/

/-- Tokens are read in step with tokens of the same kinds: what is read, and what is wrong, is the same. -/
def Lockstep.byKind : Lockstep where
  Rel _ ts us := kinds ts = kinds us
  Place _ _ := True
  Fails e e' := e.fault = e'.fault
  Bound := Eq
  front := by
    intro _ ts us h
    cases ts with
    | nil =>
        cases us with
        | nil => exact .inl ⟨rfl, rfl⟩
        | cons u us => cases h
    | cons t ts =>
        cases us with
        | nil => cases h
        | cons u us =>
            have hkind : t.kind = u.kind := (List.cons.inj h).1
            refine .inr ⟨t, ts, u, us, rfl, rfl, ?_, trivial⟩
            rw [hkind]
            exact .same u.kind
  steady h _ := (List.cons.inj h).2
  indent h _ := (List.cons.inj h).2
  dedent h _ := (List.cons.inj h).2
  str := by
    intro _ t ts u us s s' h hs hs'
    obtain ⟨hkind, htail⟩ := List.cons.inj h
    cases (hs.symm.trans hkind).trans hs'
    exact ⟨htail, rfl⟩
  default := rfl
  join _ _ := trivial
  fault _ _ := rfl
  missing _ _ := rfl
  unterminated _ _ _ := rfl

theorem Lockstep.eq_of_twins {f f' : Function} (h : byKind.Twins f f') : f = f' := by
  have hbound : f.bound = f'.bound := h.bound
  rw [h.eq_withBound, ← hbound]
  rfl

theorem Lockstep.eq_of_forall₂_twins {p p' : Program} (h : List.Forall₂ byKind.Twins p.functions p'.functions) :
    p = p' := by
  have heq : p.functions = p'.functions := List.forall₂_eq_eq_eq ▸ h.imp fun _ _ => eq_of_twins
  cases p
  cases p'
  cases heq
  rfl

/-- Tokens of the same kinds are the same program, or have the same fault. -/
theorem TokenReader.program_eq_of_kinds {ts us : List Token} (h : kinds ts = kinds us) :
    ((program ts).map Prod.fst).mapError (·.fault) = ((program us).map Prod.fst).mapError (·.fault) := by
  have hmeets : Lockstep.byKind.Meets 0 _ _ _ (program ts) (program us) :=
    Lockstep.program_meets ⟨h, Nat.le_refl _, Nat.le_refl _⟩
  generalize program ts = x at hmeets
  generalize program us = y at hmeets
  cases hmeets with
  | ok hv _ =>
      cases Lockstep.eq_of_forall₂_twins hv
      rfl
  | error he => exact congrArg Except.error he

/-- **Texts with the same tokens.** They are the same program, or cannot be read for the same reason. -/
theorem Program.ofSource_eq_of_unplaced {source source' : String}
    (h : unplaced kinds (Token.scan source) = unplaced kinds (Token.scan source')) :
    (ofSource source).mapError (·.message) = (ofSource source').mapError (·.message) := by
  unfold ofSource TokenReader.runOn
  obtain ⟨ts, us, hts, hus, hkinds⟩ | ⟨e, e', he, he', hfault⟩ := outcomes_of_mapError_map_eq h
  · rw [hts, hus]
    show ((TokenReader.program ts).mapError SourceError.parse >>= fun r => pure r.1).mapError _
      = ((TokenReader.program us).mapError SourceError.parse >>= fun r => pure r.1).mapError _
    obtain ⟨r, r', hr, hr', hprogram⟩ | ⟨e, e', he, he', hfault⟩ :=
      outcomes_of_mapError_map_eq (TokenReader.program_eq_of_kinds hkinds)
    · rw [hr, hr']
      exact congrArg Except.ok hprogram
    · rw [he, he']
      show Except.error ("parse error: " ++ e.fault.message) = Except.error ("parse error: " ++ e'.fault.message)
      rw [hfault]
  · rw [he, he']
    show Except.error ("lex error: " ++ e.fault.message) = Except.error ("lex error: " ++ e'.fault.message)
    rw [hfault]

end CostBound
