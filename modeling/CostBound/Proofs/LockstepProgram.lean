import Mathlib.Data.List.Forall2
import CostBound.Proofs.Lockstep
import CostBound.Proofs.ReadingProgram

/-!
# Two readings of a program in step

* `Lockstep.parameters_meets`, `Lockstep.arguments_meets`, `Lockstep.call_meets` — lists in brackets and calls.
* `Lockstep.phrases_locked` — branches, blocks and their statements, by induction on the number of tokens left.
* `Lockstep.Twins` — functions that differ at most in their claimed bounds; `Lockstep.make_twins` says that the bound
  has no say in whether a function is well-formed.
* `Lockstep.definition_meets`, `Lockstep.program_meets` — definitions and whole programs.
-/

namespace CostBound

open Token (Kind)
open TokenReader

namespace Lockstep

variable {L : Lockstep} {d n n' N N' : Nat} {ts us : List Token}

/-! ### Statements -/

theorem parametersFrom_meets (seen : List String) (h : L.At d n n' ts us) :
    L.Meets d n n' Eq (parametersFrom seen ts) (parametersFrom seen us) := by
  induction n generalizing n' seen ts us with
  | zero =>
      cases h.front with
      | none => exact .error (L.missing h.rel .endOfTokens)
  | succ n ih =>
      obtain _ | ⟨_, m', ⟨k, span⟩, ⟨k', span'⟩, ts, us, halike, hplace⟩ := h.front
      · exact .error (L.missing h.rel .endOfTokens)
      cases halike with
      | strings s s' => exact .error (L.fault hplace rfl)
      | same k =>
          cases k with
          | ident name =>
              have htail := h.steady rfl
              by_cases hseen : name ∈ seen
              · simp only [parametersFrom, if_pos hseen]
                exact .error (L.fault hplace rfl)
              obtain _ | ⟨m, m', comma, comma', ts, us, halike, -⟩ := htail.front
              · simp only [parametersFrom, if_neg hseen]
                exact .ok rfl htail.succ
              simp only [parametersFrom, if_neg hseen]
              by_cases hcomma : comma.kind = .comma
              · have hrest := htail.steady (by rw [hcomma]; rfl)
                rw [if_pos hcomma, if_pos ((halike.eq_iff rfl).1 hcomma)]
                by_cases hclose : frontKind ts = some .rparen
                · rw [if_pos hclose, if_pos ((hrest.front_eq rfl).1 hclose)]
                  exact .ok rfl hrest.succ.succ
                · rw [if_neg hclose, if_neg (fun hclose' => hclose ((hrest.front_eq rfl).2 hclose'))]
                  exact (ih _ hrest.succ).succ
              · rw [if_neg hcomma, if_neg (fun hcomma' => hcomma ((halike.eq_iff rfl).2 hcomma'))]
                exact .ok rfl htail.succ
          | _ => exact .error (L.fault hplace rfl)

theorem parameters_meets (h : L.At d n n' ts us) : L.Meets d n n' Eq (parameters ts) (parameters us) :=
  .ite_front h rfl (fun _ => .ok rfl h) (parametersFrom_meets [] h)

theorem argumentsWithin_nil (n : Nat) : argumentsWithin n [] = .error ⟨.endOfTokens, .origin⟩ := by
  cases n with
  | zero => rfl
  | succ n => rfl

theorem argumentsWithin_meets (h : L.At d n n' ts us) :
    L.Meets d n n' Eq (argumentsWithin n ts) (argumentsWithin n' us) := by
  induction n generalizing n' ts us with
  | zero =>
      cases h.front with
      | none =>
          rw [argumentsWithin_nil, argumentsWithin_nil]
          exact .error (L.missing h.rel .endOfTokens)
  | succ n ih =>
      obtain _ | ⟨_, m', _, _, _, _, -, -⟩ := h.front
      · rw [argumentsWithin_nil, argumentsWithin_nil]
        exact .error (L.missing h.rel .endOfTokens)
      refine (expr_meets h).bind fun {e _ _ _} he hat => ?_
      subst he
      refine .ite_front hat rfl (fun hcomma => ?_) (.ok rfl hat)
      refine .next_front hat rfl hcomma fun _ hat => ?_
      refine .ite_front hat rfl (fun _ => .ok rfl hat.succ) ?_
      refine (ih hat).bind fun hes hat => ?_
      subst hes
      exact .ok rfl hat.succ

theorem arguments_meets (h : L.At d n n' ts us) : L.Meets d n n' Eq (arguments ts) (arguments us) := by
  refine .ite_front h rfl (fun _ => .ok rfl h) ?_
  exact (argumentsWithin_meets h.self).mono h.left h.right id

theorem call_meets (h : L.At d (n + 1) (n' + 1) ts us) : L.Meets d n n' Eq (call ts) (call us) := by
  refine (ident_meets h).bind fun {p q _ _} hname hat => ?_
  obtain ⟨callee, span⟩ := p
  obtain ⟨_, span'⟩ := q
  obtain ⟨rfl, hplace⟩ := hname
  refine .ite_front hat rfl (fun hopen => ?_) (.error (L.fault hplace rfl))
  refine .next_front hat.succ rfl hopen fun _ hat => ?_
  refine (arguments_meets hat).bind fun hargs hat => ?_
  subst hargs
  refine (expect_meets hat.succ rfl).bind fun _ hat => ?_
  exact (endOfLine_meets hat).bind fun _ hat => .ok rfl hat

theorem alternatives_locked {arms arms' : TokenReader Command} {block block' : TokenReader (Command × Span)}
    (harms : L.Locked N N' Eq arms arms') (hblock : L.Locked N N' L.Placed block block') (test : Expr)
    (yes : Command) : L.Locked N N' Eq (alternatives arms block test yes) (alternatives arms' block' test yes) := by
  intro d n n' ts us hn hn' h
  refine (skipNewlines_meets h).bind fun {_ _ ts us} _ hat => ?_
  rw [peek?_bind, peek?_bind]
  obtain _ | ⟨m, m', ⟨k, span⟩, ⟨k', span'⟩, ts, us, halike, hplace⟩ := hat.front
  · exact .ok rfl hat
  cases halike with
  | strings s s' => exact .ok rfl hat
  | same k =>
      cases k with
      | kwElif =>
          refine .next_front hat rfl rfl fun _ hat => ?_
          refine (harms (Nat.le_of_succ_le hn) (Nat.le_of_succ_le hn') hat).bind fun hno hat => ?_
          subst hno
          exact .ok rfl hat.succ
      | kwElse =>
          refine .next_front hat rfl rfl fun _ hat => ?_
          refine (expect_meets hat.succ rfl).bind fun _ hat => ?_
          refine (hblock (Nat.le_of_succ_le hn) (Nat.le_of_succ_le hn') hat).bind fun {p q _ _} hno hat => ?_
          obtain ⟨no, closing⟩ := p
          obtain ⟨_, closing'⟩ := q
          obtain ⟨rfl, -⟩ := hno
          exact .ok rfl hat.succ
      | _ => exact .ok rfl hat

/-- The statements of a block are read in step, from inside the block to the outside. -/
def StatementsLocked (L : Lockstep) (N N' : Nat) : Prop :=
  ∀ ⦃d n n' ts us opening opening'⦄, n ≤ N → n' ≤ N' → L.Place opening opening' → L.At (d + 1) n n' ts us →
    L.Meets d n n' L.Placed (statements opening N ts) (statements opening' N' us)

theorem branches_locked_succ (hbranches : L.Locked N N' Eq (branches N) (branches N'))
    (hblock : L.Locked N N' L.Placed (block N) (block N')) :
    L.Locked (N + 1) (N' + 1) Eq (branches (N + 1)) (branches (N' + 1)) := by
  intro d n n' ts us hn hn' h
  simp only [branches]
  refine (expr_meets h).bind fun {test _ _ _} htest hat => ?_
  subst htest
  -- the colon is taken, so the block is read from fewer tokens
  obtain _ | ⟨m, m', _, _, _, _, -, -⟩ := hat.front
  · exact .error (L.missing hat.rel .endOfTokens)
  have hm := Nat.le_of_succ_le_succ hn
  have hm' := Nat.le_of_succ_le_succ hn'
  refine (expect_meets hat rfl).bind fun _ hat => ?_
  refine (hblock hm hm' hat).bind fun {p q _ _} hyes hat => ?_
  obtain ⟨yes, closing⟩ := p
  obtain ⟨_, closing'⟩ := q
  obtain ⟨rfl, -⟩ := hyes
  exact (alternatives_locked hbranches hblock test yes hm hm' hat).succ

theorem block_locked_succ (hstatements : L.StatementsLocked N N') :
    L.Locked (N + 1) (N' + 1) L.Placed (block (N + 1)) (block (N' + 1)) := by
  intro d n n' ts us hn hn' h
  simp only [block]
  obtain _ | ⟨m, m', _, _, _, _, -, -⟩ := h.front
  · exact .error (L.missing h.rel .endOfTokens)
  refine (expect_meets h rfl).bind fun _ hat => ?_
  refine (expect_meets_of hat.succ rfl L.indent).bind fun {opening opening' _ _} hopening hat => ?_
  have hm := Nat.le_of_succ_le_succ hn
  have hm' := Nat.le_of_succ_le_succ hn'
  refine (hstatements hm hm' hopening hat).bind fun {p q _ _} hcommands hat => ?_
  obtain ⟨commands, closing⟩ := p
  obtain ⟨_, closing'⟩ := q
  obtain ⟨rfl, hclosing⟩ := hcommands
  exact .ok ⟨rfl, L.join hopening hclosing⟩ hat.succ

theorem branches_nil (n : Nat) : branches n [] = .error ⟨.endOfTokens, .origin⟩ := by
  cases n with
  | zero => rw [branches]; rfl
  | succ n => rw [branches]; rfl

theorem block_nil (n : Nat) : block n [] = .error ⟨.endOfTokens, .origin⟩ := by
  cases n with
  | zero => rw [block]; rfl
  | succ n => rw [block]; rfl

theorem statements_nil (opening : Span) (n : Nat) : statements opening n [] = .error ⟨.noStatement, .origin⟩ := by
  cases n with
  | zero => rw [statements]; rfl
  | succ n => rw [statements]; rfl

theorem statementsLocked_succ (hbranches : L.Locked N N' Eq (branches N) (branches N'))
    (hstatements : L.StatementsLocked N N') : L.StatementsLocked (N + 1) (N' + 1) := by
  intro d n n' ts us opening opening' hn hn' hopening h
  obtain _ | ⟨m, m', ⟨k, span⟩, ⟨k', span'⟩, ts, us, halike, hplace⟩ := h.front
  · rw [statements_nil, statements_nil]
    exact .error (L.missing h.rel .noStatement)
  have hm := Nat.le_of_succ_le_succ hn
  have hm' := Nat.le_of_succ_le_succ hn'
  -- what follows a statement is read as before
  have hmore : ∀ {command ts us}, L.At (d + 1) m m' ts us → L.Meets d (m + 1) (m' + 1) L.Placed
      ((statements opening N >>= fun p => pure (command :: p.1, p.2)) ts)
      ((statements opening' N' >>= fun p => pure (command :: p.1, p.2)) us) := by
    intro command ts us hat
    refine (hstatements hm hm' hopening hat).bind fun {p q _ _} hcommands hat => ?_
    obtain ⟨commands, closing⟩ := p
    obtain ⟨_, closing'⟩ := q
    obtain ⟨rfl, hclosing⟩ := hcommands
    exact .ok ⟨rfl, hclosing⟩ hat.succ
  simp only [statements, peek?_bind, frontKind_cons]
  cases halike with
  | strings s s' => exact .error (L.fault hplace rfl)
  | same k =>
      cases k with
      | newline => exact (hstatements hm hm' hopening (h.steady rfl)).succ
      | dedent => exact .ok ⟨rfl, hplace⟩ (h.tail (L.dedent h.rel rfl)).succ
      | eof => exact .error (L.unterminated h.rel rfl hopening)
      | kwPass => exact (endOfLine_meets (h.steady rfl)).bind fun _ hat => hmore hat
      | kwIf =>
          refine .next_front h rfl rfl fun _ hat => ?_
          refine (hbranches hm hm' hat).bind fun hcommand hat => ?_
          subst hcommand
          exact hmore hat
      | ident name =>
          refine (call_meets h).bind fun hcommand hat => ?_
          subst hcommand
          exact hmore hat
      | _ => exact .error (L.fault hplace rfl)

/-- **Blocks are read in step.** -/
theorem phrases_locked (N N' : Nat) : L.Locked N N' Eq (branches N) (branches N') ∧
    L.Locked N N' L.Placed (block N) (block N') ∧ L.StatementsLocked N N' := by
  by_cases hzero : N = 0 ∨ N' = 0
  · refine ⟨locked_of_zero hzero (branches_nil N) (branches_nil N'),
      locked_of_zero hzero (block_nil N) (block_nil N'), ?_⟩
    intro d n n' ts us opening opening' hn hn' _ h
    obtain _ | ⟨m, m', _, _, _, _, -, -⟩ := h.front
    · rw [statements_nil, statements_nil]
      exact .error (L.missing h.rel .noStatement)
    · omega
  · obtain ⟨M, rfl⟩ : ∃ M, N = M + 1 := ⟨N - 1, by omega⟩
    obtain ⟨M', rfl⟩ : ∃ M', N' = M' + 1 := ⟨N' - 1, by omega⟩
    obtain ⟨hbranches, hblock, hstatements⟩ := phrases_locked M M'
    exact ⟨branches_locked_succ hbranches hblock, block_locked_succ hstatements,
      statementsLocked_succ hbranches hstatements⟩

/-! ### Definitions -/

/-- Functions that differ at most in their claimed bounds, which are related. -/
structure Twins (L : Lockstep) (f f' : Function) : Prop where
  name_eq : f.name = f'.name
  params_eq : f.params = f'.params
  body_eq : f.body = f'.body
  bound : L.Bound f.bound f'.bound

theorem Twins.eq_withBound {f f' : Function} (h : L.Twins f f') : f' = f.withBound f'.bound := by
  obtain ⟨name, params, body, bound, closed⟩ := f'
  obtain ⟨hname, hparams, hbody, -⟩ := h
  cases hname
  cases hparams
  cases hbody
  rfl

theorem claimedBound_meets (h : L.At d n n' ts us) :
    L.Meets d n n' L.Bound (claimedBound ts) (claimedBound us) := by
  refine .ite_front h rfl (fun harrow => ?_) (.ok L.default h)
  refine .next_front h.succ rfl harrow fun _ hat => ?_
  obtain _ | ⟨m, m', ⟨k, span⟩, ⟨k', span'⟩, ts, us, halike, hplace⟩ := hat.front
  · exact .error (L.missing hat.rel .endOfTokens)
  rw [next_bind_cons, next_bind_cons]
  cases halike with
  | strings s s' =>
      obtain ⟨hrel, hbound⟩ := L.str hat.rel rfl rfl
      exact .ok hbound (hat.tail hrel).succ
  | same k =>
      cases k with
      | str s =>
          obtain ⟨hrel, hbound⟩ := L.str hat.rel rfl rfl
          exact .ok hbound (hat.tail hrel).succ
      | _ => exact .error (L.fault hplace rfl)

theorem make_eq_error {name : String} {params : List String} {body : Command} {bound : Expr} {e : ProgramError} :
    Function.make name params body bound = .error e ↔
      ∃ stray, body.names.find? (fun x => !decide (x ∈ params)) = some stray ∧ e = .scope name stray params := by
  unfold Function.make
  split
  · rename_i stray hstray
    rw [hstray, Except.error.injEq]
    constructor
    · rintro rfl
      exact ⟨stray, rfl, rfl⟩
    · rintro ⟨_, h, rfl⟩
      cases h
      rfl
  · rename_i hnone
    constructor
    · intro h
      cases h
    · rintro ⟨_, h, -⟩
      cases hnone.symm.trans h

/-- Whether a function is well-formed does not depend on its bound. -/
theorem make_twins {bound bound' : Expr} (name : String) (params : List String) (body : Command)
    (h : L.Bound bound bound') :
    (∃ e, Function.make name params body bound = .error e ∧ Function.make name params body bound' = .error e) ∨
      ∃ f f', Function.make name params body bound = .ok f ∧ Function.make name params body bound' = .ok f' ∧
        L.Twins f f' := by
  cases hf : Function.make name params body bound with
  | error e => exact .inl ⟨e, rfl, make_eq_error.2 (make_eq_error.1 hf)⟩
  | ok f =>
      obtain ⟨rfl, rfl, rfl, rfl⟩ := make_eq_ok.1 hf
      exact .inr ⟨f, f.withBound bound', rfl, make_eq_ok.2 ⟨rfl, rfl, rfl, rfl⟩, rfl, rfl, rfl, h⟩

theorem definition_meets (h : L.At d (n + 1) (n' + 1) ts us) :
    L.Meets d n n' L.Twins (definition ts) (definition us) := by
  refine (expect_meets h rfl).bind fun {start start' _ _} hstart hat => ?_
  refine (ident_meets hat.succ).bind fun {p q _ _} hname hat => ?_
  obtain ⟨name, span⟩ := p
  obtain ⟨_, span'⟩ := q
  obtain ⟨rfl, -⟩ := hname
  refine (expect_meets hat.succ rfl).bind fun _ hat => ?_
  refine (parameters_meets hat).bind fun {params _ _ _} hparams hat => ?_
  subst hparams
  refine (expect_meets hat.succ rfl).bind fun _ hat => ?_
  refine (claimedBound_meets hat).bind fun hbound hat => ?_
  refine (expect_meets hat.succ rfl).bind fun {_ _ ts us} _ hat => ?_
  have hblock : L.Meets d _ _ L.Placed (bounded block ts) (bounded block us) :=
    (phrases_locked ts.length us.length).2.1 (Nat.le_refl _) (Nat.le_refl _) hat.self
  refine (hblock.mono hat.left hat.right id).bind fun {p q _ _} hbody hat => ?_
  obtain ⟨body, closing⟩ := p
  obtain ⟨_, closing'⟩ := q
  obtain ⟨rfl, hclosing⟩ := hbody
  dsimp only
  obtain ⟨e, he, he'⟩ | ⟨f, f', hf, hf', htwins⟩ := make_twins name params body hbound
  · rw [he, he']
    exact .error (L.fault (L.join hstart hclosing) rfl)
  · rw [hf, hf']
    exact .ok htwins hat

theorem definitions_nil (n : Nat) : definitions n [] = .error ⟨.noDefinition, .origin⟩ := by
  cases n with
  | zero => rfl
  | succ n => rfl

theorem definitions_meets (h : L.At d n n' ts us) :
    L.Meets d n n' (List.Forall₂ L.Twins) (definitions n ts) (definitions n' us) := by
  induction n generalizing n' ts us with
  | zero =>
      cases h.front with
      | none =>
          rw [definitions_nil, definitions_nil]
          exact .error (L.missing h.rel .noDefinition)
  | succ n ih =>
      obtain _ | ⟨_, m', ⟨k, span⟩, ⟨k', span'⟩, ts, us, halike, hplace⟩ := h.front
      · rw [definitions_nil, definitions_nil]
        exact .error (L.missing h.rel .noDefinition)
      simp only [definitions, peek?_bind, frontKind_cons]
      cases halike with
      | strings s s' => exact .error (L.fault hplace rfl)
      | same k =>
          cases k with
          | newline => exact (ih (h.steady rfl)).succ
          | eof => exact .ok .nil h
          | kwDef =>
              refine (definition_meets h).bind fun hf hat => ?_
              exact (ih hat).bind fun hfs hat => .ok (.cons hf hfs) hat.succ
          | _ => exact .error (L.fault hplace rfl)

/-- **A whole program.** -/
theorem program_meets (h : L.At d n n' ts us) :
    L.Meets d n n' (fun p q => List.Forall₂ L.Twins p.functions q.functions) (program ts) (program us) :=
  have hfs : L.Meets d _ _ (List.Forall₂ L.Twins) (bounded definitions ts) (bounded definitions us) :=
    definitions_meets h.self
  (hfs.mono h.left h.right id).bind fun hfs hat => .ok hfs hat

end Lockstep

end CostBound
