import CostBound.Proofs.ReadingExpr
import CostBound.Reading.Program

/-!
# Two readings in step

A reader takes tokens from the front, so it reads two lists alike as long as it cannot tell their fronts apart.

* `Token.Kind.Alike` — kinds that differ at most in the contents of a string.
* `Lockstep` — relations between two lists of tokens, their places and the errors, under which reading goes in step.
* `Lockstep.Meets` — two readings end alike; `Lockstep.Meets.bind` says so of one reader after another.
* `Lockstep.Locked` — two readers that end alike; `Lockstep.expression_locked` builds such readers from those of atoms.
* `Lockstep.expr_meets`, `Lockstep.exprToEnd_meets` — expressions.
-/

namespace CostBound

open Token (Kind)
open TokenReader

namespace Token.Kind

/-- Kinds that differ at most in the contents of a string. -/
inductive Alike : Kind → Kind → Prop
  | same (k : Kind) : Alike k k
  | strings (s s' : String) : Alike (str s) (str s')

def isString : Kind → Bool
  | str _ => true
  | _ => false

/-- The kinds that neither open nor close anything, strings apart. -/
def isSteady : Kind → Bool
  | indent | dedent | eof | str _ => false
  | _ => true

theorem isString_of_isSteady {k : Kind} (h : k.isSteady = true) : k.isString = false := by
  cases k with
  | str s => cases h
  | _ => rfl

theorem Alike.eq_iff {k k' j : Kind} (h : Alike k k') (hj : j.isString = false) : k = j ↔ k' = j := by
  cases h with
  | same k => exact Iff.rfl
  | strings s s' =>
      constructor
      · rintro rfl
        cases hj
      · rintro rfl
        cases hj

theorem isSteady_of_recognises {op? : Kind → Option BinaryOp} {l : Nat} {k : Kind} {op : BinaryOp}
    (hop : Recognises op? l) (h : op? k = some op) : k.isSteady = true := by
  obtain ⟨rfl, -⟩ := (hop k op).1 h
  cases op <;> rfl

/-- An operator is recognised in both of two alike kinds. -/
theorem Alike.op?_eq {op? : Kind → Option BinaryOp} {l : Nat} {k k' : Kind} (h : Alike k k')
    (hop : Recognises op? l) : op? k = op? k' := by
  have hnone : ∀ s, op? (str s) = none := by
    intro s
    cases hs : op? (str s) with
    | none => rfl
    | some op => cases isSteady_of_recognises hop hs
  cases h with
  | same k => rfl
  | strings s s' => rw [hnone, hnone]

end Token.Kind

/-- The faults of tokens that end too early. -/
def ParseFault.isMissing : ParseFault → Bool
  | endOfTokens | unterminatedBlock => true
  | _ => false

/-- Two lists of tokens that are read in step: `Rel d` relates what is left of them inside `d` blocks, `Place` the
places, `Fails` the errors and `Bound` the claimed bounds. -/
structure Lockstep where
  Rel : Nat → List Token → List Token → Prop
  Place : Span → Span → Prop
  Fails : ParseError → ParseError → Prop
  Bound : Expr → Expr → Prop
  front : ∀ {d ts us}, Rel d ts us → ts = [] ∧ us = [] ∨
    ∃ t ts' u us', ts = t :: ts' ∧ us = u :: us' ∧ t.kind.Alike u.kind ∧ Place t.span u.span
  steady : ∀ {d t ts u us}, Rel d (t :: ts) (u :: us) → t.kind.isSteady = true → Rel d ts us
  indent : ∀ {d t ts u us}, Rel d (t :: ts) (u :: us) → t.kind = .indent → Rel (d + 1) ts us
  dedent : ∀ {d t ts u us}, Rel (d + 1) (t :: ts) (u :: us) → t.kind = .dedent → Rel d ts us
  str : ∀ {d t ts u us s s'}, Rel d (t :: ts) (u :: us) → t.kind = .str s → u.kind = .str s' →
    Rel d ts us ∧ Bound (.ofBoundText s) (.ofBoundText s')
  default : Bound Function.defaultBound Function.defaultBound
  join : ∀ {s s' r r'}, Place s s' → Place r r' → Place (s.join r) (s'.join r')
  fault : ∀ {fault s s'}, Place s s' → fault.isMissing = false → Fails ⟨fault, s⟩ ⟨fault, s'⟩
  missing : ∀ {d}, Rel d [] [] → ∀ fault, Fails ⟨fault, .origin⟩ ⟨fault, .origin⟩
  unterminated : ∀ {d t ts u us s s'}, Rel (d + 1) (t :: ts) (u :: us) → t.kind = .eof → Place s s' →
    Fails ⟨.unterminatedBlock, s⟩ ⟨.unterminatedBlock, s'⟩

namespace Lockstep

variable {L : Lockstep} {α β : Type} {d n n' m m' N N' : Nat} {ts us : List Token}

/-! ### Readings that end alike -/

/-- The two lists are related, and they are no longer than the given numbers. -/
structure At (L : Lockstep) (d n n' : Nat) (ts us : List Token) : Prop where
  rel : L.Rel d ts us
  left : ts.length ≤ n
  right : us.length ≤ n'

/-- Two readings end alike: both with values that `V` relates, inside `d` blocks, or both with related errors. -/
inductive Meets (L : Lockstep) (d n n' : Nat) (V : α → α → Prop) :
    Except ParseError (α × List Token) → Except ParseError (α × List Token) → Prop
  | ok {a b : α} {ts us : List Token} (hv : V a b) (h : L.At d n n' ts us) :
      Meets L d n n' V (.ok (a, ts)) (.ok (b, us))
  | error {e e' : ParseError} (h : L.Fails e e') : Meets L d n n' V (.error e) (.error e')

/-- Two readers that end alike on all lists up to some length. -/
def Locked (L : Lockstep) (N N' : Nat) (V : α → α → Prop) (r r' : TokenReader α) : Prop :=
  ∀ ⦃d n n' ts us⦄, n ≤ N → n' ≤ N' → L.At d n n' ts us → L.Meets d n n' V (r ts) (r' us)

theorem At.mono (h : L.At d n n' ts us) (hn : n ≤ m) (hn' : n' ≤ m') : L.At d m m' ts us :=
  ⟨h.rel, Nat.le_trans h.left hn, Nat.le_trans h.right hn'⟩

theorem At.succ (h : L.At d n n' ts us) : L.At d (n + 1) (n' + 1) ts us := h.mono (Nat.le_succ n) (Nat.le_succ n')

theorem At.self (h : L.At d n n' ts us) : L.At d ts.length us.length ts us := ⟨h.rel, Nat.le_refl _, Nat.le_refl _⟩

theorem Meets.mono {V W : α → α → Prop} {x y : Except ParseError (α × List Token)} (h : L.Meets d n n' V x y)
    (hn : n ≤ m) (hn' : n' ≤ m') (hV : ∀ {a b}, V a b → W a b) : L.Meets d m m' W x y := by
  cases h with
  | ok hv h => exact .ok (hV hv) (h.mono hn hn')
  | error h => exact .error h

theorem Meets.succ {V : α → α → Prop} {x y : Except ParseError (α × List Token)} (h : L.Meets d n n' V x y) :
    L.Meets d (n + 1) (n' + 1) V x y :=
  h.mono (Nat.le_succ n) (Nat.le_succ n') id

/-- **One reader after another.** -/
theorem Meets.bind {e : Nat} {V : α → α → Prop} {W : β → β → Prop} {r r' : TokenReader α} {f g : α → TokenReader β}
    (h : L.Meets d n n' V (r ts) (r' us))
    (hfg : ∀ {a b ts us}, V a b → L.At d n n' ts us → L.Meets e m m' W (f a ts) (g b us)) :
    L.Meets e m m' W ((r >>= f) ts) ((r' >>= g) us) := by
  show L.Meets e m m' W (r ts >>= fun p => f p.1 p.2) (r' us >>= fun p => g p.1 p.2)
  generalize r ts = x at h
  generalize r' us = y at h
  cases h with
  | ok hv h => exact hfg hv h
  | error h => exact .error h

/-- The fronts of two lists of bounded lengths: no token on either side, or alike ones at related places. -/
inductive Fronts (L : Lockstep) : Nat → Nat → List Token → List Token → Prop
  | none {n n' : Nat} : Fronts L n n' [] []
  | both (n n' : Nat) (t u : Token) (ts us : List Token) (halike : t.kind.Alike u.kind)
      (hplace : L.Place t.span u.span) : Fronts L (n + 1) (n' + 1) (t :: ts) (u :: us)

theorem At.front (h : L.At d n n' ts us) : L.Fronts n n' ts us := by
  obtain ⟨rfl, rfl⟩ | ⟨t, ts', u, us', rfl, rfl, halike, hplace⟩ := L.front h.rel
  · exact .none
  · have hn := Nat.lt_of_lt_of_le (Nat.succ_pos _) h.left
    have hn' := Nat.lt_of_lt_of_le (Nat.succ_pos _) h.right
    rw [← Nat.succ_pred_eq_of_pos hn, ← Nat.succ_pred_eq_of_pos hn']
    exact .both _ _ t u ts' us' halike hplace

section Token

variable {t u : Token}

theorem At.tail {e : Nat} (h : L.At d (n + 1) (n' + 1) (t :: ts) (u :: us)) (hr : L.Rel e ts us) : L.At e n n' ts us :=
  ⟨hr, Nat.le_of_succ_le_succ h.left, Nat.le_of_succ_le_succ h.right⟩

theorem At.steady (h : L.At d (n + 1) (n' + 1) (t :: ts) (u :: us)) (hk : t.kind.isSteady = true) :
    L.At d n n' ts us :=
  h.tail (L.steady h.rel hk)

end Token

/-- The first tokens, one of which is known. -/
theorem At.front_eq {k : Kind} (h : L.At d n n' ts us) (hk : k.isString = false) :
    frontKind ts = some k ↔ frontKind us = some k := by
  obtain _ | ⟨m, m', t, u, ts, us, halike, -⟩ := h.front
  · exact Iff.rfl
  · rw [frontKind_cons, frontKind_cons, Option.some_inj, Option.some_inj]
    exact halike.eq_iff hk

/-- Both sides choose by the kind of the next token. -/
theorem Meets.ite_front {e : Nat} {V : α → α → Prop} {k : Kind} {x x' y y' : TokenReader α} (h : L.At d n n' ts us)
    (hk : k.isString = false) (hyes : frontKind ts = some k → L.Meets e m m' V (x ts) (x' us))
    (hno : L.Meets e m m' V (y ts) (y' us)) :
    L.Meets e m m' V ((peek? >>= fun front => if front = some k then x else y) ts)
      ((peek? >>= fun front => if front = some k then x' else y') us) := by
  rw [peek?_bind, peek?_bind]
  by_cases hfront : frontKind ts = some k
  · rw [if_pos hfront, if_pos ((h.front_eq hk).1 hfront)]
    exact hyes hfront
  · rw [if_neg hfront, if_neg (fun hfront' => hfront ((h.front_eq hk).2 hfront'))]
    exact hno

/-- A known first token is taken on both sides. -/
theorem Meets.next_front {e : Nat} {V : α → α → Prop} {k : Kind} {f g : Token → TokenReader α}
    (h : L.At d (n + 1) (n' + 1) ts us) (hk : k.isSteady = true) (hfront : frontKind ts = some k)
    (hfg : ∀ {t u ts us}, L.Place t.span u.span → L.At d n n' ts us → L.Meets e m m' V (f t ts) (g u us)) :
    L.Meets e m m' V ((next >>= f) ts) ((next >>= g) us) := by
  obtain _ | ⟨_, _, t, u, ts, us, -, hplace⟩ := h.front
  · cases hfront
  · cases hfront
    exact hfg hplace (h.steady hk)

/-- Without a token on one side there is none on the other, and both readers miss one. -/
theorem locked_of_zero {V : α → α → Prop} {r r' : TokenReader α} {fault : ParseFault} (h : N = 0 ∨ N' = 0)
    (hr : r [] = .error ⟨fault, .origin⟩) (hr' : r' [] = .error ⟨fault, .origin⟩) : L.Locked N N' V r r' := by
  intro d n n' ts us hn hn' hat
  obtain _ | ⟨m, m', _, _, _, _, -, -⟩ := hat.front
  · rw [hr, hr']
    exact .error (L.missing hat.rel fault)
  · omega

theorem failHere_meets {e : Nat} {V : α → α → Prop} {fault : ParseFault} (h : L.At d n n' ts us)
    (hfault : fault.isMissing = false) : L.Meets e m m' V (failHere fault ts) (failHere fault us) := by
  obtain _ | ⟨_, _, t, u, ts, us, -, hplace⟩ := h.front
  · exact .error (L.missing h.rel fault)
  · exact .error (L.fault hplace hfault)

/-! ### Single tokens -/

/-- Values at related places. -/
def Placed (L : Lockstep) (p q : α × Span) : Prop := p.1 = q.1 ∧ L.Place p.2 q.2

/-- Expecting a kind: what is left is inside as many blocks as the token says. -/
theorem expect_meets_of {e : Nat} {k : Kind} (h : L.At d (n + 1) (n' + 1) ts us) (hk : k.isString = false)
    (hrel : ∀ {t u ts us}, L.Rel d (t :: ts) (u :: us) → t.kind = k → L.Rel e ts us) :
    L.Meets e n n' (fun t u => L.Place t.span u.span) (expect k ts) (expect k us) := by
  obtain _ | ⟨_, _, t, u, ts, us, halike, hplace⟩ := h.front
  · exact .error (L.missing h.rel .endOfTokens)
  · unfold expect
    rw [next_bind_cons, next_bind_cons]
    by_cases htk : t.kind = k
    · rw [if_pos htk, if_pos ((halike.eq_iff hk).1 htk)]
      exact .ok hplace (h.tail (hrel h.rel htk))
    · rw [if_neg htk, if_neg (fun huk => htk ((halike.eq_iff hk).2 huk))]
      exact .error (L.fault hplace rfl)

theorem expect_meets {k : Kind} (h : L.At d (n + 1) (n' + 1) ts us) (hk : k.isSteady = true) :
    L.Meets d n n' (fun t u => L.Place t.span u.span) (expect k ts) (expect k us) := by
  refine expect_meets_of h (Kind.isString_of_isSteady hk) (fun hrel htk => L.steady hrel ?_)
  rw [htk]
  exact hk

theorem ident_meets (h : L.At d (n + 1) (n' + 1) ts us) : L.Meets d n n' L.Placed (ident ts) (ident us) := by
  obtain _ | ⟨_, _, ⟨k, span⟩, ⟨k', span'⟩, ts, us, halike, hplace⟩ := h.front
  · exact .error (L.missing h.rel .endOfTokens)
  · cases halike with
    | same k =>
        cases k with
        | ident name => exact .ok ⟨rfl, hplace⟩ (h.steady rfl)
        | _ => exact .error (L.fault hplace rfl)
    | strings s s' => exact .error (L.fault hplace rfl)

theorem skipNewlines_meets (h : L.At d n n' ts us) :
    L.Meets d n n' (fun _ _ => True) (skipNewlines ts) (skipNewlines us) := by
  induction ts generalizing n n' us with
  | nil =>
      cases h.front with
      | none => exact .ok trivial h
  | cons t ts ih =>
      obtain _ | ⟨m, m', _, u, _, us, halike, -⟩ := h.front
      unfold skipNewlines
      by_cases htk : t.kind = .newline
      · rw [if_pos htk, if_pos ((halike.eq_iff rfl).1 htk)]
        exact (ih (h.steady (by rw [htk]; rfl))).succ
      · rw [if_neg htk, if_neg (fun huk => htk ((halike.eq_iff rfl).2 huk))]
        exact .ok trivial h

theorem endOfLine_meets (h : L.At d n n' ts us) :
    L.Meets d n n' (fun _ _ => True) (endOfLine ts) (endOfLine us) := by
  obtain _ | ⟨m, m', t, u, ts, us, halike, hplace⟩ := h.front
  · exact .error (L.missing h.rel .noEndOfLine)
  · simp only [endOfLine]
    have hends : (t.kind = .dedent ∨ t.kind = .eof) ↔ (u.kind = .dedent ∨ u.kind = .eof) := by
      rw [halike.eq_iff rfl, halike.eq_iff rfl]
    by_cases htk : t.kind = .newline
    · rw [if_pos htk, if_pos ((halike.eq_iff rfl).1 htk)]
      exact .ok trivial (h.steady (by rw [htk]; rfl)).succ
    · rw [if_neg htk, if_neg (fun huk => htk ((halike.eq_iff rfl).2 huk))]
      by_cases htend : t.kind = .dedent ∨ t.kind = .eof
      · rw [if_pos htend, if_pos (hends.1 htend)]
        exact .ok trivial h
      · rw [if_neg htend, if_neg (fun huend => htend (hends.2 huend))]
        exact .error (L.fault hplace rfl)

/-! ### Expressions -/

section Layers

variable {operand operand' : TokenReader Expr}

theorem chainFrom_nil {op? : Kind → Option BinaryOp} (n : Nat) (left : Expr) :
    chainFrom op? operand n left [] = .ok (left, []) := by
  cases n with
  | zero => rfl
  | succ n => rfl

theorem chainFrom_meets {op? : Kind → Option BinaryOp} {l : Nat} (hop : Recognises op? l)
    (hoperand : L.Locked N N' Eq operand operand') (hn : n ≤ N) (hn' : n' ≤ N') (left : Expr)
    (h : L.At d n n' ts us) :
    L.Meets d n n' Eq (chainFrom op? operand n left ts) (chainFrom op? operand' n' left us) := by
  induction n generalizing n' left ts us with
  | zero =>
      cases h.front with
      | none =>
          rw [chainFrom_nil, chainFrom_nil]
          exact .ok rfl h
  | succ n ih =>
      obtain _ | ⟨_, m', t, u, ts, us, halike, -⟩ := h.front
      · rw [chainFrom_nil, chainFrom_nil]
        exact .ok rfl h
      simp only [chainFrom, peek?_bind, frontKind_cons, Option.bind_some, ← halike.op?_eq hop]
      cases htk : op? t.kind with
      | none => exact .ok rfl h
      | some op =>
          have htail := h.steady (Kind.isSteady_of_recognises hop htk)
          simp only [next_bind_cons]
          refine (hoperand (Nat.le_of_succ_le hn) (Nat.le_of_succ_le hn') htail).bind fun hr hat => ?_
          subst hr
          exact (ih (Nat.le_of_succ_le hn) (Nat.le_of_succ_le hn') _ hat).succ

theorem chain_locked {op? : Kind → Option BinaryOp} {l : Nat} (hop : Recognises op? l)
    (hoperand : L.Locked N N' Eq operand operand') :
    L.Locked N N' Eq (chain op? operand) (chain op? operand') := by
  intro d n n' ts us hn hn' h
  refine (hoperand hn hn' h).bind fun {left right ts us} hl hat => ?_
  subst hl
  have hlength := hat.left
  have hlength' := hat.right
  have hrest := chainFrom_meets hop hoperand (Nat.le_trans hlength hn) (Nat.le_trans hlength' hn') left hat.self
  exact hrest.mono hlength hlength' id

theorem signed_locked (op : UnaryOp) (hoperand : L.Locked N N' Eq operand operand') :
    L.Locked N N' Eq (signed op.kind op operand) (signed op.kind op operand') := by
  have hsign : op.kind.isSteady = true := by cases op <;> rfl
  intro d n n' ts us hn hn' h
  induction ts generalizing n n' us with
  | nil =>
      cases h.front with
      | none => exact hoperand hn hn' h
  | cons t ts ih =>
      obtain _ | ⟨m, m', _, u, _, us, halike, -⟩ := h.front
      simp only [signed]
      by_cases htk : t.kind = op.kind
      · rw [if_pos htk, if_pos ((halike.eq_iff (Kind.isString_of_isSteady hsign)).1 htk)]
        have htail := h.steady (by rw [htk]; exact hsign)
        have hrest := ih (Nat.le_of_succ_le hn) (Nat.le_of_succ_le hn') htail
        -- the sign is put before the value of the rest
        generalize signed op.kind op operand ts = x at hrest
        generalize signed op.kind op operand' us = y at hrest
        cases hrest with
        | ok hv hat =>
            subst hv
            exact .ok rfl hat.succ
        | error he => exact .error he
      · rw [if_neg htk, if_neg (fun huk => htk ((halike.eq_iff (Kind.isString_of_isSteady hsign)).2 huk))]
        exact hoperand hn hn' h

theorem comparison_locked (hoperand : L.Locked N N' Eq operand operand') :
    L.Locked N N' Eq (comparison operand) (comparison operand') := by
  intro d n n' ts us hn hn' h
  refine (hoperand hn hn' h).bind fun {left _ ts us} hl hat => ?_
  subst hl
  rw [peek?_bind, peek?_bind]
  obtain _ | ⟨m, m', t, u, ts, us, halike, -⟩ := hat.front
  · exact .ok rfl hat
  simp only [frontKind_cons, Option.bind_some, ← halike.op?_eq recognises_comparative]
  cases htk : t.kind.comparative? with
  | none => exact .ok rfl hat
  | some op =>
      have htail := hat.steady (Kind.isSteady_of_recognises recognises_comparative htk)
      simp only [next_bind_cons]
      refine (hoperand (Nat.le_of_succ_le hn) (Nat.le_of_succ_le hn') htail).bind fun {right _ ts us} hr hat => ?_
      subst hr
      rw [peek?_bind, peek?_bind]
      obtain _ | ⟨m, m', t, u, ts, us, halike, -⟩ := hat.front
      · exact .ok rfl hat.succ
      simp only [frontKind_cons, Option.bind_some, ← halike.op?_eq recognises_comparative]
      cases htk : t.kind.comparative? with
      | none => exact .ok rfl hat.succ
      | some op => exact failHere_meets hat rfl

theorem expression_locked (h : L.Locked N N' Eq operand operand') :
    L.Locked N N' Eq (expression operand) (expression operand') := by
  have hchain : ∀ {l op?} {r r' : TokenReader Expr}, chained? l = some op? → L.Locked N N' Eq r r' →
      L.Locked N N' Eq (chain op? r) (chain op? r') :=
    fun hop hr => chain_locked (recognises_chained hop).1 hr
  have hsum := hchain (l := 4) rfl (hchain (l := 5) rfl (signed_locked .neg h))
  exact hchain (l := 0) rfl (hchain (l := 1) rfl (signed_locked .not (comparison_locked hsum)))

end Layers

theorem atom_nil (n : Nat) : atom n [] = .error ⟨.endOfTokens, .origin⟩ := by
  cases n with
  | zero => rfl
  | succ n => rfl

theorem atom_locked (N N' : Nat) : L.Locked N N' Eq (atom N) (atom N') := by
  induction N generalizing N' with
  | zero => exact locked_of_zero (.inl rfl) rfl (atom_nil N')
  | succ N ih =>
      intro d n n' ts us hn hn' h
      obtain _ | ⟨m, m', ⟨k, span⟩, ⟨k', span'⟩, ts, us, halike, hplace⟩ := h.front
      · rw [atom_nil, atom_nil]
        exact .error (L.missing h.rel .endOfTokens)
      obtain ⟨N', rfl⟩ : ∃ M, N' = M + 1 := ⟨N' - 1, by omega⟩
      simp only [atom, next_bind_cons]
      cases halike with
      | strings s s' => exact .error (L.fault hplace rfl)
      | same k =>
          cases k with
          | ident name =>
              have htail := h.steady rfl
              exact .ite_front htail rfl (fun _ => .error (L.fault hplace rfl)) (.ok rfl htail.succ)
          | int value =>
              by_cases hvalue : value < Int64.size / 2
              · simp only [if_pos hvalue]
                exact .ok rfl (h.steady rfl).succ
              · simp only [if_neg hvalue]
                exact .error (L.fault hplace rfl)
          | kwTrue => exact .ok rfl (h.steady rfl).succ
          | kwFalse => exact .ok rfl (h.steady rfl).succ
          | lparen =>
              have hexpr := expression_locked (ih N') (Nat.le_of_succ_le_succ hn) (Nat.le_of_succ_le_succ hn')
                (h.steady rfl)
              refine hexpr.bind fun he hat => ?_
              subst he
              exact (expect_meets hat.succ rfl).bind fun _ hat => .ok rfl hat.succ
          | _ => exact .error (L.fault hplace rfl)

theorem expr_meets (h : L.At d n n' ts us) : L.Meets d n n' Eq (expr ts) (expr us) := by
  have hself := expression_locked (atom_locked ts.length us.length) (Nat.le_refl _) (Nat.le_refl _) h.self
  exact hself.mono h.left h.right id

/-- **An expression to the end of the text.** -/
theorem exprToEnd_meets (h : L.At d n n' ts us) : L.Meets d n n' Eq (exprToEnd ts) (exprToEnd us) := by
  refine (expr_meets h).bind fun he hat => ?_
  subst he
  refine (skipNewlines_meets hat).bind fun _ hat => ?_
  exact .ite_front hat rfl (fun _ => .ok rfl hat) (failHere_meets hat rfl)

end Lockstep

end CostBound
