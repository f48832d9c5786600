import CostBound.Proofs.Grammar
import CostBound.Proofs.Readers
import CostBound.Proofs.Typing

/-!
# Reading expressions against the grammar

* `layers`, `atLevel` — the readers of the levels, each built from that of the next tighter one.
* `Reads` — a reader accepts spelled tokens only, and gives what they spell.
* `expression_reads`, `expr_reads` — what is read is spelled.
* `Stops` — what follows cannot go on with an expression of a level.
* `readAt_and_chainedAt`, `expr_read` — what is spelled is read, whatever follows that stops it.
* `exprToEnd_eq_ok` — an expression that is all of a text, line ends apart.
-/

namespace CostBound

open Token (Kind)

namespace TokenReader

/-- The readers of the levels, from the loosest to the tightest, each from the reader of the next. -/
def layers : List (TokenReader Expr → TokenReader Expr) :=
  [chain Kind.disjunctive?, chain Kind.conjunctive?, signed .kwNot .not, comparison, chain Kind.additive?,
    chain Kind.multiplicative?, signed .minus .neg]

/-- The reader of a level. -/
def atLevel (atom : TokenReader Expr) (l : Nat) : TokenReader Expr :=
  (layers.drop l).foldr (fun layer reader => layer reader) atom

/-- The operators of a level at which operands nest to the left. -/
def chained? : Nat → Option (Kind → Option BinaryOp)
  | 0 => some Kind.disjunctive?
  | 1 => some Kind.conjunctive?
  | 4 => some Kind.additive?
  | 5 => some Kind.multiplicative?
  | _ => none

theorem chained?_level {op : BinaryOp} (h : op.level ≠ 3) : ∃ op?, chained? op.level = some op? := by
  cases op with
  | or | and | add | sub | mul | mod => exact ⟨_, rfl⟩
  | le | lt | ge | gt | eq | ne => exact absurd rfl h

/-- The operators of a level are told by their signs. -/
def Recognises (op? : Kind → Option BinaryOp) (l : Nat) : Prop :=
  ∀ k op, op? k = some op ↔ k = op.kind ∧ op.level = l

theorem Recognises.front {op? : Kind → Option BinaryOp} {l : Nat} {op : BinaryOp} {ts : List Token}
    (h : Recognises op? l) (ho : (frontKind ts).bind op? = some op) :
    ∃ t mid, ts = t :: mid ∧ t.kind = op.kind ∧ op.level = l := by
  obtain ⟨k, hk, hkop⟩ := Option.bind_eq_some_iff.1 ho
  obtain ⟨t, mid, rfl, rfl⟩ := frontKind_eq_some.1 hk
  exact ⟨t, mid, rfl, (h _ op).1 hkop⟩

theorem recognises_of {op? : Kind → Option BinaryOp} {l : Nat}
    (sound : ∀ k op, op? k = some op → k = op.kind ∧ op.level = l)
    (complete : ∀ op : BinaryOp, op.level = l → op? op.kind = some op) : Recognises op? l := by
  intro k op
  constructor
  · exact sound k op
  · intro h
    obtain ⟨rfl, hl⟩ := h
    exact complete op hl

theorem recognises_comparative : Recognises Kind.comparative? 3 := by
  refine recognises_of (fun k op h => ?_) (fun op => ?_)
  · cases k <;> cases h <;> exact ⟨rfl, rfl⟩
  · cases op <;> decide

theorem recognises_chained {l : Nat} {op? : Kind → Option BinaryOp} (h : chained? l = some op?) :
    Recognises op? l ∧ l ≠ 3 := by
  unfold chained? at h
  split at h
  all_goals cases h
  all_goals
    refine ⟨recognises_of ?_ ?_, by omega⟩
    · intro k op h
      cases k <;> cases h <;> exact ⟨rfl, rfl⟩
    · intro op
      cases op <;> decide

theorem atLevel_chained {a : TokenReader Expr} {l : Nat} {op? : Kind → Option BinaryOp}
    (h : chained? l = some op?) : atLevel a l = chain op? (atLevel a (l + 1)) := by
  unfold chained? at h
  split at h
  all_goals cases h
  all_goals rfl

theorem atLevel_signed {a : TokenReader Expr} (op : UnaryOp) :
    atLevel a op.level = signed op.kind op (atLevel a (op.level + 1)) := by
  cases op <;> rfl

theorem atLevel_comparison {a : TokenReader Expr} : atLevel a 3 = comparison (atLevel a 4) := rfl

theorem atLevel_atom {a : TokenReader Expr} {l : Nat} (h : 7 ≤ l) : atLevel a l = a := by
  unfold atLevel
  rw [List.drop_eq_nil_of_le h]
  rfl

/-- Every level is of one of four kinds. -/
theorem level_cases (l : Nat) :
    (∃ op?, chained? l = some op?) ∨ (∃ op : UnaryOp, l = op.level) ∨ l = 3 ∨ 7 ≤ l :=
  match l with
  | 0 | 1 | 4 | 5 => .inl ⟨_, rfl⟩
  | 2 => .inr (.inl ⟨.not, rfl⟩)
  | 6 => .inr (.inl ⟨.neg, rfl⟩)
  | 3 => .inr (.inr (.inl rfl))
  | n + 7 => .inr (.inr (.inr (by omega)))

/-! ### What is read is spelled -/

/-- A reader accepts tokens that spell what it gives, and leaves the others. -/
def Reads {α : Type} (reader : TokenReader α) (G : List Kind → α → Prop) : Prop :=
  ∀ ⦃ts a rest⦄, reader ts = .ok (a, rest) → ∃ used, ts = used ++ rest ∧ G (kinds used) a

/-- A chain goes on: whatever spells its left part, that and the tokens taken spell the whole. -/
theorem chainFrom_reads {op? : Kind → Option BinaryOp} {l : Nat} {operand : TokenReader Expr}
    (hop : Recognises op? l) (hl : l ≠ 3) (h : Reads operand (Expr.Spelled (l + 1))) {n : Nat} {left e : Expr}
    {ts rest : List Token} (hr : chainFrom op? operand n left ts = .ok (e, rest)) :
    ∃ used, ts = used ++ rest ∧
      ∀ ks, Expr.Spelled l ks left → Expr.Spelled l (ks ++ kinds used) e := by
  induction n generalizing left ts with
  | zero =>
      obtain ⟨rfl, rfl⟩ := pure_eq_ok.1 hr
      exact ⟨[], rfl, fun ks hks => by simpa using hks⟩
  | succ n ih =>
      unfold chainFrom at hr
      rw [peek?_bind] at hr
      cases ho : (frontKind ts).bind op? with
      | none =>
          rw [ho] at hr
          obtain ⟨rfl, rfl⟩ := pure_eq_ok.1 hr
          exact ⟨[], rfl, fun ks hks => by simpa using hks⟩
      | some op =>
          rw [ho] at hr
          obtain ⟨t, mid, rfl, ht, rfl⟩ := hop.front ho
          dsimp only at hr
          rw [next_bind_cons] at hr
          obtain ⟨right, mid', hright, hr₁⟩ := bind_eq_ok.1 hr
          obtain ⟨used, rfl, hused⟩ := h hright
          obtain ⟨used', rfl, hused'⟩ := ih hr₁
          refine ⟨t :: used ++ used', by simp, fun ks hks => ?_⟩
          have hleft : Expr.Spelled op.leftLevel ks left := by
            rw [BinaryOp.leftLevel_of_ne hl]
            exact hks
          have := hused' _ (.binary op hleft hused)
          simpa [ht] using this

theorem chain_reads {op? : Kind → Option BinaryOp} {l : Nat} {operand : TokenReader Expr}
    (hop : Recognises op? l) (hl : l ≠ 3) (h : Reads operand (Expr.Spelled (l + 1))) :
    Reads (chain op? operand) (Expr.Spelled l) := by
  intro ts e rest hr
  obtain ⟨left, mid, hleft, hr₁⟩ := bind_eq_ok.1 hr
  obtain ⟨used, rfl, hused⟩ := h hleft
  obtain ⟨used', rfl, hused'⟩ := chainFrom_reads hop hl h hr₁
  refine ⟨used ++ used', by simp, ?_⟩
  have := hused' _ hused.tighter
  simpa using this

theorem signed_reads {op : UnaryOp} {operand : TokenReader Expr}
    (h : Reads operand (Expr.Spelled (op.level + 1))) :
    Reads (signed op.kind op operand) (Expr.Spelled op.level) := by
  intro ts
  induction ts with
  | nil =>
      intro e rest hr
      obtain ⟨used, hts, hused⟩ := h hr
      exact ⟨used, hts, hused.tighter⟩
  | cons t ts ih =>
      intro e rest hr
      unfold signed at hr
      split at hr
      · rename_i ht
        obtain ⟨p, hp, hr⟩ := except_bind_eq_ok.1 hr
        cases hr
        obtain ⟨used, rfl, hused⟩ := ih hp
        refine ⟨t :: used, rfl, ?_⟩
        show Expr.Spelled op.level (t.kind :: kinds used) _
        rw [ht]
        exact .unary op hused
      · obtain ⟨used, hts, hused⟩ := h hr
        exact ⟨used, hts, hused.tighter⟩

theorem comparison_reads {operand : TokenReader Expr} (h : Reads operand (Expr.Spelled 4)) :
    Reads (comparison operand) (Expr.Spelled 3) := by
  intro ts e rest hr
  obtain ⟨left, mid, hleft, hr₁⟩ := bind_eq_ok.1 hr
  obtain ⟨used, rfl, hused⟩ := h hleft
  rw [peek?_bind] at hr₁
  cases ho : (frontKind mid).bind Kind.comparative? with
  | none =>
      rw [ho] at hr₁
      obtain ⟨rfl, rfl⟩ := pure_eq_ok.1 hr₁
      exact ⟨used, rfl, hused.tighter⟩
  | some op =>
      rw [ho] at hr₁
      obtain ⟨t, mid, rfl, ht, hlevel⟩ := recognises_comparative.front ho
      dsimp only at hr₁
      rw [next_bind_cons] at hr₁
      obtain ⟨right, mid', hright, hr₂⟩ := bind_eq_ok.1 hr₁
      obtain ⟨used', rfl, hused'⟩ := h hright
      rw [peek?_bind] at hr₂
      cases hs : (frontKind mid').bind Kind.comparative? with
      | none =>
          rw [hs] at hr₂
          obtain ⟨rfl, rfl⟩ := pure_eq_ok.1 hr₂
          refine ⟨used ++ t :: used', by simp, ?_⟩
          rw [← BinaryOp.leftLevel_of_eq hlevel] at hused
          rw [show 4 = op.level + 1 by rw [hlevel]] at hused'
          have := Expr.Spelled.binary op hused hused'
          rw [hlevel] at this
          simpa [ht] using this
      | some op' =>
          rw [hs] at hr₂
          exact absurd hr₂ failHere_ne_ok

/-- From one level to the next looser one. -/
theorem layer_reads {a : TokenReader Expr} {l : Nat} (h : Reads (atLevel a (l + 1)) (Expr.Spelled (l + 1))) :
    Reads (atLevel a l) (Expr.Spelled l) := by
  obtain ⟨op?, hop⟩ | ⟨op, rfl⟩ | rfl | hl := level_cases l
  · rw [atLevel_chained hop]
    exact chain_reads (recognises_chained hop).1 (recognises_chained hop).2 h
  · rw [atLevel_signed]
    exact signed_reads h
  · rw [atLevel_comparison]
    exact comparison_reads h
  · rw [atLevel_atom hl]
    rw [atLevel_atom (by omega)] at h
    intro ts e rest hr
    obtain ⟨used, hts, hused⟩ := h hr
    exact ⟨used, hts, hused.tighter⟩

theorem expression_reads {a : TokenReader Expr} (h : Reads a (Expr.Spelled 7)) :
    Reads (expression a) (Expr.Spelled 0) := by
  have descend : ∀ d ≤ 7, Reads (atLevel a (7 - d)) (Expr.Spelled (7 - d)) := by
    intro d
    induction d with
    | zero =>
        intro _
        exact h
    | succ d ih =>
        intro hd
        apply layer_reads
        rw [show 7 - (d + 1) + 1 = 7 - d by omega]
        exact ih (by omega)
  exact descend 7 (Nat.le_refl 7)

theorem atom_reads (n : Nat) : Reads (atom n) (Expr.Spelled 7) := by
  induction n with
  | zero =>
      intro ts e rest hr
      exact absurd hr fail_ne_ok
  | succ n ih =>
      intro ts e rest hr
      obtain ⟨t, mid, ht, hr₁⟩ := bind_eq_ok.1 hr
      rw [next_eq_ok] at ht
      subst ht
      cases hk : t.kind with
      | ident name =>
          rw [hk] at hr₁
          dsimp only at hr₁
          rw [peek?_bind] at hr₁
          split at hr₁
          · exact absurd hr₁ fail_ne_ok
          · obtain ⟨rfl, rfl⟩ := pure_eq_ok.1 hr₁
            exact ⟨[t], rfl, by simpa [hk] using Expr.Spelled.var name⟩
      | int value =>
          rw [hk] at hr₁
          dsimp only at hr₁
          split at hr₁
          · rename_i hv
            obtain ⟨rfl, rfl⟩ := pure_eq_ok.1 hr₁
            exact ⟨[t], rfl, by simpa [hk] using Expr.Spelled.int hv⟩
          · exact absurd hr₁ fail_ne_ok
      | kwTrue =>
          rw [hk] at hr₁
          obtain ⟨rfl, rfl⟩ := pure_eq_ok.1 hr₁
          exact ⟨[t], rfl, by simpa [hk, Kind.ofBool] using Expr.Spelled.bool true⟩
      | kwFalse =>
          rw [hk] at hr₁
          obtain ⟨rfl, rfl⟩ := pure_eq_ok.1 hr₁
          exact ⟨[t], rfl, by simpa [hk, Kind.ofBool] using Expr.Spelled.bool false⟩
      | lparen =>
          rw [hk] at hr₁
          obtain ⟨inner, mid', hinner, hr₂⟩ := bind_eq_ok.1 hr₁
          obtain ⟨close, mid'', hclose, hr₃⟩ := bind_eq_ok.1 hr₂
          obtain ⟨rfl, rfl⟩ := pure_eq_ok.1 hr₃
          obtain ⟨rfl, hc⟩ := expect_eq_ok.1 hclose
          obtain ⟨used, rfl, hused⟩ := expression_reads ih hinner
          exact ⟨t :: used ++ [close], by simp, by simpa [hk, hc] using Expr.Spelled.brackets hused⟩
      | _ =>
          rw [hk] at hr₁
          exact absurd hr₁ fail_ne_ok

theorem expr_reads : Reads expr (Expr.Spelled 0) := fun ts _ _ hr => expression_reads (atom_reads ts.length) hr

/-! ### What is spelled is read -/

/-- What follows cannot go on with an expression of level `l` or a tighter one. -/
def Stops (l : Nat) (rest : List Token) : Prop :=
  ∀ k, frontKind rest = some k → k ≠ .lparen ∧ ∀ op : BinaryOp, k = op.kind → op.level < l

/-- The kinds that follow an expression in the grammar. -/
def followers : List Kind := [.rparen, .colon, .comma, .newline, .eof]

theorem kind_not_mem_followers (op : BinaryOp) : op.kind ∉ followers := by
  cases op <;> decide

namespace Stops

variable {l l' : Nat} {rest : List Token} {t : Token}

theorem mono (h : Stops l rest) (hl : l ≤ l') : Stops l' rest := by
  intro k hk
  exact ⟨(h k hk).1, fun op hop => Nat.lt_of_lt_of_le ((h k hk).2 op hop) hl⟩

theorem cons (hp : t.kind ≠ .lparen) (ht : ∀ op : BinaryOp, t.kind = op.kind → op.level < l) :
    Stops l (t :: rest) := by
  intro k hk
  cases hk
  exact ⟨hp, ht⟩

theorem operator {op : BinaryOp} (ht : t.kind = op.kind) (hl : op.level < l) : Stops l (t :: rest) := by
  refine cons ?_ (fun op' hop => ?_)
  · rw [ht]
    cases op <;> decide
  · rw [ht] at hop
    rw [← BinaryOp.kind_inj hop]
    exact hl

/-- What may follow an expression in the grammar. -/
theorem follower (ht : t.kind ∈ followers) : Stops l (t :: rest) := by
  refine cons (fun h => ?_) (fun op hop => ?_)
  · rw [h] at ht
    exact absurd ht (by decide)
  · rw [hop] at ht
    exact absurd ht (kind_not_mem_followers op)

theorem bind_eq_none {op? : Kind → Option BinaryOp} (h : Stops l rest) (hop : Recognises op? l) :
    (frontKind rest).bind op? = none := by
  cases ho : (frontKind rest).bind op? with
  | none => rfl
  | some op =>
      obtain ⟨t, mid, rfl, ht, hl⟩ := hop.front ho
      have := (h t.kind rfl).2 op ht
      omega

end Stops

section Chains

variable {op? : Kind → Option BinaryOp} {l n : Nat} {operand : TokenReader Expr} {left right : Expr}
  {ts rest : List Token}

theorem chainFrom_of_stops (hop : Recognises op? l) (h : Stops l rest) :
    chainFrom op? operand n left rest = .ok (left, rest) := by
  cases n with
  | zero => rfl
  | succ n =>
      unfold chainFrom
      rw [peek?_bind, h.bind_eq_none hop]
      rfl

theorem chainFrom_operator {op : BinaryOp} {t : Token} (hop : Recognises op? op.level)
    (ht : t.kind = op.kind) (hr : operand ts = .ok (right, rest)) :
    chainFrom op? operand (n + 1) left (t :: ts) = chainFrom op? operand n (.binary op left right) rest := by
  have ho : (frontKind (t :: ts)).bind op? = some op := (hop t.kind op).2 ⟨ht, rfl⟩
  show (peek? >>= _) (t :: ts) = _
  rw [peek?_bind, ho]
  dsimp only
  rw [next_bind_cons, bind_of_ok hr]

end Chains

/-- The tokens of a spelling are read at its level. -/
def ReadAt (l : Nat) (ks : List Kind) (e : Expr) : Prop :=
  ∀ ⦃used rest n⦄, kinds used = ks → used.length ≤ n → Stops l rest →
    atLevel (atom n) l (used ++ rest) = .ok (e, rest)

/-- At a level whose operands nest to the left, reading the tokens of a spelling leads to the chain that has it
as its left part. -/
def ChainedAt (l : Nat) (ks : List Kind) (e : Expr) : Prop :=
  ∀ ⦃op?⦄, chained? l = some op? → ∀ ⦃used rest n⦄, kinds used = ks → used.length ≤ n → Stops (l + 1) rest →
    ∃ m, rest.length ≤ m ∧
      atLevel (atom n) l (used ++ rest) = chainFrom op? (atLevel (atom n) (l + 1)) m e rest

theorem ChainedAt.readAt {l : Nat} {ks : List Kind} {e : Expr} {op? : Kind → Option BinaryOp}
    (h : ChainedAt l ks e) (hop : chained? l = some op?) : ReadAt l ks e := by
  intro used rest n hu hn hs
  obtain ⟨m, -, hm⟩ := h hop hu hn (hs.mono (Nat.le_succ l))
  rw [hm]
  exact chainFrom_of_stops (recognises_chained hop).1 hs

theorem readAt_atom {k : Kind} {e : Expr}
    (h : ∀ t rest n, t.kind = k → Stops 7 rest → atom (n + 1) (t :: rest) = .ok (e, rest)) :
    ReadAt 7 [k] e := by
  intro used rest n hu hn hs
  obtain ⟨t, rfl, ht⟩ := List.map_eq_singleton_iff.1 hu
  obtain ⟨n, rfl⟩ : ∃ m, n = m + 1 := ⟨n - 1, by simp at hn; omega⟩
  exact h t rest n ht hs

theorem readAt_brackets {ks : List Kind} {e : Expr} (h : ReadAt 0 ks e) :
    ReadAt 7 (.lparen :: ks ++ [.rparen]) e := by
  intro used rest n hu hn hs
  obtain ⟨t, used, rfl, ht, hu⟩ := List.map_eq_cons_iff.1 hu
  obtain ⟨inner, close, rfl, hinner, hclose⟩ := List.map_eq_append_iff.1 hu
  obtain ⟨u, rfl, hk⟩ := List.map_eq_singleton_iff.1 hclose
  obtain ⟨n, rfl⟩ : ∃ m, n = m + 1 := ⟨n - 1, by simp at hn; omega⟩
  have hstop : Stops 0 (u :: rest) := Stops.follower (by rw [hk]; decide)
  have hread : expression (atom n) (inner ++ u :: rest) = .ok (e, u :: rest) :=
    h hinner (by simp at hn; omega) hstop
  show atom (n + 1) (t :: (inner ++ [u]) ++ rest) = _
  unfold atom
  rw [List.cons_append, next_bind_cons, ht, List.append_assoc, List.singleton_append]
  dsimp only
  rw [bind_of_ok hread, expect_bind_cons hk]
  rfl

theorem readAt_unary {op : UnaryOp} {ks : List Kind} {e : Expr} (h : ReadAt op.level ks e) :
    ReadAt op.level (op.kind :: ks) (.unary op e) := by
  intro used rest n hu hn hs
  obtain ⟨t, used, rfl, ht, hu⟩ := List.map_eq_cons_iff.1 hu
  have hread := h hu (Nat.le_of_succ_le hn) hs
  rw [atLevel_signed] at hread ⊢
  rw [List.cons_append]
  unfold signed
  rw [if_pos ht, hread]
  rfl

theorem readAt_comparison {op : BinaryOp} {ks ks' : List Kind} {l r : Expr} (hop : op.level = 3)
    (hl : ReadAt 4 ks l) (hr : ReadAt 4 ks' r) : ReadAt 3 (ks ++ op.kind :: ks') (.binary op l r) := by
  intro used rest n hu hn hs
  obtain ⟨left, used', rfl, hleft, hu'⟩ := List.map_eq_append_iff.1 hu
  obtain ⟨t, right, rfl, ht, hright⟩ := List.map_eq_cons_iff.1 hu'
  rw [List.length_append, List.length_cons] at hn
  have hfirst : atLevel (atom n) 4 (left ++ t :: (right ++ rest)) = .ok (l, t :: (right ++ rest)) :=
    hl hleft (by omega) (Stops.operator ht (by omega))
  have hsecond : atLevel (atom n) 4 (right ++ rest) = .ok (r, rest) :=
    hr hright (by omega) (hs.mono (by omega))
  have ho : (frontKind (t :: (right ++ rest))).bind Kind.comparative? = some op :=
    (recognises_comparative t.kind op).2 ⟨ht, hop⟩
  rw [atLevel_comparison, List.append_assoc, List.cons_append]
  unfold comparison
  rw [bind_of_ok hfirst, peek?_bind, ho]
  dsimp only
  rw [next_bind_cons, bind_of_ok hsecond, peek?_bind, hs.bind_eq_none recognises_comparative]
  rfl

theorem chainedAt_binary {op : BinaryOp} {ks ks' : List Kind} {l r : Expr}
    (hl : ChainedAt op.level ks l) (hr : ReadAt (op.level + 1) ks' r) :
    ChainedAt op.level (ks ++ op.kind :: ks') (.binary op l r) := by
  intro op? hop used rest n hu hn hs
  obtain ⟨left, used', rfl, hleft, hu'⟩ := List.map_eq_append_iff.1 hu
  obtain ⟨t, right, rfl, ht, hright⟩ := List.map_eq_cons_iff.1 hu'
  rw [List.length_append, List.length_cons] at hn
  have hstop : Stops (op.level + 1) (t :: (right ++ rest)) := Stops.operator ht (Nat.lt_succ_self _)
  obtain ⟨m, hm, hchain⟩ := hl hop hleft (n := n) (by omega) hstop
  have hread := hr hright (n := n) (by omega) hs
  rw [List.length_cons, List.length_append] at hm
  obtain ⟨m, rfl⟩ : ∃ m', m = m' + 1 := ⟨m - 1, by omega⟩
  refine ⟨m, by omega, ?_⟩
  rw [List.append_assoc, List.cons_append, hchain]
  exact chainFrom_operator (recognises_chained hop).1 ht hread

theorem chainedAt_tighter {l : Nat} {ks : List Kind} {e : Expr} (h : ReadAt (l + 1) ks e) :
    ChainedAt l ks e := by
  intro op? hop used rest n hu hn hs
  refine ⟨rest.length, Nat.le_refl _, ?_⟩
  rw [atLevel_chained hop]
  unfold chain
  rw [bind_of_ok (h hu hn hs)]
  rfl

theorem readAt_tighter {l : Nat} {ks : List Kind} {e : Expr} (hspelled : Expr.Spelled (l + 1) ks e)
    (h : ReadAt (l + 1) ks e) : ReadAt l ks e := by
  obtain ⟨op?, hop⟩ | ⟨op, rfl⟩ | rfl | hl := level_cases l
  · exact (chainedAt_tighter h).readAt hop
  · -- the sign of this level does not stand at the front of a tighter spelling
    intro used rest n hu hn hs
    obtain ⟨k, ks', rfl, -, hk⟩ := hspelled.front
    have hread := h hu hn (hs.mono (Nat.le_succ _))
    obtain ⟨t, used, rfl, ht, hu⟩ := List.map_eq_cons_iff.1 hu
    have hne : t.kind ≠ op.kind := by
      intro heq
      have := hk op (ht.symm.trans heq)
      omega
    rw [atLevel_signed, List.cons_append]
    unfold signed
    rw [if_neg hne]
    exact hread
  · intro used rest n hu hn hs
    rw [atLevel_comparison]
    unfold comparison
    rw [bind_of_ok (h hu hn (hs.mono (Nat.le_succ 3))), peek?_bind,
      hs.bind_eq_none recognises_comparative]
    rfl
  · intro used rest n hu hn hs
    have hread := h hu hn (hs.mono (Nat.le_succ l))
    rw [atLevel_atom (by omega)] at hread
    rw [atLevel_atom hl]
    exact hread

theorem readAt_and_chainedAt {l : Nat} {ks : List Kind} {e : Expr} (h : Expr.Spelled l ks e) :
    ReadAt l ks e ∧ ChainedAt l ks e := by
  -- `ReadAt` alone is too weak: the left operand of a chain is never read on its own, but as the chain so far
  induction h with
  | var name =>
      refine ⟨readAt_atom (fun t rest n ht hs => ?_), fun op? hop => by cases hop⟩
      unfold atom
      rw [next_bind_cons, ht]
      dsimp only
      rw [peek?_bind, if_neg (fun h => (hs _ h).1 rfl)]
      rfl
  | int hv =>
      refine ⟨readAt_atom (fun t rest n ht _ => ?_), fun op? hop => by cases hop⟩
      unfold atom
      rw [next_bind_cons, ht]
      dsimp only
      rw [if_pos hv]
      rfl
  | bool b =>
      refine ⟨readAt_atom (fun t rest n ht _ => ?_), fun op? hop => by cases hop⟩
      unfold atom
      rw [next_bind_cons, ht]
      cases b <;> rfl
  | brackets _ ih => exact ⟨readAt_brackets ih.1, fun op? hop => by cases hop⟩
  | unary op _ ih => exact ⟨readAt_unary ih.1, fun op? hop => by cases op <;> cases hop⟩
  | @binary op ks ks' l r _ _ ihl ihr =>
      by_cases hop : op.level = 3
      · rw [BinaryOp.leftLevel_of_eq hop] at ihl
        rw [hop] at ihr ⊢
        exact ⟨readAt_comparison hop ihl.1 ihr.1, fun op? h => by cases h⟩
      · rw [BinaryOp.leftLevel_of_ne hop] at ihl
        have hchain := chainedAt_binary ihl.2 ihr.1
        obtain ⟨op?, hop?⟩ := chained?_level hop
        exact ⟨hchain.readAt hop?, hchain⟩
  | tighter h ih => exact ⟨readAt_tighter h ih.1, chainedAt_tighter ih.1⟩

/-- The tokens of a spelled expression are read, whatever follows that does not go on with it. -/
theorem expr_read {ks : List Kind} {e : Expr} {used rest : List Token} (h : Expr.Spelled 0 ks e)
    (hu : kinds used = ks) (hs : Stops 0 rest) : expr (used ++ rest) = .ok (e, rest) :=
  (readAt_and_chainedAt h).1 hu (by rw [List.length_append]; omega) hs

/-! ### Line ends, and the end of the text -/

/-- Some tokens are line ends. -/
def Gap (ts : List Token) : Prop := ∀ t ∈ ts, t.kind = .newline

theorem gap_append_dropWhile (ts : List Token) :
    ∃ gap, Gap gap ∧ ts = gap ++ ts.dropWhile (·.kind = .newline) := by
  refine ⟨ts.takeWhile (·.kind = .newline), fun t ht => ?_, List.takeWhile_append_dropWhile.symm⟩
  simpa using List.all_eq_true.1 List.all_takeWhile t ht

theorem Gap.kinds_eq {gap : List Token} (h : Gap gap) :
    kinds gap = List.replicate gap.length .newline := by
  unfold kinds
  rw [List.eq_replicate_iff, List.length_map]
  refine ⟨rfl, fun k hk => ?_⟩
  obtain ⟨t, ht, rfl⟩ := List.mem_map.1 hk
  exact h t ht

theorem gap_of_kinds {gap : List Token} {n : Nat} (h : kinds gap = List.replicate n .newline) :
    Gap gap := by
  intro t ht
  have hmem : t.kind ∈ kinds gap := List.mem_map_of_mem ht
  rw [h] at hmem
  exact List.eq_of_mem_replicate hmem

theorem Gap.dropWhile_append {gap : List Token} (h : Gap gap) (rest : List Token) :
    (gap ++ rest).dropWhile (·.kind = .newline) = rest.dropWhile (·.kind = .newline) :=
  List.dropWhile_append_of_pos (fun t ht => by simpa using h t ht)

theorem dropWhile_newline_eq_self {rest : List Token} (hr : frontKind rest ≠ some .newline) :
    rest.dropWhile (·.kind = .newline) = rest := by
  cases rest with
  | nil => rfl
  | cons t rest => exact List.dropWhile_cons_of_neg (by simpa using hr)

/-- An expression ends the text if only line ends stand between it and the end. -/
theorem exprToEnd_eq_ok {ts rest : List Token} {e : Expr} :
    exprToEnd ts = .ok (e, rest) ↔ ∃ used gap, ts = used ++ gap ++ rest ∧ Expr.Spelled 0 (kinds used) e ∧
      Gap gap ∧ frontKind rest = some .eof := by
  unfold exprToEnd
  rw [bind_eq_ok]
  constructor
  · intro h
    obtain ⟨e', mid, hexpr, h⟩ := h
    rw [bind_of_ok skipNewlines_eq, peek?_bind] at h
    split at h
    · rename_i heof
      obtain ⟨rfl, rfl⟩ := pure_eq_ok.1 h
      obtain ⟨used, rfl, hused⟩ := expr_reads hexpr
      obtain ⟨gap, hgap, hmid⟩ := gap_append_dropWhile mid
      refine ⟨used, gap, ?_, hused, hgap, heof⟩
      rw [List.append_assoc, ← hmid]
    · exact absurd h failHere_ne_ok
  · intro h
    obtain ⟨used, gap, rfl, hused, hgap, heof⟩ := h
    have hstop : Stops 0 (gap ++ rest) := by
      cases gap with
      | cons t gap => exact Stops.follower (by rw [hgap t List.mem_cons_self]; decide)
      | nil =>
          obtain ⟨t, rest, rfl, ht⟩ := frontKind_eq_some.1 heof
          exact Stops.follower (by rw [ht]; decide)
    rw [List.append_assoc]
    refine ⟨e, gap ++ rest, expr_read hused rfl hstop, ?_⟩
    rw [bind_of_ok skipNewlines_eq, peek?_bind, hgap.dropWhile_append,
      dropWhile_newline_eq_self (by rw [heof]; decide), if_pos heof]
    rfl

end TokenReader

end CostBound
