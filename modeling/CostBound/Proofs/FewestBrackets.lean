import CostBound.Proofs.NormalForm

/-!
# The fewest brackets

An expression can be spelled in many ways, since brackets may stand around any part of it. The printed text is the
shortest one: its brackets are among those of every spelling, in the same places.

* `Expr.kindsAt` — the printed tokens of an operand of a level, in brackets if it binds less tightly.
* `Expr.Spelled.sublist` — the printed tokens are among those of any spelling, in the same order.
* `Token.firstLine` — the tokens before the first line end, or the end of the text.
* `Expr.text_fewest_brackets` — all that is read as an expression has its printed tokens, and perhaps more.
-/

namespace CostBound

open Token (Kind)
open TokenReader (exprToEnd)

namespace Expr

/-- The printed tokens of an expression that stands at a level. -/
def kindsAt (l : Nat) (e : Expr) : List Kind := bracketKinds (e.level < l) e.kinds

variable {e : Expr} {l : Nat}

theorem kindsAt_of_le (h : l ≤ e.level) : e.kindsAt l = e.kinds := by
  unfold kindsAt bracketKinds
  rw [if_neg (by simpa using h)]

theorem kindsAt_of_lt (h : e.level < l) : e.kindsAt l = .lparen :: e.kinds ++ [.rparen] := by
  unfold kindsAt bracketKinds
  rw [if_pos (by simpa using h)]

theorem kindsAt_unary (op : UnaryOp) (e : Expr) : (unary op e).kindsAt op.level = op.kind :: e.kindsAt op.level :=
  kindsAt_of_le (e := unary op e) (Nat.le_refl op.level)

theorem kindsAt_binary (op : BinaryOp) (l r : Expr) :
    (binary op l r).kindsAt op.level = l.kindsAt op.leftLevel ++ op.kind :: r.kindsAt (op.level + 1) := by
  have hleft : (decide (l.level < op.level) || l.level == op.level && op.isComparison)
      = decide (l.level < op.leftLevel) := by
    rw [Bool.eq_iff_iff, bracketed_left_iff, decide_eq_true_iff]
  have hright : decide (r.level ≤ op.level) = decide (r.level < op.level + 1) := by
    rw [Bool.eq_iff_iff, bracketed_right_iff, decide_eq_true_iff]
  rw [kindsAt_of_le (e := binary op l r) (Nat.le_refl op.level), kinds, hleft, hright]
  rfl

/-- A tighter level asks for no fewer brackets. -/
theorem kindsAt_sublist_succ (e : Expr) (l : Nat) : (e.kindsAt l).Sublist (e.kindsAt (l + 1)) := by
  by_cases hlt : e.level < l
  · rw [kindsAt_of_lt hlt, kindsAt_of_lt (Nat.lt_succ_of_lt hlt)]
  · rw [kindsAt_of_le (Nat.not_lt.1 hlt)]
    by_cases heq : e.level < l + 1
    · rw [kindsAt_of_lt heq]
      exact (List.sublist_append_left e.kinds [.rparen]).cons .lparen
    · rw [kindsAt_of_le (Nat.not_lt.1 heq)]

/-- The literals that can be read are printed as one token. -/
theorem kindsAt_int {n : Nat} (h : n < Int64.size / 2) : (int (.ofNat n)).kindsAt 7 = [.int n] := by
  have hvalue : (Int64.ofNat n).toInt = n := Int64.toInt_ofNat_of_lt h
  have hpos : ¬ Int64.ofNat n < 0 := by
    rw [Int64.lt_iff_toInt_lt, toInt_zero, hvalue]
    omega
  have hlevel : (int (.ofNat n)).level = 7 := if_neg hpos
  rw [kindsAt_of_le (Nat.le_of_eq hlevel.symm)]
  show (if Int64.ofNat n < 0 then _ else [Kind.int (Int64.ofNat n).toInt.natAbs]) = _
  rw [if_neg hpos, hvalue, Int.natAbs_natCast]

/-- **Printed brackets are needed.** By induction on the spelling: where the printed text has brackets, the level of the
operand asks for them, and the only rule that leads from there to a looser level has them too. -/
theorem Spelled.sublist {ks : List Kind} (h : Spelled l ks e) : (e.kindsAt l).Sublist ks := by
  induction h with
  | var name => exact List.Sublist.refl _
  | int h => rw [kindsAt_int h]
  | bool b => exact List.Sublist.refl _
  | @brackets ks e _ ih =>
      rw [kindsAt_of_le (Nat.zero_le _)] at ih
      by_cases hlt : e.level < 7
      · rw [kindsAt_of_lt hlt]
        exact (ih.cons_cons .lparen).append (List.Sublist.refl _)
      · rw [kindsAt_of_le (Nat.not_lt.1 hlt)]
        exact (ih.trans (List.sublist_append_left ks [.rparen])).cons .lparen
  | unary op _ ih =>
      rw [kindsAt_unary]
      exact ih.cons_cons op.kind
  | binary op _ _ ihl ihr =>
      rw [kindsAt_binary]
      exact ihl.append (ihr.cons_cons op.kind)
  | tighter _ ih => exact (kindsAt_sublist_succ _ _).trans ih

end Expr

/-! ### Texts -/

/-- The kinds of the tokens before the first line end, or before the end of the text. -/
def Token.firstLine (ts : List Token) : List Kind :=
  (TokenReader.kinds ts).takeWhile fun k => k ≠ .newline ∧ k ≠ .eof

theorem Token.firstLine_of_kinds {ts : List Token} {ks rest : List Kind} {k : Kind}
    (h : TokenReader.kinds ts = ks ++ k :: rest) (hks : ∀ k ∈ ks, k.isLayout = false) (hk : k = .newline ∨ k = .eof) :
    firstLine ts = ks := by
  have hcode : ∀ k ∈ ks, decide (k ≠ .newline ∧ k ≠ .eof) = true := by
    intro k hk
    rw [decide_eq_true_iff]
    constructor
    · rintro rfl
      cases hks _ hk
    · rintro rfl
      cases hks _ hk
  have hend : ¬ (k ≠ .newline ∧ k ≠ .eof) := fun h => hk.elim h.1 h.2
  rw [firstLine, h, List.takeWhile_append_of_pos hcode, List.takeWhile_cons, decide_eq_false hend]
  exact List.append_nil ks

open Token (firstLine)

/-- What is read as an expression spells it on its first line. -/
theorem TokenReader.spelled_firstLine {ts rest : List Token} {e : Expr} (h : exprToEnd ts = .ok (e, rest)) :
    Expr.Spelled 0 (firstLine ts) e := by
  obtain ⟨used, gap, rfl, hspelled, hgap, hfront⟩ := exprToEnd_eq_ok.1 h
  obtain ⟨eof, rest, rfl, heof⟩ := frontKind_eq_some.1 hfront
  obtain ⟨k, more, hmore, hk⟩ : ∃ k more, kinds (gap ++ eof :: rest) = k :: more ∧ (k = .newline ∨ k = .eof) := by
    cases gap with
    | nil => exact ⟨_, _, rfl, .inr heof⟩
    | cons t gap => exact ⟨_, _, rfl, .inl (hgap t List.mem_cons_self)⟩
  have hkinds : kinds (used ++ gap ++ eof :: rest) = kinds used ++ k :: more := by
    rw [List.append_assoc, kinds_append, hmore]
  rw [Token.firstLine_of_kinds hkinds hspelled.isLayout_eq hk]
  exact hspelled

namespace Expr

/-- **Printed texts have the fewest brackets.** Let the names of an expression be words that are no keywords, and let it
have neither conditionals nor negative literals. Then its text is read as the expression; and whatever tokens are read
as this expression, those of the text are among them, in the same order. So no such tokens are fewer before the line
ends and the end of the text. -/
theorem text_fewest_brackets {e : Expr} (h : e.Printable) (hn : ∀ n ∈ e.integers, ¬ n < 0) :
    ∃ printed, Token.scan e.text = .ok printed ∧ (∃ rest, exprToEnd printed = .ok (e, rest))
      ∧ ∀ ts rest, exprToEnd ts = .ok (e, rest) →
        (firstLine printed).length ≤ (firstLine ts).length ∧ (firstLine printed).Sublist (firstLine ts) := by
  obtain ⟨printed, hscan, hkinds⟩ := scan_text h
  have hfirst : firstLine printed = e.kinds :=
    Token.firstLine_of_kinds hkinds (spelled_kinds h).isLayout_eq (.inl rfl)
  obtain ⟨_, rest, hscan', hread⟩ := TokenReader.runOn_eq_ok.1 (ofSource_text h)
  cases hscan.symm.trans hscan'
  rw [normal_eq_self_iff.2 hn] at hread
  refine ⟨printed, hscan, ⟨rest, hread⟩, fun ts rest' hts => ?_⟩
  have hsub := (TokenReader.spelled_firstLine hts).sublist
  rw [kindsAt_of_le (Nat.zero_le _), ← hfirst] at hsub
  exact ⟨hsub.length_le, hsub⟩

/-- A difference to the right of a difference, in a comparison that is negated. -/
def difference : Expr :=
  .unary .not (.binary .le (.binary .sub (.var "a") (.binary .sub (.var "b") (.int 1))) (.var "c"))

/-- The tokens of `not ((a) - (b - 1) <= c)`. -/
def bracketed : List Token :=
  List.map (Token.mk · .origin)
    [.kwNot, .lparen, .lparen, .ident "a", .rparen, .minus, .lparen, .ident "b", .minus, .int 1, .rparen, .le,
      .ident "c", .rparen, .newline, .eof]

/-- Of the three pairs of brackets one is needed, and this one is printed. -/
theorem text_fewest_brackets_difference :
    difference.text = "not a - (b - 1) <= c" ∧ (∃ rest, exprToEnd bracketed = .ok (difference, rest))
      ∧ ∃ printed, Token.scan difference.text = .ok printed ∧ (firstLine printed).length ≤ 14 := by
  have hread : exprToEnd bracketed = .ok (difference, [⟨.eof, .origin⟩]) := rfl
  have hliteral : ∀ n ∈ difference.integers, ¬ n < 0 := List.forall_mem_singleton.2 (by decide)
  obtain ⟨printed, hscan, -, hfewest⟩ := text_fewest_brackets (e := difference) (by decide +kernel) hliteral
  exact ⟨by decide +kernel, ⟨_, hread⟩, printed, hscan, (hfewest bracketed _ hread).1⟩

end Expr

end CostBound
