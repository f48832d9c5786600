import CostBound.Proofs.Derivation
import CostBound.Proofs.NormalForm
import CostBound.Proofs.Unplaced
import CostBound.Proofs.Inference
import CostBound.Proofs.Canonical

/-!
# Reading printed expressions

Costs have conditionals, which are printed but not read. Their texts can be told apart all the same: a text is the
text of one expression, but for the sign of literals.

* `Expr.derives_kinds` — the tokens of a text have a derivation in the printed language, whose expression is the normal
  form.
* `Expr.unsigned` — literals without a sign, where there is one; the text stays the same.
* `Expr.text_eq_iff` — two expressions have the same text if they differ in signs of literals only.
* `Program.Shows` — the costs and formulas of a program; `Expr.text_unambiguous` is about these too.
-/

namespace CostBound

open Token (Kind)

/-! ### Derivations of printed expressions -/

theorem Derives.bracketKinds {G : Dialect} {e : Expr} {l l' : Nat} {ks : List Kind} {needed : Bool}
    (h : Derives G l ks e) (hl : l' ≤ 7) (hn : needed = true ↔ l < l') :
    Derives G l' (Expr.bracketKinds needed ks) e := by
  unfold Expr.bracketKinds
  by_cases hneeded : needed = true
  · rw [if_pos hneeded]
    exact (h.mono (Nat.zero_le l)).brackets.mono hl
  · rw [if_neg hneeded]
    exact h.mono (by rw [hn] at hneeded; omega)

namespace Expr

/-- The least integer is its own negation, and has the number that is too large to be read. -/
theorem ofNat_natAbs_of_neg {n : Int64} (h : n < 0) : Int64.ofNat n.toInt.natAbs = -n := by
  by_cases hmin : n = Int64.minValue
  · rw [hmin]
    decide
  · exact (ofNat_natAbs_neg h hmin).2

/-- **Printed expressions are derivable.** -/
theorem derives_kinds (e : Expr) : Derives .printed e.level e.kinds e.normal := by
  induction e with
  | var name => exact .leaf (.ident name)
  | lit l =>
      cases l with
      | int n =>
          have hnumber : Derives .printed 7 [.int n.toInt.natAbs] (int (.ofNat n.toInt.natAbs)) :=
            .leaf (.int _ trivial)
          simp only [level, kinds, normal]
          by_cases hn : n < 0
          · rw [if_pos hn, if_pos hn, if_pos hn, ← ofNat_natAbs_of_neg hn]
            exact hnumber.tighter.unary .neg
          · rw [if_neg hn, if_neg hn, if_neg hn]
            rw [ofNat_natAbs hn] at hnumber
            exact hnumber
      | bool b => exact .leaf (.bool b)
  | unary op e ih =>
      refine .unary op (ih.bracketKinds ?_ (by simp))
      cases op <;> decide
  | binary op l r ihl ihr =>
      refine .binary op (ihl.bracketKinds ?_ bracketed_left_iff) (ihr.bracketKinds ?_ bracketed_right_iff)
      · cases op <;> decide
      · cases op <;> decide
  | cond c t e ihc iht ihe =>
      exact .cond trivial (iht.mono (Nat.zero_le _)) (ihc.mono (Nat.zero_le _)) (ihe.mono (Nat.zero_le _))

theorem normal_eq_of_kinds_eq {a b : Expr} (h : a.kinds = b.kinds) : a.normal = b.normal := by
  obtain ⟨d, hkinds, hexpr⟩ := a.derives_kinds.mono (Nat.zero_le _)
  obtain ⟨d', hkinds', hexpr'⟩ := b.derives_kinds.mono (Nat.zero_le _)
  have hd : d = d' := Derivation.kinds_inj (by rw [hkinds, hkinds', h])
  rw [← hexpr, ← hexpr', hd]

/-! ### Signs of literals -/

/-- Negative literals as negations. The least integer stays, being the negation of no literal. -/
def unsigned : Expr → Expr
  | var name => var name
  | lit (.int n) => if Int64.minValue < n ∧ n < 0 then unary .neg (int (-n)) else lit (.int n)
  | lit (.bool b) => lit (.bool b)
  | unary op e => unary op e.unsigned
  | binary op l r => binary op l.unsigned r.unsigned
  | cond c t e => cond c.unsigned t.unsigned e.unsigned

section

variable {n : Int64}

theorem minValue_lt_iff : Int64.minValue < n ↔ n ≠ Int64.minValue := by
  rw [Int64.lt_iff_toInt_lt, Ne, ← Int64.toInt_inj, Int64.toInt_minValue]
  have hge := n.le_toInt
  omega

theorem toInt_neg_of_neg (hmin : Int64.minValue < n) (hn : n < 0) : (-n).toInt = -n.toInt := by
  obtain ⟨hbound, heq⟩ := ofNat_natAbs_neg hn (minValue_lt_iff.1 hmin)
  rw [Int64.lt_iff_toInt_lt, toInt_zero] at hn
  rw [← heq, Int64.toInt_ofNat_of_lt hbound]
  omega

theorem not_neg_lt_zero (hmin : Int64.minValue < n) (hn : n < 0) : ¬ -n < 0 := by
  have hneg := toInt_neg_of_neg hmin hn
  rw [Int64.lt_iff_toInt_lt, toInt_zero] at hn ⊢
  omega

theorem level_unsigned (e : Expr) : e.unsigned.level = e.level := by
  cases e with
  | lit l =>
      cases l with
      | int n =>
          unfold unsigned
          split
          · rename_i hn
            exact (if_pos hn.2).symm
          · rfl
      | bool b => rfl
  | var | unary | binary | cond => rfl

theorem text_unsigned (e : Expr) : e.unsigned.text = e.text := by
  induction e with
  | var name => rfl
  | lit l =>
      cases l with
      | int n =>
          unfold unsigned
          split
          · rename_i hn
            have hpos := not_neg_lt_zero hn.1 hn.2
            have hlevel : ¬ (int (-n)).level < UnaryOp.neg.level := by
              rw [show (int (-n)).level = if -n < 0 then 6 else 7 from rfl, if_neg hpos]
              decide
            have habs : (-n).toInt.natAbs = n.toInt.natAbs := by
              rw [toInt_neg_of_neg hn.1 hn.2]
              omega
            show "-" ++ bracket (decide ((int (-n)).level < UnaryOp.neg.level)) (Literal.int (-n)).text
              = (Literal.int n).text
            rw [decide_eq_false hlevel, int_text_of_nonneg hpos, habs, int_text_of_neg hn.2]
            rfl
          · rfl
      | bool b => rfl
  | unary op e ih => rw [unsigned, text, text, level_unsigned, ih]
  | binary op l r ihl ihr => rw [unsigned, text, text, level_unsigned, level_unsigned, ihl, ihr]
  | cond c t e ihc iht ihe => rw [unsigned, text, text, ihc, iht, ihe]

theorem sameValue_unsigned (e : Expr) : e.SameValue e.unsigned := by
  induction e with
  | var name => exact .refl _
  | lit l =>
      cases l with
      | int n =>
          unfold unsigned
          split
          · rename_i hn
            exact .neg_literal (minValue_lt_iff.1 hn.1) hn.2
          · exact .refl _
      | bool b => exact .refl _
  | unary op e ih => exact .unary op ih
  | binary op l r ihl ihr => exact .binary op ihl ihr
  | cond c t e ihc iht ihe => exact .cond ihc iht ihe

/-- The negation of the least integer as the least integer. -/
def leastJoined : Expr → Expr
  | var name => var name
  | lit l => lit l
  | unary op e => if op = .neg ∧ e = int Int64.minValue then int Int64.minValue else unary op e.leastJoined
  | binary op l r => binary op l.leastJoined r.leastJoined
  | cond c t e => cond c.leastJoined t.leastJoined e.leastJoined

/-- No literal of a normal form has a sign, and the least integer has one. -/
theorem normal_ne_minValue (e : Expr) : e.normal ≠ int Int64.minValue := by
  cases e with
  | lit l =>
      cases l with
      | int n =>
          unfold normal
          split
          · intro h
            cases h
          · rename_i hn
            intro h
            cases h
            exact hn (by decide)
      | bool b =>
          intro h
          cases h
  | var | unary | binary | cond =>
      intro h
      cases h

/-- The normal form has lost no more than the signs. -/
theorem leastJoined_normal (e : Expr) : e.normal.leastJoined = e.unsigned := by
  induction e with
  | var name => rfl
  | lit l =>
      cases l with
      | int n =>
          unfold normal unsigned
          by_cases hn : n < 0
          · rw [if_pos hn, leastJoined]
            by_cases hmin : Int64.minValue < n
            · have hne : int (-n) ≠ int Int64.minValue := by
                intro h
                have hneg : -n = Int64.minValue := Literal.int.inj (lit.inj h)
                exact not_neg_lt_zero hmin hn (hneg ▸ by decide)
              rw [if_neg (fun h => hne h.2), if_pos ⟨hmin, hn⟩]
              rfl
            · obtain rfl : n = Int64.minValue := not_not.1 fun h => hmin (minValue_lt_iff.2 h)
              decide
          · rw [if_neg hn, if_neg (fun h => hn h.2), leastJoined]
      | bool b => rfl
  | unary op e ih => rw [normal, unsigned, leastJoined, if_neg (fun h => e.normal_ne_minValue h.2), ih]
  | binary op l r ihl ihr => rw [normal, unsigned, leastJoined, ihl, ihr]
  | cond c t e ihc iht ihe => rw [normal, unsigned, leastJoined, ihc, iht, ihe]

end

/-! ### Texts -/

/-- **The text of an expression.** -/
theorem text_eq_iff {a b : Expr} (ha : a.WellNamed) (hb : b.WellNamed) : a.text = b.text ↔ a.unsigned = b.unsigned := by
  constructor
  · intro h
    have hkinds : a.kinds = b.kinds := (lexes_text ha).unique (h ▸ lexes_text hb)
    rw [← leastJoined_normal, ← leastJoined_normal, normal_eq_of_kinds_eq hkinds]
  · intro h
    rw [← text_unsigned a, h, text_unsigned]

end Expr

/-! ### Programs -/

namespace Program

variable {p : Program} {m : CostModel} {e : Expr}

/-- Read from a text, and perhaps scaled. -/
def Loaded (p : Program) : Prop := ∃ source p₀, ofSource source = .ok p₀ ∧ (p = p₀ ∨ ∃ s, p = (p₀.scaled s).1)

/-- The expression is the cost of a function, or the formula of an obligation. -/
def Shows (p : Program) (m : CostModel) (e : Expr) : Prop :=
  (∃ costs, p.costs m = .ok costs ∧ e ∈ costs) ∨ ∃ q, p.query m = .ok q ∧ ∃ o ∈ q.obligations, e = o.formula

theorem Loaded.canonical (h : p.Loaded) : p.Canonical := by
  obtain ⟨source, p₀, hsource, rfl | ⟨s, rfl⟩⟩ := h
  · exact canonical_of_ofSource hsource
  · exact canonical_scaled (canonical_of_ofSource hsource) s

theorem Shows.mentions (h : p.Shows m e) {x : String} (hx : x ∈ e.names) : p.Mentions x := by
  obtain ⟨costs, hcosts, he⟩ | ⟨q, hq, o, ho, rfl⟩ := h
  · have hall := (List.forall₂_and_left _ _).2 ⟨fun f hf => hf, costs_eq_ok.1 hcosts⟩
    obtain ⟨f, _, hf, hcost⟩ := exists_of_forall₂ hall he
    refine mentions_of_mem_formula hf hcost ?_
    rw [Obligation.ofFunction_formula, Obligation.mem_names_claim]
    exact Or.inr (Or.inl hx)
  · exact mentions_of_mem_obligations hq ho hx

theorem Canonical.isName_of_mentions (h : p.Canonical) {x : String} (hx : p.Mentions x) : IsName x := by
  obtain ⟨f, hf, hx | hx⟩ := hx
  · exact (h f hf).params x hx
  · exact (h f hf).bound.printable.wellNamed x hx

theorem Loaded.wellNamed (h : p.Loaded) (he : p.Shows m e) : e.WellNamed :=
  fun _ hx => h.canonical.isName_of_mentions (he.mentions hx)

end Program

namespace Expr

/-- **Printed expressions are unambiguous.** Let the variables of two expressions be words that are no keywords. The
expressions have the same text if they are equal up to the signs of their literals, and only then; so what is printed
determines the value. In particular this holds of any two costs and formulas that are shown for programs, which have
conditionals and need not be readable. -/
theorem text_unambiguous :
    (∀ a b : Expr, a.WellNamed → b.WellNamed →
      (a.text = b.text ↔ a.unsigned = b.unsigned) ∧ (a.text = b.text → a.SameValue b))
    ∧ ∀ (p p' : Program) (m m' : CostModel) (a b : Expr), p.Loaded → p'.Loaded → p.Shows m a → p'.Shows m' b →
      (a.text = b.text ↔ a.unsigned = b.unsigned) := by
  refine ⟨fun a b ha hb => ⟨text_eq_iff ha hb, fun h => ?_⟩, fun p p' m m' a b hp hp' ha hb => ?_⟩
  · have hb' : b.unsigned.SameValue b := fun rem v => (b.sameValue_unsigned rem v).symm
    exact ((text_eq_iff ha hb).1 h ▸ a.sameValue_unsigned).trans hb'
  · exact text_eq_iff (hp.wellNamed ha) (hp'.wellNamed hb)

/-- A product with a conditional: with `-1` and with the negation of `1` in its test. -/
def scaledChoice (limit : Expr) : Expr :=
  .binary .mul (.cond (.binary .lt (.var "n") limit) (.int 2) (.var "n")) (.int 3)

/-- The two have one text, and it is not the text of a conditional with the product in a branch. -/
theorem text_unambiguous_choice :
    (scaledChoice (.int (-1))).text = (scaledChoice (.unary .neg (.int 1))).text
      ∧ scaledChoice (.int (-1)) ≠ scaledChoice (.unary .neg (.int 1))
      ∧ (scaledChoice (.int (-1))).text
        ≠ (Expr.cond (.binary .lt (.var "n") (.int (-1))) (.int 2) (.binary .mul (.var "n") (.int 3))).text := by
  refine ⟨(text_unambiguous.1 _ _ (by decide) (by decide)).1.2 (by decide), by decide, fun h => ?_⟩
  exact absurd ((text_unambiguous.1 _ _ (by decide) (by decide)).1.1 h) (by decide)

end Expr

end CostBound
