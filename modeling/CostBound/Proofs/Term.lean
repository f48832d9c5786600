import CostBound.Proofs.Sexp
import CostBound.Query.Script

/-!
# Terms as S-expressions

The term of an expression is the text of an S-expression, and this determines the expression but for one thing: a
negative literal and the negation of a positive literal have the same term. The least integer is a literal only, since
no literal has its absolute value.

* `Expr.sexp`, `Expr.toList_term` — the S-expression of an expression, which its term spells.
* `Expr.ofSexp?` — the expression that an S-expression stands for.
* `Expr.merged` — the normal form in which negations of positive literals are literals.
* `Expr.ofSexp?_sexp`, `Expr.sexp_merged` — the S-expression of an expression stands for its normal form, and both
  have the same one.
-/

namespace CostBound

/-- A word that stands for a variable in terms. -/
def IsSymbol (x : String) : Prop := IsWord x ∧ x ≠ "true" ∧ x ≠ "false"

instance (x : String) : Decidable (IsSymbol x) := inferInstanceAs (Decidable (_ ∧ _))

/-- The operator with a given name in terms. -/
def UnaryOp.ofTermSymbol? (name : String) : Option UnaryOp := [("-", neg), ("not", not)].lookup name

/-- The operator with a given name in terms. -/
def BinaryOp.ofTermSymbol? (name : String) : Option BinaryOp :=
  [("+", add), ("-", sub), ("*", mul), ("mod", mod), ("<=", le), ("<", lt), (">=", ge), (">", gt), ("=", eq),
    ("distinct", ne), ("and", and), ("or", or)].lookup name

theorem UnaryOp.ofTermSymbol?_termSymbol (op : UnaryOp) : ofTermSymbol? op.termSymbol = some op := by
  cases op <;> decide +kernel

theorem BinaryOp.ofTermSymbol?_termSymbol (op : BinaryOp) : ofTermSymbol? op.termSymbol = some op := by
  cases op <;> decide +kernel

/-- The number that an atom stands for, if it is a numeral without leading zeros. -/
def Sexp.numeral? : Sexp → Option Nat
  | atom text =>
      let n := Nat.ofDigitChars 10 text.toList 0
      if n.repr = text then some n else none
  | list _ => none

namespace Expr

/-- The term of an expression as an S-expression. -/
def sexp : Expr → Sexp
  | var name => .atom name
  | lit (.int n) =>
      if n < 0 then .list [.atom "-", .atom n.toInt.natAbs.repr] else .atom n.toInt.natAbs.repr
  | lit (.bool true) => .atom "true"
  | lit (.bool false) => .atom "false"
  | unary op e => .list [.atom op.termSymbol, e.sexp]
  | binary op l r => .list [.atom op.termSymbol, l.sexp, r.sexp]
  | cond c t e => .list [.atom "ite", c.sexp, t.sexp, e.sexp]

/-- The negation of a positive literal as a negative literal. -/
def merged : Expr → Expr
  | var name => var name
  | lit l => lit l
  | unary .neg (lit (.int n)) => if 0 < n then int (-n) else unary .neg (lit (.int n))
  | unary op e => unary op e.merged
  | binary op l r => binary op l.merged r.merged
  | cond c t e => cond c.merged t.merged e.merged

/-- The expression that an atom stands for: a truth value, a numeral of 64 bits or a variable. -/
def ofAtom? (text : String) : Option Expr :=
  if text = "true" then some (lit (.bool true))
  else if text = "false" then some (lit (.bool false))
  else
    match (Sexp.atom text).numeral? with
    | some n => if n < Int64.size / 2 then some (int (.ofNat n)) else none
    | none => some (var text)

/-- The positive number that stands after a minus sign. -/
def negated? (head : String) (e : Sexp) : Option Nat :=
  if head = "-" then e.numeral?.filter (0 < ·) else none

/-- The expression that a term stands for. A minus sign and a positive numeral make a negative literal. -/
def ofSexp? : Sexp → Option Expr
  | .atom text => ofAtom? text
  | .list [.atom head, e] =>
      match negated? head e with
      | some n => if n ≤ Int64.size / 2 then some (int (.ofInt (-n))) else none
      | none => do
          let op ← UnaryOp.ofTermSymbol? head
          return unary op (← ofSexp? e)
  | .list [.atom head, l, r] => do
      let op ← BinaryOp.ofTermSymbol? head
      return binary op (← ofSexp? l) (← ofSexp? r)
  | .list [.atom head, c, t, e] =>
      if head = "ite" then do
        return cond (← ofSexp? c) (← ofSexp? t) (← ofSexp? e)
      else none
  | .list _ => none

end Expr

/-! ### Atoms -/

/-- A numeral begins with a digit. -/
theorem not_isWord_repr (n : Nat) : ¬ IsWord n.repr := by
  intro h
  obtain ⟨c, cs, hx, hc, -⟩ := h
  have hdigit : c.isDigit = true := by
    refine Nat.isDigit_of_mem_toDigits (b := 10) (n := n) (by omega) (by omega) ?_
    rw [← Nat.toList_repr, hx]
    exact List.mem_cons_self
  exact Bool.noConfusion ((Lexeme.isWordStart_of_isDigit hdigit).symm.trans hc)

theorem isWord_true : IsWord "true" := .of_all rfl rfl rfl

theorem isWord_false : IsWord "false" := .of_all rfl rfl rfl

theorem Sexp.numeral?_repr (n : Nat) : (atom n.repr).numeral? = some n := by
  have hn : Nat.ofDigitChars 10 n.repr.toList 0 = n := by
    rw [Nat.toList_repr]
    exact Nat.ofDigitChars_toDigits (by omega) (by omega)
  simp only [numeral?, hn, if_true]

theorem Sexp.numeral?_word {x : String} (h : IsWord x) : (atom x).numeral? = none := by
  refine if_neg fun hx => ?_
  rw [← hx] at h
  exact not_isWord_repr _ h

namespace Expr

theorem ofAtom?_repr {n : Nat} (h : n < Int64.size / 2) : ofAtom? n.repr = some (int (.ofNat n)) := by
  have htrue : n.repr ≠ "true" := fun heq => not_isWord_repr n (heq ▸ isWord_true)
  have hfalse : n.repr ≠ "false" := fun heq => not_isWord_repr n (heq ▸ isWord_false)
  rw [ofAtom?, if_neg htrue, if_neg hfalse, Sexp.numeral?_repr]
  exact if_pos h

theorem ofAtom?_symbol {x : String} (h : IsSymbol x) : ofAtom? x = some (var x) := by
  rw [ofAtom?, if_neg h.2.1, if_neg h.2.2, Sexp.numeral?_word h.1]

/-! ### Terms -/

theorem ofSexp?_unary {op : UnaryOp} {e : Expr} {s : Sexp} (h : negated? op.termSymbol s = none)
    (he : ofSexp? s = some e) : ofSexp? (.list [.atom op.termSymbol, s]) = some (unary op e) := by
  simp [ofSexp?, h, he, UnaryOp.ofTermSymbol?_termSymbol]

theorem ofSexp?_negative {n : Nat} (hpos : 0 < n) (h : n ≤ Int64.size / 2) :
    ofSexp? (.list [.atom "-", .atom n.repr]) = some (int (.ofInt (-n))) := by
  have hnegated : negated? "-" (.atom n.repr) = some n := by
    rw [negated?, if_pos rfl, Sexp.numeral?_repr, Option.filter_some_pos (by simpa using hpos)]
  simp [ofSexp?, hnegated, h]

theorem numeral?_sexp {e : Expr} (h : ∀ x ∈ e.names, IsSymbol x) {k : Nat} (hk : e.sexp.numeral? = some k) :
    ∃ n : Int64, e = int n ∧ ¬ n < 0 ∧ k = n.toInt.natAbs := by
  cases e with
  | var name =>
      rw [sexp, Sexp.numeral?_word (h name (List.mem_singleton.2 rfl)).1] at hk
      cases hk
  | lit l =>
      cases l with
      | int n =>
          by_cases hn : n < 0
          · rw [sexp, if_pos hn] at hk
            cases hk
          · rw [sexp, if_neg hn, Sexp.numeral?_repr] at hk
            exact ⟨n, rfl, hn, (Option.some.inj hk).symm⟩
      | bool b =>
          cases b with
          | true =>
              rw [sexp, Sexp.numeral?_word isWord_true] at hk
              cases hk
          | false =>
              rw [sexp, Sexp.numeral?_word isWord_false] at hk
              cases hk
  | unary op e => cases hk
  | binary op l r => cases hk
  | cond c t e => cases hk

theorem merged_unary {op : UnaryOp} {e : Expr} (h : ∀ n, op = .neg → e = int n → ¬ 0 < n) :
    (unary op e).merged = unary op e.merged := by
  cases op with
  | not => rfl
  | neg =>
      cases e with
      | lit l =>
          cases l with
          | int n => exact if_neg (h n rfl rfl)
          | bool b => rfl
      | var name => rfl
      | unary op e => rfl
      | binary op l r => rfl
      | cond c t e => rfl

theorem merged_neg {n : Int64} (h : 0 < n) : (unary .neg (int n)).merged = int (-n) := if_pos h

theorem mem_names_merged {e : Expr} {x : String} : x ∈ e.merged.names ↔ x ∈ e.names := by
  induction e with
  | var name => rfl
  | lit l => rfl
  | unary op e ih =>
      by_cases h : ∃ n, op = .neg ∧ e = int n ∧ 0 < n
      · obtain ⟨n, rfl, rfl, hn⟩ := h
        rw [merged_neg hn]
        rfl
      · rw [merged_unary fun n hop he hn => h ⟨n, hop, he, hn⟩]
        exact ih
  | binary op l r ihl ihr => simp only [merged, names, Names.mem_union, ihl, ihr]
  | cond c t e ihc iht ihe => simp only [merged, names, Names.mem_union, ihc, iht, ihe]

theorem negated?_eq_some {op : UnaryOp} {s : Sexp} {k : Nat} :
    negated? op.termSymbol s = some k ↔ op = .neg ∧ s.numeral? = some k ∧ 0 < k := by
  cases op with
  | neg => simp [negated?, UnaryOp.termSymbol, Option.filter_eq_some_iff]
  | not => simp [negated?, UnaryOp.termSymbol]

theorem zero_lt_iff {n : Int64} : 0 < n ↔ ¬ n < 0 ∧ 0 < n.toInt.natAbs := by
  rw [Int64.lt_iff_toInt_lt, Int64.lt_iff_toInt_lt, toInt_zero]
  omega

theorem natAbs_lt_of_nonneg {n : Int64} (h : ¬ n < 0) : n.toInt.natAbs < Int64.size / 2 := by
  have hlt := n.toInt_lt
  have hsize : Int64.size / 2 = 2 ^ 63 := rfl
  rw [Int64.lt_iff_toInt_lt, toInt_zero] at h
  omega

theorem ofInt_neg_natAbs {n : Int64} (h : n < 0) :
    0 < n.toInt.natAbs ∧ n.toInt.natAbs ≤ Int64.size / 2 ∧ Int64.ofInt (-n.toInt.natAbs) = n := by
  have hge := n.le_toInt
  have hsize : Int64.size / 2 = 2 ^ 63 := rfl
  rw [Int64.lt_iff_toInt_lt, toInt_zero] at h
  have habs : -(n.toInt.natAbs : Int) = n.toInt := by omega
  exact ⟨by omega, by omega, by rw [habs, Int64.ofInt_toInt]⟩

/-- The negation of a positive literal and the negative literal have the same term. -/
theorem sexp_neg {n : Int64} (h : 0 < n) : (unary .neg (int n)).sexp = (int (-n)).sexp := by
  have hn : ¬ n < 0 := (zero_lt_iff.1 h).1
  have hlt := n.toInt_lt
  rw [Int64.lt_iff_toInt_lt, toInt_zero] at h
  have htoInt : (-n).toInt = -n.toInt := by
    rw [Int64.toInt_neg, Int.bmod_eq_of_le (by omega) (by omega)]
  have hneg : -n < 0 := by
    rw [Int64.lt_iff_toInt_lt, htoInt, toInt_zero]
    omega
  rw [sexp, int, int, sexp, sexp, if_neg hn, if_pos hneg, htoInt, Int.natAbs_neg]
  rfl

theorem ofSexp?_int (n : Int64) : ofSexp? (int n).sexp = some (int n) := by
  by_cases hn : n < 0
  · obtain ⟨hpos, hle, heq⟩ := ofInt_neg_natAbs hn
    rw [int, sexp, if_pos hn, ofSexp?_negative hpos hle, heq]
    rfl
  · rw [int, sexp, if_neg hn, ofSexp?, ofAtom?_repr (natAbs_lt_of_nonneg hn), ofNat_natAbs hn]
    rfl

/-- **Terms are read back.** Only the negation of a positive literal is taken for a negative literal. -/
theorem ofSexp?_sexp {e : Expr} (h : ∀ x ∈ e.names, IsSymbol x) : ofSexp? e.sexp = some e.merged := by
  induction e with
  | var name =>
      rw [sexp, ofSexp?, ofAtom?_symbol (h name (List.mem_singleton.2 rfl))]
      rfl
  | lit l =>
      cases l with
      | int n => exact ofSexp?_int n
      | bool b => cases b <;> rfl
  | unary op e ih =>
      have he : ∀ x ∈ e.names, IsSymbol x := h
      cases hneg : negated? op.termSymbol e.sexp with
      | some k =>
          obtain ⟨rfl, hk, hpos⟩ := negated?_eq_some.1 hneg
          obtain ⟨n, rfl, hn, rfl⟩ := numeral?_sexp he hk
          have hlt : 0 < n := zero_lt_iff.2 ⟨hn, hpos⟩
          rw [merged_neg hlt, sexp_neg hlt, ofSexp?_int]
      | none =>
          rw [sexp, ofSexp?_unary hneg (ih he), merged_unary]
          intro n hop heq hlt
          obtain ⟨hn, hpos⟩ := zero_lt_iff.1 hlt
          have hsome : negated? op.termSymbol e.sexp = some n.toInt.natAbs := by
            refine negated?_eq_some.2 ⟨hop, ?_, hpos⟩
            rw [heq, int, sexp, if_neg hn, Sexp.numeral?_repr]
          rw [hneg] at hsome
          cases hsome
  | binary op l r ihl ihr =>
      simp only [names, Names.mem_union] at h
      simp [sexp, ofSexp?, BinaryOp.ofTermSymbol?_termSymbol, ihl (fun x hx => h x (.inl hx)),
        ihr (fun x hx => h x (.inr hx)), merged]
  | cond c t e ihc iht ihe =>
      simp only [names, Names.mem_union] at h
      simp [sexp, ofSexp?, ihc (fun x hx => h x (.inl hx)), iht (fun x hx => h x (.inr (.inl hx))),
        ihe (fun x hx => h x (.inr (.inr hx))), merged]

/-- What is merged has the same term. -/
theorem sexp_merged (e : Expr) : e.merged.sexp = e.sexp := by
  induction e with
  | var name => rfl
  | lit l => rfl
  | unary op e ih =>
      by_cases hneg : ∃ n, op = .neg ∧ e = int n ∧ 0 < n
      · obtain ⟨n, rfl, rfl, hn⟩ := hneg
        rw [merged_neg hn, sexp_neg hn]
      · rw [merged_unary (fun n hop he hn => hneg ⟨n, hop, he, hn⟩), sexp, ih, sexp]
  | binary op l r ihl ihr => rw [merged, sexp, ihl, ihr, sexp]
  | cond c t e ihc iht ihe => rw [merged, sexp, ihc, iht, ihe, sexp]

/-! ### Texts of terms -/

theorem toList_term (e : Expr) : e.term.toList = e.sexp.chars := by
  induction e with
  | var name => rw [term, sexp, Sexp.chars]
  | lit l =>
      cases l with
      | int n =>
          rw [term, Literal.term, sexp]
          split
          · simp [Sexp.chars, List.intercalate]
          · simp [Sexp.chars]
      | bool b => cases b <;> simp [term, Literal.term, sexp, Sexp.chars]
  | unary op e ih => simp [term, sexp, Sexp.chars, List.intercalate, ih]
  | binary op l r ihl ihr => simp [term, sexp, Sexp.chars, List.intercalate, ihl, ihr]
  | cond c t e ihc iht ihe => simp [term, sexp, Sexp.chars, List.intercalate, ihc, iht, ihe]

end Expr

theorem Expr.proper_sexp {e : Expr} (h : ∀ x ∈ e.names, IsWord x) : e.sexp.Proper := by
  induction e with
  | var name => exact Sexp.proper_word (h name (List.mem_singleton.2 rfl))
  | lit l =>
      cases l with
      | int n =>
          have hminus : (Sexp.atom "-").Proper := .of_all rfl
          have hn := Sexp.proper_repr n.toInt.natAbs
          rw [sexp]
          split
          · exact Sexp.proper_list.2 (by simpa using ⟨hminus, hn⟩)
          · exact hn
      | bool b => cases b <;> exact .of_all rfl
  | unary op e ih =>
      have hop : (Sexp.atom op.termSymbol).Proper := by cases op <;> exact .of_all rfl
      exact Sexp.proper_list.2 (by simpa using ⟨hop, ih h⟩)
  | binary op l r ihl ihr =>
      simp only [names, Names.mem_union] at h
      have hop : (Sexp.atom op.termSymbol).Proper := by cases op <;> exact .of_all rfl
      have hl := ihl (fun x hx => h x (.inl hx))
      have hr := ihr (fun x hx => h x (.inr hx))
      exact Sexp.proper_list.2 (by simpa using ⟨hop, hl, hr⟩)
  | cond c t e ihc iht ihe =>
      simp only [names, Names.mem_union] at h
      have hite : (Sexp.atom "ite").Proper := .of_all rfl
      have hc := ihc (fun x hx => h x (.inl hx))
      have ht := iht (fun x hx => h x (.inr (.inl hx)))
      have he := ihe (fun x hx => h x (.inr (.inr hx)))
      exact Sexp.proper_list.2 (by simpa using ⟨hite, hc, ht, he⟩)

end CostBound
