import Mathlib.Data.Int.Basic
import CostBound.Proofs.Typing

/-!
# The value of an expression

Names stand for integers of any size. An expression may have no value: an operator that is given values of the
wrong type has none. The remainder is a parameter, since solvers and machines compute it in different ways.

* `Expr.eval` — the value under a valuation; a conditional looks at the chosen branch only.
* `Expr.evalStrict` — the value if no branch may be left out; exactly the well-typed expressions have one.
* `eval_of_type` — a well-typed expression has a value of its type.
* `eval_congr` — the value depends on the names that occur only.
* `eval_subst` — replacing variables and then evaluating is evaluating under the values of the replacements.
* `types_sound_and_stable` — what a type promises, and what replacing variables by integers does to it.
-/

namespace CostBound

/-- What an expression may stand for. -/
inductive Value where
  | int (n : Int)
  | bool (b : Bool)
deriving DecidableEq, Repr

/-- The type of a value. -/
def Value.type : Value → Ty
  | int _ => .int
  | bool _ => .bool

theorem Value.type_eq_int {a : Value} : a.type = .int ↔ ∃ n, a = int n := by
  cases a with
  | int n => exact iff_of_true rfl ⟨n, rfl⟩
  | bool b => simp [type]

theorem Value.type_eq_bool {a : Value} : a.type = .bool ↔ ∃ b, a = bool b := by
  cases a with
  | int n => simp [type]
  | bool b => exact iff_of_true rfl ⟨b, rfl⟩

/-- An integer for every name. -/
abbrev Valuation := String → Int

/-- A way to compute remainders. -/
abbrev Remainder := Int → Int → Int

/-! ### Operators on values -/

/-- The value of a unary operator. -/
def UnaryOp.apply : UnaryOp → Value → Option Value
  | .neg, .int n => some (.int (-n))
  | .not, .bool b => some (.bool !b)
  | _, _ => none

/-- The value of a binary operator. -/
def BinaryOp.apply (rem : Remainder) : BinaryOp → Value → Value → Option Value
  | .add, .int a, .int b => some (.int (a + b))
  | .sub, .int a, .int b => some (.int (a - b))
  | .mul, .int a, .int b => some (.int (a * b))
  | .mod, .int a, .int b => some (.int (rem a b))
  | .le, .int a, .int b => some (.bool (a ≤ b))
  | .lt, .int a, .int b => some (.bool (a < b))
  | .ge, .int a, .int b => some (.bool (b ≤ a))
  | .gt, .int a, .int b => some (.bool (b < a))
  | .eq, .int a, .int b => some (.bool (a = b))
  | .eq, .bool a, .bool b => some (.bool (a = b))
  | .ne, .int a, .int b => some (.bool (a ≠ b))
  | .ne, .bool a, .bool b => some (.bool (a ≠ b))
  | .and, .bool a, .bool b => some (.bool (a && b))
  | .or, .bool a, .bool b => some (.bool (a || b))
  | _, _, _ => none

theorem UnaryOp.apply_of_type {op : UnaryOp} {a : Value} (h : a.type = op.type) :
    ∃ b, op.apply a = some b ∧ b.type = op.type := by
  cases op with
  | neg =>
      obtain ⟨n, rfl⟩ := Value.type_eq_int.1 h
      exact ⟨_, rfl, rfl⟩
  | not =>
      obtain ⟨b, rfl⟩ := Value.type_eq_bool.1 h
      exact ⟨_, rfl, rfl⟩

/-- An operator has a value on operands of one type, if it is the type that the operator asks for. -/
theorem BinaryOp.apply_of_type (rem : Remainder) {op : BinaryOp} {a b : Value}
    (hab : b.type = a.type) (hop : ∀ s, op.operandType? = some s → a.type = s) :
    ∃ c, op.apply rem a b = some c ∧ c.type = op.resultType := by
  cases a with
  | int n =>
      obtain ⟨k, rfl⟩ := Value.type_eq_int.1 hab
      cases op with
      | and | or => cases hop _ rfl
      | add | sub | mul | mod | le | lt | ge | gt | eq | ne => exact ⟨_, rfl, rfl⟩
  | bool p =>
      obtain ⟨k, rfl⟩ := Value.type_eq_bool.1 hab
      cases op with
      | and | or | eq | ne => exact ⟨_, rfl, rfl⟩
      | add | sub | mul | mod | le | lt | ge | gt => cases hop _ rfl

theorem UnaryOp.type_of_apply {op : UnaryOp} {a b : Value} (h : op.apply a = some b) :
    a.type = op.type ∧ b.type = op.type := by
  cases op with
  | neg =>
      cases a with
      | int n =>
          cases h
          exact ⟨rfl, rfl⟩
      | bool p => cases h
  | not =>
      cases a with
      | int n => cases h
      | bool p =>
          cases h
          exact ⟨rfl, rfl⟩

/-- An operator has a value on no other operands. -/
theorem BinaryOp.type_of_apply {rem : Remainder} {op : BinaryOp} {a b c : Value} (h : op.apply rem a b = some c) :
    b.type = a.type ∧ (∀ s, op.operandType? = some s → a.type = s) ∧ c.type = op.resultType := by
  cases a with
  | int n =>
      cases b with
      | int k =>
          cases op with
          | and | or => cases h
          | add | sub | mul | mod | le | lt | ge | gt | eq | ne =>
              cases h
              exact ⟨rfl, fun s hs => by cases hs <;> rfl, rfl⟩
      | bool q => cases op <;> cases h
  | bool p =>
      cases b with
      | int k => cases op <;> cases h
      | bool q =>
          cases op with
          | and | or | eq | ne =>
              cases h
              exact ⟨rfl, fun s hs => by cases hs <;> rfl, rfl⟩
          | add | sub | mul | mod | le | lt | ge | gt => cases h

/-! ### Expressions -/

namespace Expr

/-- The value of an expression. -/
def eval (rem : Remainder) (v : Valuation) : Expr → Option Value
  | var x => some (.int (v x))
  | lit (.int n) => some (.int n.toInt)
  | lit (.bool b) => some (.bool b)
  | unary op e => (e.eval rem v).bind op.apply
  | binary op l r => (l.eval rem v).bind fun a => (r.eval rem v).bind fun b => op.apply rem a b
  | cond c t e =>
      match c.eval rem v with
      | some (.bool true) => t.eval rem v
      | some (.bool false) => e.eval rem v
      | _ => none

/-- The value of an expression if both branches of every conditional have one, and of one type. -/
def evalStrict (rem : Remainder) (v : Valuation) : Expr → Option Value
  | var x => some (.int (v x))
  | lit (.int n) => some (.int n.toInt)
  | lit (.bool b) => some (.bool b)
  | unary op e => (e.evalStrict rem v).bind op.apply
  | binary op l r => (l.evalStrict rem v).bind fun a => (r.evalStrict rem v).bind fun b => op.apply rem a b
  | cond c t e =>
      match c.evalStrict rem v, t.evalStrict rem v, e.evalStrict rem v with
      | some (.bool b), some x, some y => if x.type = y.type then some (if b then x else y) else none
      | _, _, _ => none

section Strict

variable {rem : Remainder} {v : Valuation} {a : Value}

theorem evalStrict_cond_eq_some {c t e : Expr} :
    (cond c t e).evalStrict rem v = some a ↔ ∃ b x y, c.evalStrict rem v = some (.bool b)
      ∧ t.evalStrict rem v = some x ∧ e.evalStrict rem v = some y ∧ x.type = y.type ∧ a = if b then x else y := by
  constructor
  · intro h
    unfold evalStrict at h
    split at h
    · next b x y hc ht he =>
        split at h
        · next hxy => exact ⟨b, x, y, hc, ht, he, hxy, (Option.some.inj h).symm⟩
        · cases h
    · cases h
  · rintro ⟨b, x, y, hc, ht, he, hxy, rfl⟩
    simp only [evalStrict, hc, ht, he, hxy, if_true]

/-- Leaving out the branch that is not chosen keeps the value. -/
theorem eval_of_evalStrict {e : Expr} (h : e.evalStrict rem v = some a) : e.eval rem v = some a := by
  induction e generalizing a with
  | var x => exact h
  | lit l => cases l <;> exact h
  | unary op e ih =>
      obtain ⟨x, hx, hop⟩ := Option.bind_eq_some_iff.1 h
      simp only [eval, ih hx, Option.bind_some, hop]
  | binary op l r ihl ihr =>
      obtain ⟨x, hx, hbind⟩ := Option.bind_eq_some_iff.1 h
      obtain ⟨y, hy, hop⟩ := Option.bind_eq_some_iff.1 hbind
      simp only [eval, ihl hx, ihr hy, Option.bind_some, hop]
  | cond c t e ihc iht ihe =>
      obtain ⟨b, x, y, hc, ht, he, _, rfl⟩ := evalStrict_cond_eq_some.1 h
      cases b with
      | true => simp only [eval, ihc hc, iht ht, if_true]
      | false => simp only [eval, ihc hc, ihe he, Bool.false_eq_true, if_false]

theorem evalStrict_of_type (rem : Remainder) (v : Valuation) {e : Expr} {t : Ty} (h : e.type? = .ok t) :
    ∃ a, e.evalStrict rem v = some a ∧ a.type = t := by
  induction e generalizing t with
  | var x =>
      cases h
      exact ⟨_, rfl, rfl⟩
  | lit l =>
      cases l with
      | int n =>
          cases h
          exact ⟨_, rfl, rfl⟩
      | bool b =>
          cases h
          exact ⟨_, rfl, rfl⟩
  | unary op e ih =>
      obtain ⟨he, rfl⟩ := type?_unary_eq_ok.1 h
      obtain ⟨a, ha, hat⟩ := ih he
      obtain ⟨b, hb, hbt⟩ := UnaryOp.apply_of_type hat
      exact ⟨b, by simp only [evalStrict, ha, Option.bind_some, hb], hbt⟩
  | binary op l r ihl ihr =>
      obtain ⟨s, hl, hr, hop, rfl⟩ := type?_binary_eq_ok.1 h
      obtain ⟨a, ha, rfl⟩ := ihl hl
      obtain ⟨b, hb, hbt⟩ := ihr hr
      obtain ⟨c, hc, hct⟩ := BinaryOp.apply_of_type rem hbt hop
      exact ⟨c, by simp only [evalStrict, ha, hb, Option.bind_some, hc], hct⟩
  | cond c t e ihc iht ihe =>
      obtain ⟨hc, ht, he⟩ := type?_cond_eq_ok.1 h
      obtain ⟨a, ha, hat⟩ := ihc hc
      obtain ⟨b, rfl⟩ := Value.type_eq_bool.1 hat
      obtain ⟨x, hx, hxt⟩ := iht ht
      obtain ⟨y, hy, hyt⟩ := ihe he
      refine ⟨_, evalStrict_cond_eq_some.2 ⟨b, x, y, ha, hx, hy, hxt.trans hyt.symm, rfl⟩, ?_⟩
      cases b with
      | true => exact hxt
      | false => exact hyt

theorem type_of_evalStrict {e : Expr} (h : e.evalStrict rem v = some a) : e.type? = .ok a.type := by
  induction e generalizing a with
  | var x =>
      cases h
      rfl
  | lit l =>
      cases l with
      | int n =>
          cases h
          rfl
      | bool b =>
          cases h
          rfl
  | unary op e ih =>
      obtain ⟨x, hx, hop⟩ := Option.bind_eq_some_iff.1 h
      obtain ⟨hxt, hat⟩ := UnaryOp.type_of_apply hop
      exact type?_unary_eq_ok.2 ⟨hxt ▸ ih hx, hat⟩
  | binary op l r ihl ihr =>
      obtain ⟨x, hx, hbind⟩ := Option.bind_eq_some_iff.1 h
      obtain ⟨y, hy, hop⟩ := Option.bind_eq_some_iff.1 hbind
      obtain ⟨hyx, hxs, hat⟩ := BinaryOp.type_of_apply hop
      exact type?_binary_eq_ok.2 ⟨x.type, ihl hx, hyx ▸ ihr hy, hxs, hat⟩
  | cond c t e ihc iht ihe =>
      obtain ⟨b, x, y, hc, ht, he, hxy, rfl⟩ := evalStrict_cond_eq_some.1 h
      have hat : (if b then x else y).type = x.type := by
        cases b with
        | true => rfl
        | false => exact hxy.symm
      rw [hat]
      exact type?_cond_eq_ok.2 ⟨ihc hc, iht ht, hxy ▸ ihe he⟩

end Strict

/-- **Type soundness.** A well-typed expression has a value of its type. -/
theorem eval_of_type (rem : Remainder) (v : Valuation) {e : Expr} {t : Ty} (h : e.type? = .ok t) :
    ∃ a, e.eval rem v = some a ∧ a.type = t := by
  obtain ⟨a, ha, hat⟩ := evalStrict_of_type rem v h
  exact ⟨a, eval_of_evalStrict ha, hat⟩

theorem eval_int_of_type (rem : Remainder) (v : Valuation) {e : Expr} (h : e.type? = .ok .int) :
    ∃ n, e.eval rem v = some (.int n) := by
  obtain ⟨a, ha, hat⟩ := eval_of_type rem v h
  obtain ⟨n, rfl⟩ := Value.type_eq_int.1 hat
  exact ⟨n, ha⟩

variable {rem : Remainder} {v v' : Valuation}

/-- **Substitution lemma.** If `v'` gives every replaced name the value of its replacement and agrees with `v` on the
other names, then the value after the replacement is the value under `v'`. -/
theorem eval_subst {e : Expr} {s : Substitution}
    (hs : ∀ x ∈ e.names, ((s x).getD (var x)).eval rem v = some (.int (v' x))) :
    (e.subst s).eval rem v = e.eval rem v' := by
  induction e with
  | var x => exact hs x (by simp [names])
  | lit l => cases l <;> rfl
  | unary op e ih => simp only [subst, eval, ih hs]
  | binary op l r ihl ihr =>
      have hl := ihl fun x hx => hs x (by simp [names, hx])
      have hr := ihr fun x hx => hs x (by simp [names, hx])
      simp only [subst, eval, hl, hr]
  | cond c t e ihc iht ihe =>
      have hc := ihc fun x hx => hs x (by simp [names, hx])
      have ht := iht fun x hx => hs x (by simp [names, hx])
      have he := ihe fun x hx => hs x (by simp [names, hx])
      simp only [subst, eval, hc, ht, he]

/-- The value depends on the names that occur only. -/
theorem eval_congr {e : Expr} (h : ∀ x ∈ e.names, v x = v' x) : e.eval rem v = e.eval rem v' := by
  induction e with
  | var x => simp only [eval, h x (by simp [names])]
  | lit l => cases l <;> rfl
  | unary op e ih => simp only [eval, ih h]
  | binary op l r ihl ihr =>
      have hl := ihl fun x hx => h x (by simp [names, hx])
      have hr := ihr fun x hx => h x (by simp [names, hx])
      simp only [eval, hl, hr]
  | cond c t e ihc iht ihe =>
      have hc := ihc fun x hx => h x (by simp [names, hx])
      have ht := iht fun x hx => h x (by simp [names, hx])
      have he := ihe fun x hx => h x (by simp [names, hx])
      simp only [eval, hc, ht, he]

/-- **Types are sound, and stable under replacement by integers.** A well-typed expression has a value of its type under
every valuation, whatever the remainder is. The well-typed expressions are those that have a value even if no branch of
a conditional is left out. If all replacements are integers, the replaced expression has the same type as before; if
there was none, it has the same fault, at the replaced place. -/
theorem types_sound_and_stable :
    (∀ (e : Expr) (t : Ty), e.type? = .ok t → ∀ (rem : Remainder) (v : Valuation),
      ∃ a, e.eval rem v = some a ∧ a.type = t)
    ∧ (∀ (e : Expr) (t : Ty) (rem : Remainder) (v : Valuation),
      e.type? = .ok t ↔ ∃ a, e.evalStrict rem v = some a ∧ a.type = t)
    ∧ ∀ (e : Expr) (s : Substitution), (∀ x r, s x = some r → r.type? = .ok .int) →
      (∀ t, (e.subst s).type? = .ok t ↔ e.type? = .ok t)
        ∧ ∀ err, e.type? = .error err → (e.subst s).type? = .error (err.subst s) := by
  refine ⟨fun e t h rem v => eval_of_type rem v h, fun e t rem v => ⟨evalStrict_of_type rem v, ?_⟩, fun e s hs => ?_⟩
  · rintro ⟨a, ha, rfl⟩
    exact type_of_evalStrict ha
  have hnames : ∀ x ∈ e.names, ((s x).getD (var x)).type? = .ok .int := by
    intro x _
    cases hx : s x with
    | none => rfl
    | some r => exact hs x r hx
  exact ⟨fun t => type?_subst_eq_ok hnames, fun err h => type?_subst_eq_error hnames h⟩

/-- The parity of a positive number. -/
def parity : Expr := cond (binary .le (var "n") (int 0)) (int 0) (binary .mod (var "n") (int 2))

/-- One less than before. -/
def lessOne : Substitution := fun x => if x = "n" then some (binary .sub (var "n") (int 1)) else none

/-- The parity is an integer after the step down too, and its negation as a truth value stays a fault. -/
theorem types_sound_and_stable_parity :
    (∃ a, parity.eval Int.emod (fun _ => 5) = some a ∧ a.type = .int) ∧ (parity.subst lessOne).type? = .ok .int
      ∧ ((unary .not parity).subst lessOne).type? = .error ⟨parity.subst lessOne, .mismatch .bool .int⟩ := by
  have hparity : parity.type? = .ok .int := rfl
  have hless : ∀ x r, lessOne x = some r → r.type? = .ok .int := by
    intro x r hr
    unfold lessOne at hr
    split at hr
    · cases hr
      rfl
    · cases hr
  refine ⟨types_sound_and_stable.1 _ _ hparity _ _, ?_, ?_⟩
  · exact ((types_sound_and_stable.2.2 parity lessOne hless).1 .int).2 hparity
  · exact (types_sound_and_stable.2.2 (unary .not parity) lessOne hless).2 ⟨parity, .mismatch .bool .int⟩ rfl

end Expr

end CostBound
