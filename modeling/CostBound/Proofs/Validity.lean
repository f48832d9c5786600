import CostBound.Proofs.Evaluation
import CostBound.Proofs.Query

/-!
# Valid queries

A choice of the unknowns is good if it makes every obligation true for all integers that its binders may stand for.

* `Obligation.Holds`, `Query.Holds` — the obligation, or every obligation, is true under a choice.
* `eval_claim` — a formula is true if some parameter is not positive or the cost is at most the bound.
* `Query.Holds.formula` — of a valuation only the unknowns matter.
* `cost_le_bound` — where no parameter is below one, the derived cost is at most the bound.
-/

namespace CostBound

/-- The formula is true whatever the binders stand for; `w` chooses the other names. -/
def Obligation.Holds (rem : Remainder) (w : Valuation) (o : Obligation) : Prop :=
  ∀ v : Valuation, (∀ x, x ∉ o.binders → v x = w x) → o.formula.eval rem v = some (.bool true)

/-- The choice `w` of the unknowns makes every obligation true. -/
def Query.Holds (rem : Remainder) (w : Valuation) (q : Query) : Prop :=
  ∀ o ∈ q.obligations, o.Holds rem w

section

variable {rem : Remainder} {v w : Valuation}

/-- The value of a formula whose cost and bound have the values `a` and `b`. -/
theorem Obligation.eval_claim {params : List String} {cost bound : Expr} {a b : Int}
    (hc : cost.eval rem v = some (.int a)) (hb : bound.eval rem v = some (.int b)) :
    (claim params cost bound).eval rem v
      = some (.bool (decide ((∃ x ∈ params, v x ≤ 0) ∨ a ≤ b))) := by
  induction params with
  | nil => simp [claim_nil, Expr.eval, hc, hb, BinaryOp.apply]
  | cons x params ih =>
      rw [claim_cons]
      simp only [Expr.eval, Expr.int, ih, Option.bind_some, BinaryOp.apply]
      have h0 : (0 : Int64).toInt = 0 := rfl
      rw [h0, ← Bool.decide_or]
      simp only [List.mem_cons, exists_eq_or_imp, or_assoc]

/-- A call costs its charge on top of what the callee claims. -/
theorem CostModel.eval_charge {m : CostModel} {bound : Expr} {b : Int}
    (hb : bound.eval rem v = some (.int b)) :
    (m.charge bound).eval rem v = some (.int (m.callCost.toInt + b)) := by
  unfold charge
  split
  · rename_i h
    have h0 : m.callCost.toInt = 0 := by rw [h]; rfl
    rw [hb, h0, Int.zero_add]
  · simp [Expr.eval, Expr.int, hb, BinaryOp.apply]

variable {p : Program} {m : CostModel} {q : Query}

/-- A good choice makes a formula true under every valuation that agrees with it on the unknowns. -/
theorem Query.Holds.formula (hw : q.Holds rem w) (hq : p.query m = .ok q) {o : Obligation}
    (ho : o ∈ q.obligations) (hv : ∀ u ∈ q.unknowns, v u.name = w u.name) :
    o.formula.eval rem v = some (.bool true) := by
  obtain ⟨costs, _, rfl, _⟩ := Program.query_eq_ok.1 hq
  -- outside the binders the formula only has unknowns, so the other names may follow `w`
  let v' : Valuation := fun x => if x ∈ o.binders then v x else w x
  have hcongr : o.formula.eval rem v = o.formula.eval rem v' := by
    refine Expr.eval_congr ?_
    intro x hx
    show v x = if x ∈ o.binders then v x else w x
    by_cases hb : x ∈ o.binders
    · rw [if_pos hb]
    · rw [if_neg hb]
      rcases Query.covered_ofCosts ho hx with h | ⟨u, hu, rfl⟩
      · exact absurd h hb
      · exact hv u hu
  rw [hcongr]
  refine hw o ho v' ?_
  intro x hx
  exact if_neg hx

/-- **The inductive inequality.** Under a good choice, the derived cost of a function is at most its bound wherever
all parameters are positive, for all values of the other names. -/
theorem Program.cost_le_bound (hq : p.query m = .ok q) (hw : q.Holds rem w) {f : Function}
    (hf : f ∈ p.functions) (hv : ∀ u ∈ q.unknowns, v u.name = w u.name)
    (hpos : ∀ x ∈ f.params, 0 < v x) :
    ∃ e a b, f.body.cost p m = .ok e ∧ e.eval rem v = some (.int a)
      ∧ f.bound.eval rem v = some (.int b) ∧ a ≤ b := by
  obtain ⟨e, he, ho⟩ := exists_ofFunction_mem hq hf
  obtain ⟨_, _, _, htypes⟩ := query_eq_ok.1 hq
  obtain ⟨hcost, hbound, _⟩ := Obligation.type?_claim.1 (htypes _ ho)
  obtain ⟨a, ha⟩ := Expr.eval_int_of_type rem v hcost
  obtain ⟨b, hb⟩ := Expr.eval_int_of_type rem v hbound
  have htrue := hw.formula hq ho hv
  rw [Obligation.ofFunction_formula, Obligation.eval_claim ha hb] at htrue
  have hor : (∃ x ∈ f.params, v x ≤ 0) ∨ a ≤ b := by simpa using htrue
  refine ⟨e, a, b, he, ha, hb, ?_⟩
  rcases hor with ⟨x, hx, hle⟩ | hle
  · have := hpos x hx
    omega
  · exact hle

end

end CostBound
