import CostBound.Proofs.Outcome
import CostBound.Proofs.Runs

/-!
# The charge for a call

A cost has two shapes: with a charge, every call is a sum of the charge and a bound; without one it is the bound alone.
Their values differ by the charge, once for each call on the path that the conditions select.

* `Command.selected` — the calls on that path.
* `Command.cost_recharge` — a cost at another charge has the same names.
* `Command.eval_cost` — the values of the costs at two charges, from a common base.
* `Obligation.holds_recharge` — one obligation, at a smaller charge.
* `Program.query_charge` — the charge enters affinely, and what holds at a charge holds at all smaller ones.
-/

namespace CostBound

/-- The calls on the path that the conditions select. A condition that is neither true nor false selects none. -/
def Command.selected (rem : Remainder) (v : Valuation) : Command → List Call
  | pass => []
  | call callee args => [⟨callee, args⟩]
  | block a b => a.selected rem v ++ b.selected rem v
  | choose test a b =>
      match test.eval rem v with
      | some (.bool true) => a.selected rem v
      | some (.bool false) => b.selected rem v
      | _ => []

section

variable {p : Program} {m m' : CostModel} {rem : Remainder} {v w : Valuation}

namespace Command

/-- A cost at one charge is a cost at any other, and mentions the same names. -/
theorem cost_recharge {c : Command} {e : Expr} (h : c.cost p m = .ok e) (m' : CostModel) :
    ∃ e', c.cost p m' = .ok e' ∧ ∀ x, x ∈ e'.names ↔ x ∈ e.names := by
  induction c generalizing e with
  | pass =>
      cases h
      exact ⟨.int 0, rfl, fun x => Iff.rfl⟩
  | call callee args =>
      obtain ⟨f, hf, hlen, rfl⟩ := cost_call_eq_ok.1 h
      refine ⟨_, cost_call_eq_ok.2 ⟨f, hf, hlen, rfl⟩, fun x => ?_⟩
      rw [mem_names_charge, mem_names_charge]
  | block a b iha ihb =>
      obtain ⟨x, y, hx, hy, rfl⟩ := cost_block_eq_ok.1 h
      obtain ⟨x', hx', hnx⟩ := iha hx
      obtain ⟨y', hy', hny⟩ := ihb hy
      refine ⟨_, cost_block_eq_ok.2 ⟨x', y', hx', hy', rfl⟩, fun z => ?_⟩
      simp only [Expr.names, Names.mem_union, hnx, hny]
  | choose test a b iha ihb =>
      obtain ⟨x, y, hx, hy, rfl⟩ := cost_choose_eq_ok.1 h
      obtain ⟨x', hx', hnx⟩ := iha hx
      obtain ⟨y', hy', hny⟩ := ihb hy
      refine ⟨_, cost_choose_eq_ok.2 ⟨x', y', hx', hy', rfl⟩, fun z => ?_⟩
      simp only [Expr.names, Names.mem_union, hnx, hny]

/-- **Costs at two charges.** Both are a common base and the charge, once for each selected call. -/
theorem eval_cost {c : Command} {e e' : Expr} (h : c.cost p m = .ok e) (h' : c.cost p m' = .ok e')
    (ht : e.type? = .ok .int) (rem : Remainder) (v : Valuation) :
    ∃ base, e.eval rem v = some (.int (base + m.callCost.toInt * (c.selected rem v).length))
      ∧ e'.eval rem v = some (.int (base + m'.callCost.toInt * (c.selected rem v).length)) := by
  induction c generalizing e e' with
  | pass =>
      cases h
      cases h'
      exact ⟨0, by simp [selected, Expr.int, Expr.eval], by simp [selected, Expr.int, Expr.eval]⟩
  | call callee args =>
      obtain ⟨f, hf, _, rfl⟩ := cost_call_eq_ok.1 h
      obtain ⟨f', hf', _, rfl⟩ := cost_call_eq_ok.1 h'
      cases hf.symm.trans hf'
      obtain ⟨b, hb⟩ := Expr.eval_int_of_type rem v (CostModel.type?_charge.1 ht)
      refine ⟨b, ?_, ?_⟩
      · rw [CostModel.eval_charge hb, Int.add_comm]
        simp [selected]
      · rw [CostModel.eval_charge hb, Int.add_comm]
        simp [selected]
  | block a b iha ihb =>
      obtain ⟨x, y, hx, hy, rfl⟩ := cost_block_eq_ok.1 h
      obtain ⟨x', y', hx', hy', rfl⟩ := cost_block_eq_ok.1 h'
      obtain ⟨htx, hty⟩ := (Expr.type?_arithmetic rfl rfl).1 ht
      obtain ⟨n, hn, hn'⟩ := iha hx hx' htx
      obtain ⟨k, hk, hk'⟩ := ihb hy hy' hty
      have hsum : ∀ charge : Int, n + charge * (a.selected rem v).length + (k + charge * (b.selected rem v).length)
          = n + k + charge * (a.selected rem v ++ b.selected rem v).length := by
        intro charge
        rw [List.length_append, Int.natCast_add, Int.mul_add]
        omega
      refine ⟨n + k, ?_, ?_⟩
      · simp only [Expr.eval, hn, hk, Option.bind_some, BinaryOp.apply, selected, hsum]
      · simp only [Expr.eval, hn', hk', Option.bind_some, BinaryOp.apply, selected, hsum]
  | choose test a b iha ihb =>
      obtain ⟨x, y, hx, hy, rfl⟩ := cost_choose_eq_ok.1 h
      obtain ⟨x', y', hx', hy', rfl⟩ := cost_choose_eq_ok.1 h'
      obtain ⟨htest, htx, hty⟩ := Expr.type?_cond_eq_ok.1 ht
      obtain ⟨t, htv, htt⟩ := Expr.eval_of_type rem v htest
      obtain ⟨t, rfl⟩ := Value.type_eq_bool.1 htt
      cases t with
      | true =>
          obtain ⟨n, hn, hn'⟩ := iha hx hx' htx
          exact ⟨n, by simp only [Expr.eval, selected, htv, hn], by simp only [Expr.eval, selected, htv, hn']⟩
      | false =>
          obtain ⟨n, hn, hn'⟩ := ihb hy hy' hty
          exact ⟨n, by simp only [Expr.eval, selected, htv, hn], by simp only [Expr.eval, selected, htv, hn']⟩

end Command

/-! ### Obligations -/

namespace Obligation

variable {f : Function} {e e' : Expr}

theorem mem_formula_names_recharge (hnames : ∀ x, x ∈ e'.names ↔ x ∈ e.names) (x : String) :
    x ∈ (ofFunction f e').formula.names ↔ x ∈ (ofFunction f e).formula.names := by
  rw [ofFunction_formula, ofFunction_formula, mem_names_claim, mem_names_claim, hnames x]

/-- **One obligation.** What holds at a charge holds at a smaller one. -/
theorem holds_recharge (h : f.body.cost p m = .ok e) (h' : f.body.cost p m' = .ok e')
    (hnames : ∀ x, x ∈ e'.names ↔ x ∈ e.names) (ht : (ofFunction f e).formula.type? = .ok .bool)
    (hle : m'.callCost ≤ m.callCost) (hw : (ofFunction f e).Holds rem w) : (ofFunction f e').Holds rem w := by
  intro v hv
  have hbinders : (ofFunction f e').binders = (ofFunction f e).binders :=
    binders_eq_of_names rfl fun x _ => mem_formula_names_recharge hnames x
  rw [hbinders] at hv
  obtain ⟨htcost, htbound, _⟩ := type?_claim.1 ht
  obtain ⟨base, ha, ha'⟩ := Command.eval_cost h h' htcost rem v
  obtain ⟨b, hb⟩ := Expr.eval_int_of_type rem v htbound
  have htrue := hw v hv
  rw [ofFunction_formula, eval_claim ha hb, Option.some.injEq, Value.bool.injEq, decide_eq_true_eq] at htrue
  rw [ofFunction_formula, eval_claim ha' hb, Option.some.injEq, Value.bool.injEq, decide_eq_true_eq]
  rcases htrue with hdegenerate | hab
  · exact Or.inl hdegenerate
  · have hcalls : m'.callCost.toInt * (f.body.selected rem v).length
        ≤ m.callCost.toInt * (f.body.selected rem v).length :=
      Int.mul_le_mul_of_nonneg_right (Int64.le_iff_toInt_le.1 hle) (Int.natCast_nonneg _)
    exact Or.inr (by omega)

end Obligation

end

/-! ### The query -/

namespace Program

variable {p : Program} {m : CostModel} {q : Query}

/-- The names beside the parameters are the same at all charges. -/
theorem exists_formula_names_recharge {m' : CostModel} {q' : Query} (hq : p.query m = .ok q)
    (hq' : p.query m' = .ok q') {x : String} (h : ∃ o ∈ q.obligations, x ∈ o.formula.names ∧ x ∉ o.params) :
    ∃ o ∈ q'.obligations, x ∈ o.formula.names ∧ x ∉ o.params := by
  obtain ⟨o, ho, hx, hparams⟩ := h
  obtain ⟨f, hf, e, he, rfl⟩ := (mem_obligations hq).1 ho
  obtain ⟨e', he', hnames⟩ := Command.cost_recharge he m'
  exact ⟨_, (mem_obligations hq').2 ⟨f, hf, e', he', rfl⟩,
    (Obligation.mem_formula_names_recharge hnames x).2 hx, hparams⟩

/-- **The charge for a call.** Let a program have a query at some charge, and take any other charge. The value of a
function's cost is its value without a charge and the charge, once for each call that the conditions select. The program
has a query at the other charge, too, with the same unknowns; and if that charge is not greater, every choice of the
unknowns that makes the obligations true before makes them true then. -/
theorem query_charge (hq : p.query m = .ok q) (m' : CostModel) :
    (∀ f ∈ p.functions, ∀ rem v, ∃ cost free n, f.body.cost p m' = .ok cost ∧ f.body.cost p .freeCalls = .ok free
        ∧ free.eval rem v = some (.int n)
        ∧ cost.eval rem v = some (.int (n + m'.callCost.toInt * (f.body.selected rem v).length)))
      ∧ ∃ q', p.query m' = .ok q' ∧ q'.unknowns = q.unknowns
        ∧ (m'.callCost ≤ m.callCost → ∀ rem w, q.Holds rem w → q'.Holds rem w) := by
  obtain ⟨_, _, _, htypes⟩ := query_eq_ok.1 hq
  obtain ⟨q', hq'⟩ : ∃ q', p.query m' = .ok q' := exists_query_iff.2 (exists_query_iff.1 ⟨q, hq⟩)
  refine ⟨fun f hf rem v => ?_, q', hq', ?_, fun hle rem w hw o' ho' => ?_⟩
  · obtain ⟨q₀, hq₀⟩ : ∃ q₀, p.query .freeCalls = .ok q₀ := exists_query_iff.2 (exists_query_iff.1 ⟨q, hq⟩)
    obtain ⟨cost, hcost, _⟩ := exists_ofFunction_mem hq' hf
    obtain ⟨free, hfree, ho⟩ := exists_ofFunction_mem hq₀ hf
    obtain ⟨_, _, _, htypes₀⟩ := query_eq_ok.1 hq₀
    obtain ⟨n, hn, hn'⟩ := Command.eval_cost hfree hcost (Obligation.type?_claim.1 (htypes₀ _ ho)).1 rem v
    have hzero : CostModel.freeCalls.callCost.toInt = 0 := rfl
    rw [hzero, Int.zero_mul, Int.add_zero] at hn
    exact ⟨cost, free, n, hcost, hfree, hn, hn'⟩
  · exact unknowns_eq_of_names hq hq' fun x =>
      ⟨exists_formula_names_recharge hq' hq, exists_formula_names_recharge hq hq'⟩
  · obtain ⟨f, hf, e', he', rfl⟩ := (mem_obligations hq').1 ho'
    obtain ⟨e, he, hnames⟩ := Command.cost_recharge he' m
    have ho := (mem_obligations hq).2 ⟨f, hf, e, he, rfl⟩
    exact Obligation.holds_recharge he he' (fun x => (hnames x).symm) (htypes _ ho) hle (hw _ ho)

/-- The countdown calls itself once above zero and never below; its factor is good at a charge below zero, too. -/
theorem query_charge_countdown :
    Countdown.program.query .unitCalls = .ok Countdown.query ∧ Countdown.query.Holds Int.emod (fun _ => 1)
      ∧ (Countdown.function.body.selected Int.emod fun _ => 3).length = 1
      ∧ (Countdown.function.body.selected Int.emod fun _ => 0).length = 0
      ∧ ∃ q', Countdown.program.query ⟨-2⟩ = .ok q' ∧ q'.Holds Int.emod fun _ => 1 := by
  obtain ⟨_, q', hq', _, hholds⟩ := query_charge Countdown.program_query ⟨-2⟩
  exact ⟨Countdown.program_query, Countdown.query_holds, by decide, by decide, q', hq',
    hholds (by decide) _ _ Countdown.query_holds⟩

end Program

end CostBound
