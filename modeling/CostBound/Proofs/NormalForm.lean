import CostBound.Proofs.Cost
import CostBound.Proofs.Evaluation
import CostBound.Proofs.RoundTrip

/-!
# What the normal form keeps

A text is read as the normal form of what was printed. Negative literals and the nesting of blocks may change on the
way, values and costs do not.

* `Expr.integers`, `Expr.normal_eq_self_iff` — an expression is its own normal form if no literal is negative.
* `Expr.text_reads_back` — what the text of an expression is read as.
* `Expr.SameValue` — two expressions with the same value under every valuation.
* `Expr.SameValue.subst_normal` — replacing variables in the normal form, by replacements with the same values.
* `Command.cost_seq_append` — the nesting of blocks does not change the value of their cost.
* `Program.cost_normal`, `Program.costs_normal` — the costs of the normal form.
* `Program.text_reads_normal` — what the text of a program is read as, and what that costs.
-/

namespace CostBound

/-! ### Expressions that are read back -/

namespace Expr

/-- The integer literals of an expression. -/
def integers : Expr → List Int64
  | var _ => []
  | lit (.int n) => [n]
  | lit (.bool _) => []
  | unary _ e => e.integers
  | binary _ l r => l.integers ++ r.integers
  | cond c t e => c.integers ++ (t.integers ++ e.integers)

theorem normal_eq_self_iff {e : Expr} : e.normal = e ↔ ∀ n ∈ e.integers, ¬ n < 0 := by
  induction e with
  | var name => exact iff_of_true rfl (List.forall_mem_nil _)
  | lit l =>
      cases l with
      | int n =>
          rw [integers, List.forall_mem_singleton, normal]
          split
          · rename_i hn
            exact iff_of_false (fun h => by cases h) (fun h => h hn)
          · rename_i hn
            exact iff_of_true rfl hn
      | bool b => exact iff_of_true rfl (List.forall_mem_nil _)
  | unary op e ih => rw [normal, integers, unary.injEq, ih, eq_self_iff_true, true_and]
  | binary op l r ihl ihr =>
      rw [normal, integers, binary.injEq, ihl, ihr, List.forall_mem_append, eq_self_iff_true, true_and]
  | cond c t e ihc iht ihe =>
      rw [normal, integers, cond.injEq, ihc, iht, ihe, List.forall_mem_append, List.forall_mem_append]

/-- **Printing is inverted by reading.** The text of an expression is read as its normal form: negative literals become
negations, and nothing else changes. So the expression itself is read back exactly if no literal is negative. -/
theorem text_reads_back {e : Expr} (h : e.Printable) :
    ofSource e.text = .ok e.normal ∧ (ofSource e.text = .ok e ↔ ∀ n ∈ e.integers, ¬ n < 0) := by
  have hread := ofSource_text h
  refine ⟨hread, ?_⟩
  rw [hread, Except.ok.injEq, normal_eq_self_iff]

/-- Comparisons of comparisons, a difference to the right of a difference, and negative literals below both unary
operators. -/
def signed : Expr :=
  .binary .eq (.binary .lt (.unary .neg (.int (-3))) (.var "x"))
    (.unary .not (.binary .le (.binary .sub (.var "y") (.binary .sub (.int (-1)) (.int 2))) (.int 0)))

theorem text_reads_back_signed :
    signed.Printable ∧ signed.text = "(--3 < x) == (not y - (-1 - 2) <= 0)" ∧ ofSource signed.text = .ok signed.normal
      ∧ ofSource signed.text ≠ .ok signed := by
  have hprintable : signed.Printable := by decide +kernel
  have hread := text_reads_back hprintable
  exact ⟨hprintable, by decide +kernel, hread.1, fun h => hread.2.1 h (-3) (by decide) (by decide)⟩

/-! ### Expressions with the same value -/

end Expr

/-- A sum of three has a value if all three are integers, however they are grouped. -/
theorem BinaryOp.apply_add_assoc (rem : Remainder) (x y z : Value) :
    (add.apply rem x y).bind (fun w => add.apply rem w z) = (add.apply rem y z).bind fun w => add.apply rem x w := by
  cases x with
  | bool b =>
      cases y with
      | bool b' => rfl
      | int k => cases z <;> rfl
  | int n =>
      cases y with
      | bool b => rfl
      | int k =>
          cases z with
          | bool b => rfl
          | int l => exact congrArg (fun s => some (Value.int s)) (Int.add_assoc n k l)

namespace Expr

/-- The two have the same value under every valuation, or both have none. -/
def SameValue (e e' : Expr) : Prop := ∀ rem v, e.eval rem v = e'.eval rem v

namespace SameValue

variable {e e' l l' r r' c c' t t' : Expr}

theorem refl (e : Expr) : e.SameValue e := fun _ _ => rfl

theorem trans {e'' : Expr} (h : e.SameValue e') (h' : e'.SameValue e'') : e.SameValue e'' :=
  fun rem v => (h rem v).trans (h' rem v)

theorem unary (op : UnaryOp) (h : e.SameValue e') : (unary op e).SameValue (unary op e') := by
  intro rem v
  simp only [eval, h rem v]

theorem binary (op : BinaryOp) (hl : l.SameValue l') (hr : r.SameValue r') :
    (binary op l r).SameValue (binary op l' r') := by
  intro rem v
  simp only [eval, hl rem v, hr rem v]

theorem cond (hc : c.SameValue c') (ht : t.SameValue t') (he : e.SameValue e') :
    (cond c t e).SameValue (cond c' t' e') := by
  intro rem v
  simp only [eval, hc rem v, ht rem v, he rem v]

theorem add_assoc (a b c : Expr) :
    (Expr.binary .add (.binary .add a b) c).SameValue (.binary .add a (.binary .add b c)) := by
  intro rem v
  simp only [eval]
  cases a.eval rem v with
  | none => rfl
  | some x =>
      cases b.eval rem v with
      | none => rfl
      | some y =>
          cases c.eval rem v with
          | none => exact Option.bind_fun_none _
          | some z => exact BinaryOp.apply_add_assoc rem x y z

theorem neg_literal {n : Int64} (h : n ≠ Int64.minValue) (hn : n < 0) :
    (int n).SameValue (Expr.unary .neg (int (-n))) := by
  intro rem v
  obtain ⟨hbound, heq⟩ := ofNat_natAbs_neg hn h
  rw [Int64.lt_iff_toInt_lt, toInt_zero] at hn
  have hneg : n.toInt = -(-n).toInt := by
    rw [← heq, Int64.toInt_ofNat_of_lt hbound]
    omega
  show some (Value.int n.toInt) = some (Value.int (-(-n).toInt))
  rw [← hneg]

end SameValue

/-- **Substitution into the normal form.** Replacements with the same values keep the value. The replacements are
related and not only the expressions: an expression of the wrong type may stand in for a variable. -/
theorem SameValue.subst_normal {e : Expr} (h : e.Printable) {s s' : Substitution}
    (hs : ∀ x, ((s x).getD (var x)).SameValue ((s' x).getD (var x))) :
    (e.subst s).SameValue (e.normal.subst s') := by
  induction e with
  | var x => exact hs x
  | lit l =>
      cases l with
      | int n =>
          rw [normal]
          split
          · rename_i hn
            exact neg_literal h hn
          · exact refl _
      | bool b => exact refl _
  | unary op e ih => exact unary op (ih h)
  | binary op l r ihl ihr => exact binary op (ihl h.1) (ihr h.2)
  | cond c t e => exact h.elim

theorem sameValue_normal {e : Expr} (h : e.Printable) : e.SameValue e.normal := by
  have hempty : (e.subst fun _ => none).SameValue (e.normal.subst fun _ => none) :=
    .subst_normal h fun x => .refl (var x)
  rw [subst_eq_self fun _ _ => rfl, subst_eq_self fun _ _ => rfl] at hempty
  exact hempty

end Expr

/-! ### Costs -/

theorem Agree.sameValue_trans {ε : Type} {x y z : Except ε Expr} (hxy : Agree Expr.SameValue x y)
    (hyz : Agree Expr.SameValue y z) : Agree Expr.SameValue x z := by
  cases hxy with
  | ok h =>
      cases hyz with
      | ok h' => exact .ok (h.trans h')
  | error e => exact hyz

theorem Agree.sameValue_refl {ε : Type} (x : Except ε Expr) : Agree Expr.SameValue x x := by
  cases x with
  | ok e => exact .ok (.refl e)
  | error e => exact .error e

theorem CostModel.sameValue_charge (m : CostModel) {b b' : Expr} (h : b.SameValue b') :
    (m.charge b).SameValue (m.charge b') := by
  unfold charge
  split
  · exact h
  · exact .binary .add (.refl _) h

/-- What a function claims at some arguments, and its normal form at their normal forms. -/
theorem Function.boundAt_normal {f : Function} (hf : f.bound.Printable) {args : List Expr}
    (hargs : ∀ e ∈ args, e.Printable) :
    Agree Expr.SameValue (f.boundAt args) (f.normal.boundAt (args.map Expr.normal)) := by
  have hreplace : ∀ x, ((Substitution.ofPairs (f.params.zip args) x).getD (.var x)).SameValue
      ((Substitution.ofPairs (f.params.zip (args.map Expr.normal)) x).getD (.var x)) := by
    intro x
    rw [Substitution.ofPairs_zip_map]
    cases hx : Substitution.ofPairs (f.params.zip args) x with
    | none => exact .refl _
    | some e => exact Expr.sameValue_normal (hargs e (List.of_mem_zip (Substitution.mem_of_ofPairs hx)).2)
  unfold boundAt
  rw [List.length_map]
  show Agree _ _ (if f.params.length = args.length then _ else _)
  split
  · exact .ok (.subst_normal hf hreplace)
  · exact .error _

namespace Command

variable {p p' : Program} {m : CostModel}

theorem cost_block_agree {a a' b b' : Command} (ha : Agree Expr.SameValue (a.cost p m) (a'.cost p' m))
    (hb : Agree Expr.SameValue (b.cost p m) (b'.cost p' m)) :
    Agree Expr.SameValue ((block a b).cost p m) ((block a' b').cost p' m) :=
  ha.bind₂ hb fun _ _ _ _ => .binary .add

theorem cost_block_assoc (a b c : Command) :
    Agree Expr.SameValue ((block (block a b) c).cost p m) ((block a (block b c)).cost p m) := by
  simp only [cost]
  cases a.cost p m with
  | error e => exact .error e
  | ok x =>
      cases b.cost p m with
      | error e => exact .error e
      | ok y =>
          cases c.cost p m with
          | error e => exact .error e
          | ok z => exact .ok (.add_assoc x y z)

/-- **Two sequences in turn** cost as much as the commands of both in one. -/
theorem cost_seq_append {xs ys : List Command} (hx : xs ≠ []) (hy : ys ≠ []) :
    Agree Expr.SameValue ((block (seq xs) (seq ys)).cost p m) ((seq (xs ++ ys)).cost p m) := by
  induction xs using seq.induct with
  | case1 => exact absurd rfl hx
  | case2 c =>
      rw [List.singleton_append, seq.eq_3 c ys hy]
      exact .sameValue_refl _
  | case3 c cs hne ih =>
      have hne' : cs ++ ys ≠ [] := List.append_ne_nil_of_right_ne_nil cs hy
      rw [List.cons_append, seq.eq_3 c cs hne, seq.eq_3 c (cs ++ ys) hne']
      exact (cost_block_assoc c (seq cs) (seq ys)).sameValue_trans (cost_block_agree (.sameValue_refl _) (ih hne))

theorem statements_ne_nil (c : Command) : c.statements ≠ [] := by
  induction c with
  | pass => exact List.cons_ne_nil _ _
  | call callee args => exact List.cons_ne_nil _ _
  | block a b iha _ => exact List.append_ne_nil_of_left_ne_nil iha _
  | choose test yes no => exact List.cons_ne_nil _ _

end Command

namespace Program

variable {p : Program}

theorem forall₂_normal (p : Program) :
    List.Forall₂ (fun f f' => f ∈ p.functions ∧ f' = f.normal) p.functions p.normal.functions := by
  show List.Forall₂ _ p.functions (p.functions.map Function.normal)
  rw [List.forall₂_map_right_iff]
  exact List.forall₂_same.2 fun f hf => ⟨hf, rfl⟩

section

variable (h : ∀ f ∈ p.functions, f.Printable) (m : CostModel)

include h

/-- **Cost of the normal form.** In the program of normal forms it has the same value. -/
theorem cost_normal {c : Command} (hc : c.Printable) :
    Agree Expr.SameValue (c.cost p m) (c.normal.cost p.normal m) := by
  induction c with
  | pass => exact .sameValue_refl _
  | call callee args =>
      have hlookup := lookup_agree p.forall₂_normal (by rintro f _ ⟨-, rfl⟩; rfl) callee
      refine hlookup.bind ?_
      rintro f _ ⟨hf, rfl⟩
      exact (Function.boundAt_normal (h f hf).bound hc.2).bind fun b b' hb => .ok (m.sameValue_charge hb)
  | block a b iha ihb =>
      exact (Command.cost_block_agree (iha hc.1) (ihb hc.2)).sameValue_trans
        (Command.cost_seq_append a.statements_ne_nil b.statements_ne_nil)
  | choose test yes no ihyes ihno =>
      exact (ihyes hc.2.1).bind₂ (ihno hc.2.2) fun _ _ _ _ => .cond (Expr.sameValue_normal hc.1)

theorem costs_normal : Agree (List.Forall₂ Expr.SameValue) (p.costs m) (p.normal.costs m) := by
  refine Agree.mapM p.forall₂_normal ?_
  rintro f _ ⟨hf, rfl⟩
  exact cost_normal h m (h f hf).body

end

/-- **Printing normalises.** The text of a program is read as its normal form. For every cost model the normal form has
costs if the program does, and then function by function the two costs have the same value under every valuation. -/
theorem text_reads_normal (h : ∀ f ∈ p.functions, f.Printable) :
    ofSource p.text = .ok p.normal
      ∧ ∀ m, ((∃ costs', p.normal.costs m = .ok costs') ↔ ∃ costs, p.costs m = .ok costs)
        ∧ ∀ costs costs', p.costs m = .ok costs → p.normal.costs m = .ok costs' →
            List.Forall₂ (fun e e' => ∀ rem v, e.eval rem v = e'.eval rem v) costs costs' := by
  refine ⟨ofSource_text h, fun m => ⟨⟨?_, ?_⟩, ?_⟩⟩
  · rintro ⟨costs', hcosts'⟩
    obtain ⟨costs, hcosts, -⟩ := (costs_normal h m).exists_left hcosts'
    exact ⟨costs, hcosts⟩
  · rintro ⟨costs, hcosts⟩
    obtain ⟨costs', hcosts', -⟩ := (costs_normal h m).exists_right hcosts
    exact ⟨costs', hcosts'⟩
  · intro costs costs' hcosts hcosts'
    obtain ⟨costs'', hcosts'', hsame⟩ := (costs_normal h m).exists_right hcosts
    cases hcosts'.symm.trans hcosts''
    exact hsame

/-- Blocks nested to the left, in a body and in a branch, and negative literals in arguments, conditions and bounds. -/
def nested : Program :=
  ⟨[⟨"step", ["i"],
      .block (.block .pass (.call "step" [.int (-2)])) (.call "walk" [.var "i", .int 0]),
      .binary .mul (.int (-3)) (.var "i"), by decide⟩,
    ⟨"walk", ["a", "b"],
      .choose (.binary .lt (.var "a") (.int (-1))) .pass
        (.block (.block (.call "step" [.var "b"]) .pass) (.call "step" [.unary .neg (.int (-5))])),
      .binary .sub (.var "a") (.var "b"), by decide⟩]⟩

theorem text_reads_normal_nested :
    (∀ f ∈ nested.functions, f.Printable)
      ∧ nested.normal.functions.map (·.body)
          = [.block .pass (.block (.call "step" [.unary .neg (.int 2)]) (.call "walk" [.var "i", .int 0])),
            .choose (.binary .lt (.var "a") (.unary .neg (.int 1))) .pass
              (.block (.call "step" [.var "b"])
                (.block .pass (.call "step" [.unary .neg (.unary .neg (.int 5))])))]
      ∧ ofSource nested.text = .ok nested.normal
      ∧ ∃ costs costs', nested.costs .unitCalls = .ok costs ∧ nested.normal.costs .unitCalls = .ok costs'
        ∧ costs ≠ costs'
        ∧ List.Forall₂ (fun e e' => ∀ rem v, e.eval rem v = e'.eval rem v) costs costs' := by
  have hprintable : ∀ f ∈ nested.functions, f.Printable := by decide +kernel
  obtain ⟨hread, hcosts⟩ := text_reads_normal hprintable
  exact ⟨hprintable, by decide +kernel, hread, _, _, rfl, rfl, by decide +kernel, (hcosts .unitCalls).2 _ _ rfl rfl⟩

end Program

end CostBound
