import CostBound.Proofs.Validity

/-!
# Runs of a program and what they cost

A run of a command counts the charges of the calls it makes. Every call starts an activation: a function, the
integers it is called with, and the cost of running its body on them.

* `Command.Runs` — a command runs to its end, with a cost and the activations it starts, directly or not.
* `Activation.Within` — the cost of an activation is at most what its function claims there.
* `Command.Runs.cost_le` — if all activations of a run are within their bounds, the run costs at most the value of
  the derived cost.
* `Activation.within_of_inner` — one activation, given those that it starts.
* `Program.runs_within_bounds` — all activations of a run, by induction on the run.
-/

namespace CostBound

/-- A call of a function and the cost of running its body. -/
structure Activation where
  function : Function
  args : List Int
  cost : Int

/-- Some argument is not positive. -/
def Activation.Degenerate (a : Activation) : Prop := ∃ n ∈ a.args, n ≤ 0

/-- Running a command to its end under a valuation costs `cost` and starts `activations`. -/
inductive Command.Runs (p : Program) (m : CostModel) (rem : Remainder) :
    Valuation → Command → (cost : Int) → (activations : List Activation) → Prop
  | pass {v : Valuation} : Runs p m rem v .pass 0 []
  | block {v : Valuation} {a b : Command} {x y : Int} {s t : List Activation}
      (ha : Runs p m rem v a x s) (hb : Runs p m rem v b y t) :
      Runs p m rem v (.block a b) (x + y) (s ++ t)
  | yes {v : Valuation} {c : Expr} {a b : Command} {x : Int} {s : List Activation}
      (hc : c.eval rem v = some (.bool true)) (ha : Runs p m rem v a x s) :
      Runs p m rem v (.choose c a b) x s
  | no {v : Valuation} {c : Expr} {a b : Command} {x : Int} {s : List Activation}
      (hc : c.eval rem v = some (.bool false)) (hb : Runs p m rem v b x s) :
      Runs p m rem v (.choose c a b) x s
  | call {v v' : Valuation} {callee : String} {args : List Expr} {vals : List Int} {f : Function}
      {x : Int} {s : List Activation} (hf : p.lookup callee = .ok f)
      (hargs : args.map (·.eval rem v) = vals.map fun n => some (.int n))
      (hparams : f.params.map v' = vals) (hbody : Runs p m rem v' f.body x s) :
      Runs p m rem v (.call callee args) (m.callCost.toInt + x) (⟨f, vals, x⟩ :: s)

namespace Activation

/-- The body runs on the arguments, at this cost, and starts `inner`. -/
def Runs (p : Program) (m : CostModel) (rem : Remainder) (a : Activation)
    (inner : List Activation) : Prop :=
  ∃ v : Valuation, a.function.params.map v = a.args
    ∧ a.function.body.Runs p m rem v a.cost inner

/-- The cost is at most the bound at the arguments, where the unknowns of `q` have their values in `w` and the other
names of the bound have any. -/
def Within (q : Query) (rem : Remainder) (w : Valuation) (a : Activation) : Prop :=
  ∀ v : Valuation, a.function.params.map v = a.args → (∀ u ∈ q.unknowns, v u.name = w u.name) →
    ∃ b, a.function.bound.eval rem v = some (.int b) ∧ a.cost ≤ b

end Activation

section

variable {p : Program} {m : CostModel} {rem : Remainder} {q : Query} {w : Valuation}

/-- The argument that a call puts for a parameter has the value that the callee runs with. -/
theorem eval_argument {params : List String} {args : List Expr} {v v' : Valuation}
    (h : args.map (·.eval rem v) = (params.map v').map fun n => some (.int n)) {x : String}
    (hx : x ∈ params) :
    ∃ arg ∈ args, Substitution.ofPairs (params.zip args) x = some arg
      ∧ arg.eval rem v = some (.int (v' x)) := by
  have hlen : params.length = args.length := by
    have hl := congrArg List.length h
    simpa using hl.symm
  cases hs : Substitution.ofPairs (params.zip args) x with
  | none => exact absurd hx ((Substitution.ofPairs_zip_eq_none hlen).1 hs)
  | some arg =>
      have hmem := Substitution.mem_of_ofPairs hs
      refine ⟨arg, (List.of_mem_zip hmem).2, rfl, ?_⟩
      obtain ⟨i, hi, hpair⟩ := List.getElem_of_mem hmem
      rw [List.getElem_zip] at hpair
      cases hpair
      have hi' : i < args.length := by
        rw [List.length_zip] at hi
        omega
      have hget := congrArg (fun l => l[i]?) h
      simpa [hi', hlen ▸ hi'] using hget

/-- At a call, the callee's bound is evaluated under the callee's parameters and, for all other names, under the
caller's valuation. -/
theorem eval_bound_of_call {f : Function} {callee : String} {args : List Expr} {v v' v₁ v₂ : Valuation}
    (hlen : f.params.length = args.length)
    (hargs : args.map (·.eval rem v) = (f.params.map v').map fun n => some (.int n))
    (hv : ∀ y ∈ (Command.call callee args).names, v₁ y = v y) (hin : ∀ y ∈ f.params, v₂ y = v' y)
    (hout : ∀ y, y ∉ f.params → v₂ y = v₁ y) :
    (f.bound.subst (.ofPairs (f.params.zip args))).eval rem v₁ = f.bound.eval rem v₂ := by
  refine Expr.eval_subst ?_
  intro y _
  by_cases hy : y ∈ f.params
  · obtain ⟨arg, harg, hsub, heval⟩ := eval_argument hargs hy
    rw [hsub, Option.getD_some, hin y hy, ← heval]
    refine Expr.eval_congr ?_
    intro z hz
    refine hv z ?_
    rw [Command.names, Names.mem_unions]
    exact ⟨arg.names, List.mem_map_of_mem harg, hz⟩
  · rw [(Substitution.ofPairs_zip_eq_none hlen).2 hy, Option.getD_none, hout y hy]
    rfl

/-- **One run against its derived cost.** If the activations of a run are within their bounds, the run costs at most
the value of the derived cost, under every valuation that has the same names of the command and the chosen
unknowns. -/
theorem Command.Runs.cost_le (hunknown : ∀ f ∈ p.functions, ∀ u ∈ q.unknowns, u.name ∉ f.params)
    {v : Valuation} {c : Command} {x : Int} {s : List Activation} (hr : c.Runs p m rem v x s)
    (hs : ∀ a ∈ s, a.Within q rem w) {v₁ : Valuation} (hv : ∀ y ∈ c.names, v₁ y = v y)
    (hw : ∀ u ∈ q.unknowns, v₁ u.name = w u.name) {e : Expr} (he : c.cost p m = .ok e) :
    ∃ n, e.eval rem v₁ = some (.int n) ∧ x ≤ n := by
  induction hr generalizing e with
  | pass =>
      cases he
      exact ⟨0, rfl, le_refl 0⟩
  | block _ _ iha ihb =>
      obtain ⟨ea, eb, hea, heb, rfl⟩ := cost_block_eq_ok.1 he
      simp only [names, Names.mem_union] at hv
      obtain ⟨na, hna, hxa⟩ := iha (fun a h => hs a (List.mem_append_left _ h))
        (fun y hy => hv y (Or.inl hy)) hea
      obtain ⟨nb, hnb, hxb⟩ := ihb (fun a h => hs a (List.mem_append_right _ h))
        (fun y hy => hv y (Or.inr hy)) heb
      refine ⟨na + nb, ?_, Int.add_le_add hxa hxb⟩
      simp only [Expr.eval, hna, hnb, Option.bind_some, BinaryOp.apply]
  | yes hc _ iha =>
      obtain ⟨ea, eb, hea, heb, rfl⟩ := cost_choose_eq_ok.1 he
      simp only [names, Names.mem_union] at hv
      obtain ⟨n, hn, hx⟩ := iha hs (fun y hy => hv y (Or.inr (Or.inl hy))) hea
      refine ⟨n, ?_, hx⟩
      rw [← Expr.eval_congr fun y hy => hv y (Or.inl hy)] at hc
      simp only [Expr.eval, hc, hn]
  | no hc _ ihb =>
      obtain ⟨ea, eb, hea, heb, rfl⟩ := cost_choose_eq_ok.1 he
      simp only [names, Names.mem_union] at hv
      obtain ⟨n, hn, hx⟩ := ihb hs (fun y hy => hv y (Or.inr (Or.inr hy))) heb
      refine ⟨n, ?_, hx⟩
      rw [← Expr.eval_congr fun y hy => hv y (Or.inl hy)] at hc
      simp only [Expr.eval, hc, hn]
  | @call v v' callee args vals f x s hf hargs hparams _ _ =>
      obtain ⟨g, hg, hlen, rfl⟩ := cost_call_eq_ok.1 he
      rw [hf] at hg
      cases hg
      subst hparams
      -- the callee's parameters have its own values, every other name the caller's
      let v₂ : Valuation := fun y => if y ∈ f.params then v' y else v₁ y
      have hin : ∀ y ∈ f.params, v₂ y = v' y := fun y hy => if_pos hy
      have hout : ∀ y, y ∉ f.params → v₂ y = v₁ y := fun y hy => if_neg hy
      obtain ⟨b, hb, hxb⟩ := hs _ List.mem_cons_self v₂ (List.map_congr_left hin) (by
        intro u hu
        rw [hout u.name (hunknown f (Program.mem_of_lookup hf).1 u hu)]
        exact hw u hu)
      refine ⟨m.callCost.toInt + b, CostModel.eval_charge ?_, Int.add_le_add_left hxb _⟩
      rw [eval_bound_of_call hlen hargs hv hin hout]
      exact hb

/-- **One activation.** It is within its bound if those that it starts are, and if it is in case it is degenerate. -/
theorem Activation.within_of_inner (hq : p.query m = .ok q) (hw : q.Holds rem w)
    (hunknown : ∀ f ∈ p.functions, ∀ u ∈ q.unknowns, u.name ∉ f.params) {a : Activation}
    (ha : a.function ∈ p.functions) {inner : List Activation} (hr : a.Runs p m rem inner)
    (hbase : ∀ b ∈ a :: inner, b.Degenerate → b.Within q rem w)
    (hinner : ∀ b ∈ inner, b.Within q rem w) : ∀ b ∈ a :: inner, b.Within q rem w := by
  intro b hb
  rcases List.mem_cons.1 hb with rfl | hb
  · -- the obligation speaks of positive parameters only
    by_cases hd : b.Degenerate
    · exact hbase b hb hd
    · obtain ⟨v, hv, hbody⟩ := hr
      intro v₁ hv₁ hu
      have hsame : ∀ x ∈ b.function.params, v₁ x = v x := by
        have hmap : b.function.params.map v₁ = b.function.params.map v := by rw [hv₁, hv]
        exact List.map_inj_left.1 hmap
      have hpos : ∀ x ∈ b.function.params, 0 < v₁ x := by
        intro x hx
        by_contra hle
        refine hd ⟨v₁ x, ?_, not_lt.1 hle⟩
        rw [← hv₁]
        exact List.mem_map_of_mem hx
      obtain ⟨e, n, bound, he, hn, hbound, hle⟩ := Program.cost_le_bound hq hw ha hu hpos
      obtain ⟨n', hn', hcost⟩ := hbody.cost_le hunknown hinner
        (fun y hy => hsame y (b.function.closed y hy)) hu he
      rw [hn] at hn'
      cases hn'
      exact ⟨bound, hbound, le_trans hcost hle⟩
  · exact hinner b hb

/-- All activations of a run are within their bounds if the degenerate ones are. -/
theorem Command.Runs.within (hq : p.query m = .ok q) (hw : q.Holds rem w)
    (hunknown : ∀ f ∈ p.functions, ∀ u ∈ q.unknowns, u.name ∉ f.params) {v : Valuation}
    {c : Command} {x : Int} {s : List Activation} (hr : c.Runs p m rem v x s)
    (hbase : ∀ a ∈ s, a.Degenerate → a.Within q rem w) : ∀ a ∈ s, a.Within q rem w := by
  -- by induction on the run: what a call starts lies inside its own body's run
  induction hr with
  | pass =>
      intro a ha
      cases ha
  | block _ _ iha ihb =>
      intro a ha
      rcases List.mem_append.1 ha with h | h
      · exact iha (fun b hb => hbase b (List.mem_append_left _ hb)) a h
      · exact ihb (fun b hb => hbase b (List.mem_append_right _ hb)) a h
  | yes _ _ iha => exact iha hbase
  | no _ _ ihb => exact ihb hbase
  | @call v v' callee args vals f x s hf _ hparams hbody ih =>
      have hinner := ih fun b hb => hbase b (List.mem_cons_of_mem _ hb)
      exact Activation.within_of_inner hq hw hunknown (Program.mem_of_lookup hf).1
        ⟨v', hparams, hbody⟩ hbase hinner

/-- **Conditional soundness.** Let a choice of the unknowns, none of which is a parameter, make every obligation of a
program true. In a run of one of its functions, let the degenerate activations cost at most what their functions
claim. Then so do all activations of the run, the outermost one included. -/
theorem Program.runs_within_bounds (hq : p.query m = .ok q)
    (hunknown : ∀ f ∈ p.functions, ∀ u ∈ q.unknowns, u.name ∉ f.params) (hw : q.Holds rem w)
    {a : Activation} (ha : a.function ∈ p.functions) {inner : List Activation}
    (hr : a.Runs p m rem inner)
    (hbase : ∀ b ∈ a :: inner, b.Degenerate → b.Within q rem w) :
    ∀ b ∈ a :: inner, b.Within q rem w := by
  obtain ⟨v, hv, hbody⟩ := hr
  have hinner := hbody.within hq hw hunknown fun b hb => hbase b (List.mem_cons_of_mem _ hb)
  exact Activation.within_of_inner hq hw hunknown ha ⟨v, hv, hbody⟩ hbase hinner

end

/-! ### A countdown with an unknown factor -/

namespace Countdown

/-- Calls itself with one less until nothing is left, and claims a multiple of its argument. -/
def function : Function :=
  ⟨"f", ["n"],
    .choose (.binary .le (.var "n") (.int 0)) .pass
      (.call "f" [.binary .sub (.var "n") (.int 1)]),
    .binary .mul (.var "c0__1") (.var "n"), by decide⟩

def program : Program := ⟨[function]⟩

def cost : Expr :=
  .cond (.binary .le (.var "n") (.int 0)) (.int 0)
    (.binary .add (.int 1)
      (.binary .mul (.var "c0__1") (.binary .sub (.var "n") (.int 1))))

def query : Query := ⟨[⟨"c0__1", .scale⟩], [.ofFunction function cost]⟩

theorem program_query : program.query .unitCalls = .ok query := rfl

theorem cost_eval (v : Valuation) (hfactor : v "c0__1" = 1) :
    cost.eval Int.emod v = some (.int (if v "n" ≤ 0 then 0 else v "n")) := by
  have h0 : (0 : Int64).toInt = 0 := rfl
  have h1 : (1 : Int64).toInt = 1 := rfl
  by_cases hn : v "n" ≤ 0
  · simp [cost, Expr.eval, Expr.int, BinaryOp.apply, hn, h0]
  · have hsum : 1 + (v "n" - 1) = v "n" := by omega
    simp [cost, Expr.eval, Expr.int, BinaryOp.apply, hn, h0, h1, hfactor, hsum]

/-- The factor one makes the obligation true. -/
theorem query_holds : query.Holds Int.emod fun _ => 1 := by
  intro o ho v hv
  cases List.mem_singleton.1 ho
  have hfactor : v "c0__1" = 1 := hv _ (by decide)
  have hbound : function.bound.eval Int.emod v = some (.int (v "n")) := by
    simp [function, Expr.eval, BinaryOp.apply, hfactor]
  rw [Obligation.ofFunction_formula, Obligation.eval_claim (cost_eval v hfactor) hbound]
  by_cases hn : v "n" ≤ 0
  · simp [function, hn]
  · simp [function, hn]

/-- One call more than counting down from `n`. -/
theorem runs_succ {n x : Int} (hn : 0 ≤ n) {s : List Activation}
    (h : function.body.Runs program .unitCalls Int.emod (fun _ => n) x s) :
    function.body.Runs program .unitCalls Int.emod (fun _ => n + 1) (1 + x)
      (⟨function, [n], x⟩ :: s) := by
  have h0 : (0 : Int64).toInt = 0 := rfl
  have h1 : (1 : Int64).toInt = 1 := rfl
  refine .no ?_ (.call rfl ?_ rfl h)
  · have hpos : ¬ n + 1 ≤ 0 := by omega
    simp [Expr.eval, Expr.int, BinaryOp.apply, h0, hpos]
  · simp [Expr.eval, Expr.int, BinaryOp.apply, h1]

/-- Counting down from two, with all activations inside. -/
theorem runs_two : Activation.Runs program .unitCalls Int.emod ⟨function, [2], 2⟩
    [⟨function, [1], 1⟩, ⟨function, [0], 0⟩] := by
  have h0 : function.body.Runs program .unitCalls Int.emod (fun _ => 0) 0 [] := .yes rfl .pass
  have h1 := runs_succ (le_refl 0) h0
  have h2 := runs_succ (n := 1) (by decide) h1
  exact ⟨fun _ => 2, rfl, h2⟩

/-- The last activation is the only degenerate one, and it costs nothing. -/
theorem degenerate_within {b : Activation} (hb : b ∈ [⟨function, [2], 2⟩, ⟨function, [1], 1⟩, ⟨function, [0], 0⟩])
    (hd : b.Degenerate) : b.Within query Int.emod fun _ => 1 := by
  simp only [List.mem_cons, List.not_mem_nil, or_false] at hb
  rcases hb with rfl | rfl | rfl
  · simp [Activation.Degenerate] at hd
  · simp [Activation.Degenerate] at hd
  · intro v hv hu
    have hfactor : v "c0__1" = 1 := hu _ List.mem_cons_self
    have hbound : function.bound.eval Int.emod v = some (.int (v "n")) := by
      simp [function, Expr.eval, BinaryOp.apply, hfactor]
    have hn : v "n" = 0 := by simpa [function] using hv
    exact ⟨v "n", hbound, le_of_eq hn.symm⟩

end Countdown

/-- The countdown from two, whose last activation has no positive argument, stays within its bound. -/
theorem Program.runs_within_bounds_countdown :
    Countdown.program.query .unitCalls = .ok Countdown.query ∧ Countdown.query.Holds Int.emod (fun _ => 1)
      ∧ Activation.Runs Countdown.program .unitCalls Int.emod ⟨Countdown.function, [2], 2⟩
          [⟨Countdown.function, [1], 1⟩, ⟨Countdown.function, [0], 0⟩]
      ∧ Activation.Within Countdown.query Int.emod (fun _ => 1) ⟨Countdown.function, [2], 2⟩ := by
  refine ⟨Countdown.program_query, Countdown.query_holds, Countdown.runs_two, ?_⟩
  exact Program.runs_within_bounds Countdown.program_query (by decide) Countdown.query_holds List.mem_cons_self
    Countdown.runs_two (fun b hb hd => Countdown.degenerate_within hb hd) _ List.mem_cons_self

end CostBound
