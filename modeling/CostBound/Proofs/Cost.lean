import CostBound.Cost
import CostBound.Proofs.Substitution
import CostBound.Proofs.Typing

/-!
# When a command has a cost, and which

The derivation of costs, read backwards: what it takes for a command to have a cost, case by case.

* `Agree` — two computations with the same outcome, up to a relation between their results.
* `lookup_eq_ok`, `lookup_agree` — a name stands for a function if it is the name of exactly one.
* `cost_call_eq_ok`, `cost_block_eq_ok`, `cost_choose_eq_ok` — the cost of a compound command.
* `costs_eq_ok` — the costs of a program are those of its functions, in order.
* `mem_names_cost` — a cost mentions names of the command and names of bounds only.
-/

namespace CostBound

/-- A list of computations succeeds if each of them does. -/
theorem mapM_eq_ok {ε α β : Type} {f : α → Except ε β} {xs : List α} {ys : List β} :
    xs.mapM f = .ok ys ↔ List.Forall₂ (fun x y => f x = .ok y) xs ys := by
  induction xs generalizing ys with
  | nil =>
      rw [List.mapM_nil]
      constructor
      · intro h
        cases h
        exact .nil
      · intro h
        cases h
        rfl
  | cons x xs ih =>
      rw [List.mapM_cons, except_bind_eq_ok]
      constructor
      · intro h
        obtain ⟨y, hy, h⟩ := h
        obtain ⟨zs, hzs, h⟩ := except_bind_eq_ok.1 h
        cases h
        exact .cons hy (ih.1 hzs)
      · intro h
        cases h with
        | cons hy hys => exact ⟨_, hy, except_bind_eq_ok.2 ⟨_, ih.2 hys, rfl⟩⟩

/-- Both computations fail with the same error, or both succeed, with results that are related. -/
inductive Agree {ε α β : Type} (R : α → β → Prop) : Except ε α → Except ε β → Prop
  | ok {a : α} {b : β} (h : R a b) : Agree R (.ok a) (.ok b)
  | error (e : ε) : Agree R (.error e) (.error e)

namespace Agree

variable {ε α α' β β' γ γ' : Type} {R : α → α' → Prop} {S : β → β' → Prop} {T : γ → γ' → Prop}

theorem bind {x : Except ε α} {x' : Except ε α'} {f : α → Except ε β} {f' : α' → Except ε β'} (h : Agree R x x')
    (hf : ∀ a a', R a a' → Agree S (f a) (f' a')) : Agree S (x >>= f) (x' >>= f') := by
  cases h with
  | ok h => exact hf _ _ h
  | error e => exact .error e

theorem bind₂ {x : Except ε α} {x' : Except ε α'} {y : Except ε β} {y' : Except ε β'} {g : α → β → γ}
    {g' : α' → β' → γ'} (hx : Agree R x x') (hy : Agree S y y')
    (hg : ∀ a a' b b', R a a' → S b b' → T (g a b) (g' a' b')) :
    Agree T (do return g (← x) (← y)) (do return g' (← x') (← y')) :=
  hx.bind fun a a' ha => hy.bind fun b b' hb => .ok (hg a a' b b' ha hb)

theorem mapM {f : α → Except ε β} {f' : α' → Except ε β'} {xs : List α} {xs' : List α'} (h : List.Forall₂ R xs xs')
    (hf : ∀ a a', R a a' → Agree S (f a) (f' a')) : Agree (List.Forall₂ S) (xs.mapM f) (xs'.mapM f') := by
  induction h with
  | nil => exact .ok .nil
  | cons ha _ ih =>
      rw [List.mapM_cons, List.mapM_cons]
      exact (hf _ _ ha).bind₂ ih fun _ _ _ _ => .cons

theorem exists_right {x : Except ε α} {x' : Except ε α'} {a : α} (h : Agree R x x') (hx : x = .ok a) :
    ∃ a', x' = .ok a' ∧ R a a' := by
  subst hx
  cases h with
  | ok h => exact ⟨_, rfl, h⟩

theorem exists_left {x : Except ε α} {x' : Except ε α'} {a' : α'} (h : Agree R x x') (hx : x' = .ok a') :
    ∃ a, x = .ok a ∧ R a a' := by
  subst hx
  cases h with
  | ok h => exact ⟨_, rfl, h⟩

end Agree

namespace Program

theorem lookup_eq_ok {p : Program} {name : String} {f : Function} :
    p.lookup name = .ok f ↔ p.functions.filter (fun g => g.name = name) = [f] := by
  unfold lookup
  generalize p.functions.filter (fun g => g.name = name) = found
  match found with
  | [] => simp
  | [g] => simp
  | g :: g' :: rest => simp

/-- In two programs with corresponding functions a name stands for corresponding functions, if for any. -/
theorem lookup_agree {p p' : Program} {R : Function → Function → Prop}
    (h : List.Forall₂ R p.functions p'.functions) (hname : ∀ f f', R f f' → f'.name = f.name) (name : String) :
    Agree R (p.lookup name) (p'.lookup name) := by
  have hfilter : List.Forall₂ R (p.functions.filter fun g => g.name = name)
      (p'.functions.filter fun g => g.name = name) := by
    refine List.rel_filter ?_ h
    intro g g' hg
    show decide (g.name = name) = true ↔ decide (g'.name = name) = true
    rw [hname g g' hg]
  unfold lookup
  generalize p.functions.filter (fun g => g.name = name) = found at hfilter ⊢
  generalize p'.functions.filter (fun g => g.name = name) = found' at hfilter ⊢
  match hfilter with
  | .nil => exact .error _
  | .cons hR .nil => exact .ok hR
  | .cons _ (.cons _ hrest) =>
      simp only [List.length_cons, hrest.length_eq]
      exact .error _

theorem mem_of_lookup {p : Program} {name : String} {f : Function} (h : p.lookup name = .ok f) :
    f ∈ p.functions ∧ f.name = name := by
  have hf : f ∈ p.functions.filter (fun g => g.name = name) := by
    rw [lookup_eq_ok.1 h]
    exact List.mem_singleton_self f
  simpa using List.mem_filter.1 hf

theorem costs_eq_ok {p : Program} {m : CostModel} {costs : List Expr} :
    p.costs m = .ok costs ↔
      List.Forall₂ (fun f e => f.body.cost p m = .ok e) p.functions costs :=
  mapM_eq_ok

end Program

theorem Function.boundAt_eq_ok {f : Function} {args : List Expr} {e : Expr} :
    f.boundAt args = .ok e ↔
      f.params.length = args.length ∧ e = f.bound.subst (.ofPairs (f.params.zip args)) := by
  unfold boundAt
  split
  · rename_i h
    simp [h, eq_comm]
  · rename_i h
    simp [h]

theorem CostModel.type?_charge {m : CostModel} {b : Expr} :
    (m.charge b).type? = .ok .int ↔ b.type? = .ok .int := by
  have hcall : (Expr.int m.callCost).type? = .ok .int := rfl
  unfold charge
  split
  · rfl
  · rw [Expr.type?_arithmetic rfl rfl]
    simp only [hcall, true_and]

namespace Command

variable {p : Program} {m : CostModel} {e : Expr}

theorem cost_call_eq_ok {callee : String} {args : List Expr} :
    (call callee args).cost p m = .ok e ↔
      ∃ f, p.lookup callee = .ok f ∧ f.params.length = args.length
        ∧ e = m.charge (f.bound.subst (.ofPairs (f.params.zip args))) := by
  simp only [cost, except_bind_eq_ok, Function.boundAt_eq_ok]
  constructor
  · intro h
    obtain ⟨f, hf, b, ⟨hlen, hb⟩, he⟩ := h
    cases he
    exact ⟨f, hf, hlen, by rw [hb]⟩
  · intro h
    obtain ⟨f, hf, hlen, he⟩ := h
    exact ⟨f, hf, _, ⟨hlen, rfl⟩, by rw [he]; rfl⟩

theorem cost_block_eq_ok {a b : Command} :
    (block a b).cost p m = .ok e ↔
      ∃ x y, a.cost p m = .ok x ∧ b.cost p m = .ok y ∧ e = .binary .add x y :=
  bind₂_eq_ok

theorem cost_choose_eq_ok {c : Expr} {a b : Command} :
    (choose c a b).cost p m = .ok e ↔
      ∃ x y, a.cost p m = .ok x ∧ b.cost p m = .ok y ∧ e = .cond c x y :=
  bind₂_eq_ok

/-- The charge for a call mentions no names. -/
theorem mem_names_charge {b : Expr} {x : String} : x ∈ (m.charge b).names ↔ x ∈ b.names := by
  unfold CostModel.charge
  split
  · rfl
  · simp [Expr.names, Expr.int]

/-- **Names of a cost.** They come from the conditions and arguments of the command, or from the bound of a
function that it calls, where they are no parameters. -/
theorem mem_names_cost {c : Command} (h : c.cost p m = .ok e) {x : String} (hx : x ∈ e.names) :
    x ∈ c.names ∨ ∃ g ∈ p.functions, x ∈ g.bound.names ∧ x ∉ g.params := by
  induction c generalizing e with
  | pass =>
      cases h
      simp [Expr.int, Expr.names] at hx
  | call callee args =>
      obtain ⟨g, hg, hlen, rfl⟩ := cost_call_eq_ok.1 h
      rw [mem_names_charge, Expr.mem_names_subst] at hx
      obtain ⟨y, hy, hxy⟩ := hx
      cases hs : Substitution.ofPairs (g.params.zip args) y with
      | none =>
          rw [hs, Option.getD_none, Expr.names, List.mem_singleton] at hxy
          subst hxy
          have hparams := (Substitution.ofPairs_zip_eq_none hlen).1 hs
          exact Or.inr ⟨g, (Program.mem_of_lookup hg).1, hy, hparams⟩
      | some arg =>
          rw [hs, Option.getD_some] at hxy
          have harg := (List.of_mem_zip (Substitution.mem_of_ofPairs hs)).2
          refine Or.inl ?_
          rw [names, Names.mem_unions]
          exact ⟨arg.names, List.mem_map_of_mem harg, hxy⟩
  | block a b iha ihb =>
      obtain ⟨y, z, hy, hz, rfl⟩ := cost_block_eq_ok.1 h
      simp only [Expr.names, Names.mem_union] at hx
      simp only [names, Names.mem_union]
      rcases hx with hx | hx
      · exact (iha hy hx).imp_left Or.inl
      · exact (ihb hz hx).imp_left Or.inr
  | choose c a b iha ihb =>
      obtain ⟨y, z, hy, hz, rfl⟩ := cost_choose_eq_ok.1 h
      simp only [Expr.names, Names.mem_union] at hx
      simp only [names, Names.mem_union]
      rcases hx with hx | hx | hx
      · exact Or.inl (Or.inl hx)
      · exact (iha hy hx).imp_left fun ha => Or.inr (Or.inl ha)
      · exact (ihb hz hx).imp_left fun hb => Or.inr (Or.inr hb)

end Command

end CostBound
