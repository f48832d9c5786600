import CostBound.Proofs.Query

/-!
# Constants in the place of unknowns

A solver answers with an integer for each unknown. Writing these integers into the bounds of a program gives the
same query as writing them into the program's query.

* `Query.choice` — the integers, as a substitution for the unknowns.
* `Expr.subst_comm` — two substitutions commute if neither acts on what the other puts in.
* `Command.cost_subst` — the cost of a command, when the bounds of the program change.
* `Program.query_choice` — the query of the program without unknowns.
-/

namespace CostBound

/-- The constants that `w` chooses for the unknowns. -/
def Query.choice (q : Query) (w : String → Int64) : Substitution :=
  fun x => if x ∈ q.unknowns.map (·.name) then some (.int (w x)) else none

/-- The obligation with cost, bound and formula after a replacement. -/
def Obligation.subst (s : Substitution) (o : Obligation) : Obligation :=
  { o with cost := o.cost.subst s, bound := o.bound.subst s, formula := o.formula.subst s }

theorem Query.choice_eq_none {q : Query} {w : String → Int64} {x : String} :
    q.choice w x = none ↔ ∀ u ∈ q.unknowns, u.name ≠ x := by
  unfold Query.choice
  split
  · rename_i hx
    obtain ⟨u, hu, rfl⟩ := List.mem_map.1 hx
    exact iff_of_false (Option.some_ne_none _) fun h => h u hu rfl
  · rename_i hx
    exact iff_of_true rfl fun u hu hux => hx (List.mem_map.2 ⟨u, hu, hux⟩)

/-- Puts integers for some names. -/
def Substitution.Constant (s : Substitution) : Prop := ∀ x e, s x = some e → ∃ n, e = .int n

theorem Query.choice_constant (q : Query) (w : String → Int64) : (q.choice w).Constant := by
  intro x e h
  unfold Query.choice at h
  split at h
  · exact ⟨w x, (Option.some.inj h).symm⟩
  · cases h

/-! ### Two substitutions -/

namespace Expr

/-- **Commuting substitutions.** Neither replaces a name that the other replaces or puts in. -/
theorem subst_comm {s t : Substitution} (e : Expr)
    (hs : ∀ x a, s x = some a → t x = none ∧ a.subst t = a)
    (ht : ∀ x a, t x = some a → s x = none ∧ a.subst s = a) :
    (e.subst s).subst t = (e.subst t).subst s := by
  rw [subst_subst, subst_subst, subst_eq_subst_iff]
  intro x _
  show ((s x).getD (var x)).subst t = ((t x).getD (var x)).subst s
  cases hx : s x with
  | some a =>
      obtain ⟨hnone, ha⟩ := hs x a hx
      rw [Option.getD_some, ha, hnone]
      show a = (s x).getD (var x)
      rw [hx]
      rfl
  | none =>
      show (t x).getD (var x) = _
      cases hy : t x with
      | some a => exact (ht x a hy).2.symm
      | none =>
          show var x = (s x).getD (var x)
          rw [hx]
          rfl

/-- Putting integers for names takes these names away and brings in none. -/
theorem mem_names_subst_constant {s : Substitution} (hs : s.Constant) {e : Expr} {x : String} :
    x ∈ (e.subst s).names ↔ x ∈ e.names ∧ s x = none := by
  rw [mem_names_subst]
  constructor
  · intro h
    obtain ⟨y, hy, hx⟩ := h
    cases hsy : s y with
    | some a =>
        obtain ⟨n, rfl⟩ := hs y a hsy
        rw [hsy] at hx
        cases hx
    | none =>
        rw [hsy] at hx
        cases List.mem_singleton.1 hx
        exact ⟨hy, hsy⟩
  · intro h
    refine ⟨x, h.1, ?_⟩
    rw [h.2]
    exact List.mem_singleton_self x

theorem type?_subst_constant {s : Substitution} (hs : s.Constant) {e : Expr} {t : Ty} :
    (e.subst s).type? = .ok t ↔ e.type? = .ok t := by
  refine type?_subst_eq_ok ?_
  intro x _
  cases hx : s x with
  | some a =>
      obtain ⟨n, rfl⟩ := hs x a hx
      rfl
  | none => rfl

end Expr

/-! ### Costs -/

section

variable {p : Program} {m : CostModel} {s : Substitution}

theorem CostModel.subst_charge (b : Expr) : (m.charge b).subst s = m.charge (b.subst s) := by
  unfold charge
  split
  · rfl
  · rfl

/-- The program with a replacement in all its bounds. -/
def Program.substBounds (s : Substitution) (p : Program) : Program := p.mapBounds fun f => f.bound.subst s

theorem Program.forall₂_substBounds (s : Substitution) (p : Program) :
    List.Forall₂ (fun f f' => f' = f.withBound (f.bound.subst s)) p.functions
      (p.substBounds s).functions := by
  show List.Forall₂ _ p.functions (p.functions.map fun f => f.withBound (f.bound.subst s))
  rw [List.forall₂_map_right_iff]
  exact List.forall₂_same.2 fun f _ => rfl

/-- **Cost after a replacement in the bounds.** It is the cost with the replacement made in it, if the replacement puts
integers for names that are no parameters and that the command does not use. -/
theorem Command.cost_subst (hs : s.Constant) (hparams : ∀ f ∈ p.functions, ∀ x ∈ f.params, s x = none)
    {c : Command} (hc : ∀ x ∈ c.names, s x = none) {e : Expr} (he : c.cost p m = .ok e) :
    c.cost (p.substBounds s) m = .ok (e.subst s) := by
  induction c generalizing e with
  | pass =>
      cases he
      rfl
  | call callee args =>
      obtain ⟨f, hf, hlen, rfl⟩ := cost_call_eq_ok.1 he
      have hlookup := Program.lookup_agree (p.forall₂_substBounds s) (by rintro f _ rfl; rfl) callee
      obtain ⟨f', hf', rfl⟩ := hlookup.exists_right hf
      refine cost_call_eq_ok.2 ⟨_, hf', hlen, ?_⟩
      rw [CostModel.subst_charge]
      congr 1
      -- the parameters are not replaced, and what is put for them has no name that is
      refine (Expr.subst_comm f.bound ?_ ?_).symm
      · intro x a hx
        obtain ⟨n, rfl⟩ := hs x a hx
        refine ⟨(Substitution.ofPairs_zip_eq_none hlen).2 fun hp => ?_, rfl⟩
        rw [hparams f (Program.mem_of_lookup hf).1 x hp] at hx
        cases hx
      · intro x a hx
        obtain ⟨hp, ha⟩ := List.of_mem_zip (Substitution.mem_of_ofPairs hx)
        refine ⟨hparams f (Program.mem_of_lookup hf).1 x hp, Expr.subst_eq_self fun y hy => hc y ?_⟩
        rw [names, Names.mem_unions]
        exact ⟨a.names, List.mem_map_of_mem ha, hy⟩
  | block a b iha ihb =>
      obtain ⟨x, y, hx, hy, rfl⟩ := cost_block_eq_ok.1 he
      simp only [names, Names.mem_union] at hc
      have ha := iha (fun z hz => hc z (Or.inl hz)) hx
      have hb := ihb (fun z hz => hc z (Or.inr hz)) hy
      exact cost_block_eq_ok.2 ⟨_, _, ha, hb, rfl⟩
  | choose test a b iha ihb =>
      obtain ⟨x, y, hx, hy, rfl⟩ := cost_choose_eq_ok.1 he
      simp only [names, Names.mem_union] at hc
      have ha := iha (fun z hz => hc z (Or.inr (Or.inl hz))) hx
      have hb := ihb (fun z hz => hc z (Or.inr (Or.inr hz))) hy
      refine cost_choose_eq_ok.2 ⟨_, _, ha, hb, ?_⟩
      rw [Expr.subst, Expr.subst_eq_self fun z hz => hc z (Or.inl hz)]

theorem Program.costs_subst (hs : s.Constant) (hparams : ∀ f ∈ p.functions, ∀ x ∈ f.params, s x = none)
    {costs : List Expr} (h : p.costs m = .ok costs) :
    (p.substBounds s).costs m = .ok (costs.map (·.subst s)) := by
  rw [costs_eq_ok] at h ⊢
  show List.Forall₂ _ (p.functions.map _) _
  rw [List.forall₂_map_left_iff, List.forall₂_map_right_iff]
  have hmem := (List.forall₂_and_left _ _).2 ⟨hparams, h⟩
  refine hmem.imp ?_
  intro f e hfe
  exact Command.cost_subst hs hparams (fun x hx => hfe.1 x (f.closed x hx)) hfe.2

/-! ### Obligations -/

theorem Obligation.claim_subst {params : List String} (hparams : ∀ x ∈ params, s x = none) (cost bound : Expr) :
    (claim params cost bound).subst s = claim params (cost.subst s) (bound.subst s) := by
  induction params with
  | nil => rfl
  | cons x params ih =>
      rw [claim_cons, claim_cons, ← ih fun y hy => hparams y (List.mem_cons_of_mem x hy)]
      show Expr.binary .or (.binary .le ((s x).getD (.var x)) (.int 0)) _ = _
      rw [hparams x List.mem_cons_self]
      rfl

/-- The obligation of a function after a replacement in its bound and its cost: if only reserved names are replaced,
the binders stay. -/
theorem Obligation.ofFunction_subst (hs : s.Constant)
    (hreserved : ∀ x, s x ≠ none → Unknown.Kind.ofName? x ≠ none) {f : Function}
    (hparams : ∀ x ∈ f.params, s x = none) (cost : Expr) :
    ofFunction (f.withBound (f.bound.subst s)) (cost.subst s) = (ofFunction f cost).subst s := by
  have hformula : (ofFunction (f.withBound (f.bound.subst s)) (cost.subst s)).formula
      = (ofFunction f cost).formula.subst s := (claim_subst hparams cost f.bound).symm
  have hbinders : (ofFunction (f.withBound (f.bound.subst s)) (cost.subst s)).binders
      = (ofFunction f cost).binders := by
    refine binders_eq_of_names rfl ?_
    intro x hx
    have hkeep : s x = none := by
      by_contra hne
      exact hreserved x hne hx
    rw [hformula, Expr.mem_names_subst_constant hs]
    exact and_iff_left hkeep
  show (⟨f.name, f.params, (ofFunction (f.withBound (f.bound.subst s)) (cost.subst s)).binders, cost.subst s,
    f.bound.subst s, claim f.params (cost.subst s) (f.bound.subst s)⟩ : Obligation) = _
  rw [hbinders, ← claim_subst hparams]
  rfl

/-- Queries follow a replacement that leaves no unknown. -/
theorem Query.ofCosts_subst (hs : s.Constant) (hreserved : ∀ x, s x ≠ none → Unknown.Kind.ofName? x ≠ none)
    {costs : List (Function × Expr)} (hparams : ∀ fc ∈ costs, ∀ x ∈ fc.1.params, s x = none)
    (hall : ∀ u ∈ (ofCosts costs).unknowns, s u.name ≠ none) :
    ofCosts (costs.map fun fc => (fc.1.withBound (fc.1.bound.subst s), fc.2.subst s))
      = ⟨[], (ofCosts costs).obligations.map (·.subst s)⟩ := by
  have hobligations : (ofCosts (costs.map fun fc => (fc.1.withBound (fc.1.bound.subst s), fc.2.subst s))).obligations
      = (ofCosts costs).obligations.map (·.subst s) := by
    show (costs.map _).map _ = (costs.map _).map _
    rw [List.map_map, List.map_map]
    refine List.map_congr_left ?_
    intro fc hfc
    exact Obligation.ofFunction_subst hs hreserved (hparams fc hfc) fc.2
  have hunknowns : (ofCosts (costs.map fun fc => (fc.1.withBound (fc.1.bound.subst s), fc.2.subst s))).unknowns
      = [] := by
    refine List.eq_nil_iff_forall_not_mem.2 ?_
    intro u hu
    obtain ⟨hkind, o', ho', hx, hp⟩ := mem_unknowns_ofCosts.1 hu
    rw [hobligations] at ho'
    obtain ⟨o, ho, rfl⟩ := List.mem_map.1 ho'
    -- what is left in the formula was an unknown before, so it has been replaced
    obtain ⟨hx, hnone⟩ := (Expr.mem_names_subst_constant hs).1 hx
    exact hall u (mem_unknowns_ofCosts.2 ⟨hkind, o, ho, hx, hp⟩) hnone
  rw [← hobligations, ← hunknowns]

end

/-! ### The query -/

namespace Program

variable {p : Program} {m : CostModel} {q : Query}

/-- **Constants in the place of unknowns.** Let no unknown of a program's query be a parameter, and choose an integer
for each unknown. The program that has these integers in its bounds has a query, without unknowns. Its obligations are
those of the program, for the same functions with the same parameters and binders, with the integers in cost, bound and
formula. -/
theorem query_choice (hq : p.query m = .ok q)
    (hunknown : ∀ f ∈ p.functions, ∀ u ∈ q.unknowns, u.name ∉ f.params) (w : String → Int64) :
    (p.mapBounds fun f => f.bound.subst (q.choice w)).query m
      = .ok ⟨[], q.obligations.map (·.subst (q.choice w))⟩ := by
  have hs := q.choice_constant w
  have hparams : ∀ f ∈ p.functions, ∀ x ∈ f.params, q.choice w x = none := by
    intro f hf x hx
    refine Query.choice_eq_none.2 fun u hu hux => hunknown f hf u hu ?_
    rw [hux]
    exact hx
  obtain ⟨costs, hcosts, hquery, htypes⟩ := query_eq_ok.1 hq
  -- only unknowns are replaced, and these have reserved names
  have hreserved : ∀ x, q.choice w x ≠ none → Unknown.Kind.ofName? x ≠ none := by
    intro x hx hkind
    refine hx (Query.choice_eq_none.2 fun u hu hux => ?_)
    rw [hquery, Query.mem_unknowns_ofCosts, hux, hkind] at hu
    exact Option.some_ne_none _ hu.1.symm
  have hall : ∀ u ∈ q.unknowns, q.choice w u.name ≠ none :=
    fun u hu hnone => Query.choice_eq_none.1 hnone u hu rfl
  refine query_eq_ok.2 ⟨_, costs_subst hs hparams hcosts, ?_, ?_⟩
  · have hzip : (p.mapBounds fun f => f.bound.subst (q.choice w)).functions.zip (costs.map (·.subst (q.choice w)))
        = (p.functions.zip costs).map
            fun fc => (fc.1.withBound (fc.1.bound.subst (q.choice w)), fc.2.subst (q.choice w)) := List.zip_map
    rw [hzip, Query.ofCosts_subst hs hreserved (fun fc hfc => hparams fc.1 (List.of_mem_zip hfc).1)
      (by rw [← hquery]; exact hall), ← hquery]
  · intro o' ho'
    obtain ⟨o, ho, rfl⟩ := List.mem_map.1 ho'
    exact (Expr.type?_subst_constant hs).2 (htypes o ho)

/-- A function whose bound has an unknown and a name that is neither an unknown nor a parameter, and a caller. -/
def calling : Program :=
  ⟨[⟨"g", ["j"], .pass, .binary .add (.binary .mul (.var "c0__1") (.var "j")) (.var "k"), by decide⟩,
    ⟨"f", ["n"],
      .choose (.binary .le (.var "n") (.int 0)) .pass (.call "g" [.binary .sub (.var "n") (.int 1)]),
      .binary .mul (.var "c1__2") (.var "n"), by decide⟩]⟩

/-- With `-3` and `7` for the two unknowns. -/
theorem query_choice_calling :
    ∃ q, calling.query .unitCalls = .ok q ∧ q.unknowns = [⟨"c0__1", .scale⟩, ⟨"c1__2", .offset⟩]
      ∧ (∀ f ∈ calling.functions, ∀ u ∈ q.unknowns, u.name ∉ f.params)
      ∧ (calling.mapBounds fun f => f.bound.subst (q.choice fun x => if x = "c0__1" then -3 else 7)).query .unitCalls
          = .ok ⟨[], q.obligations.map (·.subst (q.choice fun x => if x = "c0__1" then -3 else 7))⟩
      ∧ q.obligations.map (fun o => (o.binders, (o.subst (q.choice fun x => if x = "c0__1" then -3 else 7)).cost))
          = [(["j", "k"], .int 0),
            (["n", "k"], .cond (.binary .le (.var "n") (.int 0)) (.int 0)
              (.binary .add (.int 1) (.binary .add
                (.binary .mul (.int (-3)) (.binary .sub (.var "n") (.int 1))) (.var "k"))))] := by
  have hq : calling.query .unitCalls = .ok (Query.ofCosts (calling.functions.zip _)) := rfl
  exact ⟨_, hq, rfl, by decide, query_choice hq (by decide) _, rfl⟩

end Program

end CostBound
