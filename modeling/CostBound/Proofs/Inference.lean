import CostBound.Proofs.Choice
import CostBound.Proofs.Runs
import CostBound.Proofs.Scaling

/-!
# Scaling keeps valid programs valid

If some choice of the unknowns makes all obligations of a program true, and calls are not free, then doubling every
bound and adding one makes those of the scaled program true: a call that was charged at least one unit pays for the
summand that its callee's bound has got.

* `Function.ScaledBy`, `ScaledCost`, `Obligation.ScaledBy` — what corresponds in a program and in the scaled one.
* `Command.cost_scaled` — corresponding commands have corresponding costs.
* `Program.query_scaled` — the query of the scaled program, obligation by obligation.
* `ScaledCost.eval_le` — a cost at most doubles.
* `Program.scaled_holds` — the choice for the scaled program.
-/

namespace CostBound

variable {m : CostModel} {us : List Unknown}

/-! ### Correspondence -/

/-- The function with one of the unknowns `us` as a factor of its bound and another one as a summand. -/
def Function.ScaledBy (us : List Unknown) (f f' : Function) : Prop :=
  ∃ factor ∈ us, ∃ summand ∈ us, factor.kind = .scale ∧ summand.kind = .offset
    ∧ f' = f.withBound (f.bound.scaledBy factor summand)

/-- Derived costs that differ in the bounds of callees only, which are scaled in the second one. -/
inductive ScaledCost (m : CostModel) (us : List Unknown) : Expr → Expr → Prop
  | pass : ScaledCost m us (.int 0) (.int 0)
  | call {bound : Expr} {factor summand : Unknown} (hfactor : factor ∈ us) (hsummand : summand ∈ us)
      (hscale : factor.kind = .scale) (hoffset : summand.kind = .offset) :
      ScaledCost m us (m.charge bound) (m.charge (bound.scaledBy factor summand))
  | block {x x' y y' : Expr} (hx : ScaledCost m us x x') (hy : ScaledCost m us y y') :
      ScaledCost m us (.binary .add x y) (.binary .add x' y')
  | choose {test x x' y y' : Expr} (hx : ScaledCost m us x x') (hy : ScaledCost m us y y') :
      ScaledCost m us (.cond test x y) (.cond test x' y')

/-- Obligations of corresponding functions, from corresponding costs. -/
inductive Obligation.ScaledBy (m : CostModel) (us : List Unknown) : Obligation → Obligation → Prop
  | mk {f f' : Function} {e e' : Expr} (hf : f.ScaledBy us f') (he : ScaledCost m us e e') :
      ScaledBy m us (.ofFunction f e) (.ofFunction f' e')

theorem Program.forall₂_scaled (p : Program) (s : Supply) :
    List.Forall₂ (Function.ScaledBy (s.introduced p.functions.length)) p.functions
      (p.scaled s).1.functions := by
  rw [Program.scaled_functions]
  refine List.forall₂_of_length_eq_of_get (List.length_mapIdx).symm ?_
  intro i hi _
  have hfactor : s.factor i ∈ s.introduced p.functions.length := Supply.mem_introduced.2 ⟨i, hi, Or.inl rfl⟩
  have hsummand : s.summand i ∈ s.introduced p.functions.length := Supply.mem_introduced.2 ⟨i, hi, Or.inr rfl⟩
  exact ⟨_, hfactor, _, hsummand, rfl, rfl, by simp⟩

/-- **Bounds of scaled functions.** At the same arguments the two functions claim corresponding bounds, if none of the
unknowns is a parameter. -/
theorem Function.boundAt_scaled {f f' : Function} (hf : f.ScaledBy us f') (hparams : ∀ u ∈ us, u.name ∉ f.params)
    (args : List Expr) : Agree (fun b b' => ScaledCost m us (m.charge b) (m.charge b')) (f.boundAt args)
      (f'.boundAt args) := by
  obtain ⟨factor, hfactor, summand, hsummand, hscale, hoffset, rfl⟩ := hf
  unfold boundAt
  show Agree _ _ (if f.params.length = args.length then _ else _)
  split
  · rename_i hlen
    -- the call replaces neither of the two unknowns
    have hkeep : ∀ u ∈ us, (Substitution.ofPairs (f.params.zip args) u.name).getD (.var u.name) = .var u.name := by
      intro u hu
      rw [(Substitution.ofPairs_zip_eq_none hlen).2 (hparams u hu)]
      rfl
    refine .ok ?_
    show ScaledCost m us _ (m.charge (.binary .add
      (.binary .mul ((Substitution.ofPairs (f.params.zip args) factor.name).getD (.var factor.name)) _)
      ((Substitution.ofPairs (f.params.zip args) summand.name).getD (.var summand.name))))
    rw [hkeep factor hfactor, hkeep summand hsummand]
    exact .call hfactor hsummand hscale hoffset
  · exact .error _

section

variable {p p' : Program} (hp : List.Forall₂ (Function.ScaledBy us) p.functions p'.functions)
  (hparams : ∀ u ∈ us, ∀ f ∈ p.functions, u.name ∉ f.params)

include hp hparams

/-- **Cost in the scaled program.** It exists if the cost does, and the two correspond, if none of the unknowns is a
parameter. -/
theorem Command.cost_scaled (c : Command) : Agree (ScaledCost m us) (c.cost p m) (c.cost p' m) := by
  induction c with
  | pass => exact .ok .pass
  | call callee args =>
      have hmem := (List.forall₂_and_left _ _).2 ⟨fun f hf => hf, hp⟩
      have hname : ∀ f f', f ∈ p.functions ∧ f.ScaledBy us f' → f'.name = f.name := by
        rintro f _ ⟨_, _, _, _, _, _, _, rfl⟩
        rfl
      refine (Program.lookup_agree hmem hname callee).bind fun f f' hf => ?_
      exact (Function.boundAt_scaled hf.2 (fun u hu => hparams u hu f hf.1) args).bind fun _ _ hb => .ok hb
  | block a b iha ihb => exact iha.bind₂ ihb fun _ _ _ _ => .block
  | choose test a b iha ihb => exact iha.bind₂ ihb fun _ _ _ _ => .choose

theorem Program.costs_scaled : Agree (List.Forall₂ (ScaledCost m us)) (p.costs m) (p'.costs m) := by
  refine Agree.mapM hp ?_
  rintro f _ ⟨_, _, _, _, _, _, rfl⟩
  exact Command.cost_scaled hp hparams f.body

omit hparams in
/-- The obligations of corresponding functions with corresponding costs. -/
theorem Query.obligations_scaled {costs costs' : List Expr} (hcosts : List.Forall₂ (ScaledCost m us) costs costs') :
    List.Forall₂ (Obligation.ScaledBy m us) (Query.ofCosts (p.functions.zip costs)).obligations
      (Query.ofCosts (p'.functions.zip costs')).obligations := by
  generalize p.functions = fs at hp
  generalize p'.functions = fs' at hp
  induction hp generalizing costs costs' with
  | nil => exact .nil
  | cons hf _ ih =>
      cases hcosts with
      | nil => exact .nil
      | cons he hes => exact .cons (.mk hf he) (ih hes)

end

/-! ### Types and names -/

theorem Expr.type?_scaledBy {factor summand : Unknown} {e : Expr} :
    (e.scaledBy factor summand).type? = .ok .int ↔ e.type? = .ok .int := by
  have hvar : ∀ u : Unknown, (var u.name).type? = .ok .int := fun _ => rfl
  rw [scaledBy, type?_arithmetic rfl rfl, type?_arithmetic rfl rfl]
  simp only [hvar, true_and, and_true]

theorem Expr.eval_scaledBy {factor summand : Unknown} {e : Expr} {rem : Remainder} {v : Valuation} {n : Int}
    (he : e.eval rem v = some (.int n)) :
    (e.scaledBy factor summand).eval rem v = some (.int (v factor.name * n + v summand.name)) := by
  simp only [scaledBy, eval, he, Option.bind_some, BinaryOp.apply]

namespace ScaledCost

theorem type?_iff {e e' : Expr} (h : ScaledCost m us e e') : e'.type? = .ok .int ↔ e.type? = .ok .int := by
  induction h with
  | pass => rfl
  | call => rw [CostModel.type?_charge, CostModel.type?_charge, Expr.type?_scaledBy]
  | block _ _ ihx ihy => rw [Expr.type?_arithmetic rfl rfl, Expr.type?_arithmetic rfl rfl, ihx, ihy]
  | choose _ _ ihx ihy => rw [Expr.type?_cond_eq_ok, Expr.type?_cond_eq_ok, ihx, ihy]

/-- Beside the unknowns, the names of two corresponding costs are the same. -/
theorem mem_names_iff {e e' : Expr} (h : ScaledCost m us e e') {x : String} (hx : ∀ u ∈ us, u.name ≠ x) :
    x ∈ e'.names ↔ x ∈ e.names := by
  induction h with
  | pass => rfl
  | call hfactor hsummand =>
      have hf := (hx _ hfactor).symm
      have hs := (hx _ hsummand).symm
      rw [Command.mem_names_charge, Command.mem_names_charge]
      simp [Expr.scaledBy, Expr.names, hf, hs]
  | block _ _ ihx ihy => simp only [Expr.names, Names.mem_union, ihx, ihy]
  | choose _ _ ihx ihy => simp only [Expr.names, Names.mem_union, ihx, ihy]

/-- **A cost at most doubles.** Let all factors be two and all summands be one. If a call is charged at least one unit,
the cost in the scaled program is at most twice the cost in the program. -/
theorem eval_le {e e' : Expr} (h : ScaledCost m us e e') (ht : e.type? = .ok .int) (hm : 1 ≤ m.callCost.toInt)
    (rem : Remainder) {v : Valuation} (hfactor : ∀ u ∈ us, u.kind = .scale → v u.name = 2)
    (hsummand : ∀ u ∈ us, u.kind = .offset → v u.name = 1) :
    ∃ a a', e.eval rem v = some (.int a) ∧ e'.eval rem v = some (.int a') ∧ a' ≤ 2 * a := by
  -- along the path that the conditions choose, every call adds to both sides
  induction h with
  | pass => exact ⟨0, 0, rfl, rfl, le_refl 0⟩
  | @call bound factor summand hf hs hscale hoffset =>
      obtain ⟨b, hb⟩ := Expr.eval_int_of_type rem v (CostModel.type?_charge.1 ht)
      have hb' : (bound.scaledBy factor summand).eval rem v = some (.int (2 * b + 1)) := by
        rw [Expr.eval_scaledBy hb, hfactor factor hf hscale, hsummand summand hs hoffset]
      exact ⟨_, _, CostModel.eval_charge hb, CostModel.eval_charge hb', by omega⟩
  | block _ _ ihx ihy =>
      obtain ⟨htx, hty⟩ := (Expr.type?_arithmetic rfl rfl).1 ht
      obtain ⟨a, a', ha, ha', hle⟩ := ihx htx
      obtain ⟨b, b', hb, hb', hle'⟩ := ihy hty
      refine ⟨a + b, a' + b', ?_, ?_, by omega⟩
      · simp only [Expr.eval, ha, hb, Option.bind_some, BinaryOp.apply]
      · simp only [Expr.eval, ha', hb', Option.bind_some, BinaryOp.apply]
  | @choose test x x' y y' _ _ ihx ihy =>
      obtain ⟨htest, htx, hty⟩ := Expr.type?_cond_eq_ok.1 ht
      obtain ⟨t, htv, htt⟩ := Expr.eval_of_type rem v htest
      obtain ⟨t, rfl⟩ := Value.type_eq_bool.1 htt
      cases t with
      | true =>
          obtain ⟨a, a', ha, ha', hle⟩ := ihx htx
          exact ⟨a, a', by simp only [Expr.eval, htv, ha], by simp only [Expr.eval, htv, ha'], hle⟩
      | false =>
          obtain ⟨a, a', ha, ha', hle⟩ := ihy hty
          exact ⟨a, a', by simp only [Expr.eval, htv, ha], by simp only [Expr.eval, htv, ha'], hle⟩

end ScaledCost

/-! ### Obligations -/

namespace Obligation.ScaledBy

variable {o o' : Obligation}

theorem type?_formula_iff (h : o.ScaledBy m us o') : o'.formula.type? = .ok .bool ↔ o.formula.type? = .ok .bool := by
  cases h with
  | mk hf he =>
      obtain ⟨factor, _, summand, _, _, _, rfl⟩ := hf
      rw [ofFunction_formula, ofFunction_formula, type?_claim, type?_claim, he.type?_iff]
      show _ ∧ (Expr.scaledBy factor summand _).type? = .ok .int ∧ _ ↔ _
      rw [Expr.type?_scaledBy]

/-- Beside the unknowns, the names of the two formulas are the same. -/
theorem mem_formula_names_iff (h : o.ScaledBy m us o') {x : String} (hx : ∀ u ∈ us, u.name ≠ x) :
    x ∈ o'.formula.names ↔ x ∈ o.formula.names := by
  cases h with
  | @mk f f' e e' hf he =>
      obtain ⟨factor, hfactor, summand, hsummand, _, _, rfl⟩ := hf
      have hbound : x ∈ (f.bound.scaledBy factor summand).names ↔ x ∈ f.bound.names := by
        simp [Expr.scaledBy, Expr.names, (hx factor hfactor).symm, (hx summand hsummand).symm]
      rw [ofFunction_formula, ofFunction_formula, mem_names_claim, mem_names_claim, he.mem_names_iff hx]
      show _ ∨ _ ∨ x ∈ (f.bound.scaledBy factor summand).names ↔ _
      rw [hbound]
      rfl

theorem params_eq (h : o.ScaledBy m us o') : o'.params = o.params := by
  cases h with
  | mk hf _ =>
      obtain ⟨_, _, _, _, _, _, rfl⟩ := hf
      rfl

/-- Unknowns are not bound, so the two obligations bind the same names. -/
theorem binders_eq (h : o.ScaledBy m us o') (hus : ∀ u ∈ us, Unknown.Kind.ofName? u.name = some u.kind) :
    o'.binders = o.binders := by
  have hnames : ∀ x, Unknown.Kind.ofName? x = none → (x ∈ o'.formula.names ↔ x ∈ o.formula.names) := by
    intro x hx
    refine h.mem_formula_names_iff fun u hu hux => ?_
    rw [← hux, hus u hu] at hx
    cases hx
  cases h with
  | mk hf _ =>
      obtain ⟨_, _, _, _, _, _, rfl⟩ := hf
      exact binders_eq_of_names rfl hnames

/-- **One obligation.** If it holds under `w`, then the scaled one holds under the choice that gives two to the factors,
one to the summands and is `w` elsewhere. -/
theorem holds (h : o.ScaledBy m us o') (hm : 1 ≤ m.callCost.toInt) (ht : o.formula.type? = .ok .bool)
    (hus : ∀ u ∈ us, Unknown.Kind.ofName? u.name = some u.kind) (hfresh : ∀ u ∈ us, u.name ∉ o.formula.names)
    {rem : Remainder} {w w' : Valuation} (hfactor : ∀ u ∈ us, u.kind = .scale → w' u.name = 2)
    (hsummand : ∀ u ∈ us, u.kind = .offset → w' u.name = 1)
    (hother : ∀ x, (∀ u ∈ us, u.name ≠ x) → w' x = w x) (hw : o.Holds rem w) : o'.Holds rem w' := by
  intro v hv
  rw [h.binders_eq hus] at hv
  cases h with
  | @mk f f' e e' hf he =>
      obtain ⟨factor, hfu, summand, hsu, hscale, hoffset, rfl⟩ := hf
      -- the unknowns are not bound, so `v` gives them their chosen values
      have hunbound : ∀ u ∈ us, v u.name = w' u.name := by
        intro u hu
        refine hv u.name fun hb => hfresh u hu ?_
        rcases mem_binders_ofFunction.1 hb with hp | hn
        · exact mem_names_claim.2 (Or.inl hp)
        · exact hn.1
      have hvfactor : ∀ u ∈ us, u.kind = .scale → v u.name = 2 := fun u hu hk => by
        rw [hunbound u hu, hfactor u hu hk]
      have hvsummand : ∀ u ∈ us, u.kind = .offset → v u.name = 1 := fun u hu hk => by
        rw [hunbound u hu, hsummand u hu hk]
      -- with `w` for them, the formula of the program is true
      have htrue : (ofFunction f e).formula.eval rem v = some (.bool true) := by
        have hagree : ∀ x ∈ (ofFunction f e).formula.names,
            v x = if ∃ u ∈ us, u.name = x then w x else v x := by
          intro x hx
          refine (if_neg ?_).symm
          rintro ⟨u, hu, rfl⟩
          exact hfresh u hu hx
        rw [Expr.eval_congr hagree]
        refine hw _ fun x hx => ?_
        by_cases hxu : ∃ u ∈ us, u.name = x
        · exact if_pos hxu
        · rw [if_neg hxu, hv x hx]
          exact hother x fun u hu hux => hxu ⟨u, hu, hux⟩
      obtain ⟨htcost, htbound, _⟩ := type?_claim.1 ht
      obtain ⟨a, a', ha, ha', hle⟩ := he.eval_le htcost hm rem hvfactor hvsummand
      obtain ⟨b, hb⟩ := Expr.eval_int_of_type rem v htbound
      have hb' : (f.bound.scaledBy factor summand).eval rem v = some (.int (2 * b + 1)) := by
        rw [Expr.eval_scaledBy hb, hvfactor factor hfu hscale, hvsummand summand hsu hoffset]
      rw [ofFunction_formula, eval_claim ha hb, Option.some.injEq, Value.bool.injEq, decide_eq_true_eq] at htrue
      show (claim f.params e' (f.bound.scaledBy factor summand)).eval rem v = _
      rw [eval_claim ha' hb', Option.some.injEq, Value.bool.injEq, decide_eq_true_eq]
      rcases htrue with hdegenerate | hab
      · exact Or.inl hdegenerate
      · exact Or.inr (by omega)

end Obligation.ScaledBy

/-! ### The query -/

theorem exists_of_forall₂ {α β : Type} {R : α → β → Prop} {as : List α} {bs : List β} (h : List.Forall₂ R as bs)
    {b : β} (hb : b ∈ bs) : ∃ a ∈ as, R a b := by
  obtain ⟨i, hi, rfl⟩ := List.getElem_of_mem hb
  have hi' : i < as.length := h.length_eq ▸ hi
  exact ⟨as[i], List.getElem_mem hi', h.get hi' hi⟩

/-- The values are at least the least ones that the unknowns may have. -/
def Query.Admits (w : Valuation) (q : Query) : Prop := ∀ u ∈ q.unknowns, (u.kind.lowerBound : Int) ≤ w u.name

/-- Two for the factors and one for the summands that scaling `n` bounds introduces, and `w` elsewhere. -/
def Supply.extend (s : Supply) (n : Nat) (w : Valuation) : Valuation := fun x =>
  if ⟨x, .scale⟩ ∈ s.introduced n then 2 else if ⟨x, .offset⟩ ∈ s.introduced n then 1 else w x

namespace Supply

variable {s : Supply} {n : Nat} {w : Valuation}

theorem extend_factor {u : Unknown} (hu : u ∈ s.introduced n) (hk : u.kind = .scale) : s.extend n w u.name = 2 := by
  obtain ⟨name, kind⟩ := u
  cases hk
  exact if_pos hu

theorem extend_summand {u : Unknown} (hu : u ∈ s.introduced n) (hk : u.kind = .offset) :
    s.extend n w u.name = 1 := by
  obtain ⟨name, kind⟩ := u
  cases hk
  -- the name tells the kind, so it is no factor
  have hno : ⟨name, .scale⟩ ∉ s.introduced n := by
    intro hscale
    have hkind := ofName?_of_mem_introduced hu
    rw [ofName?_of_mem_introduced hscale] at hkind
    cases hkind
  show (if _ then _ else _) = _
  rw [if_neg hno, if_pos hu]

theorem extend_other {x : String} (hx : ∀ u ∈ s.introduced n, u.name ≠ x) : s.extend n w x = w x := by
  have hno : ∀ kind, ⟨x, kind⟩ ∉ s.introduced n := fun kind h => hx _ h rfl
  show (if _ then _ else if _ then _ else _) = _
  rw [if_neg (hno .scale), if_neg (hno .offset)]

end Supply

namespace Program

variable {p : Program} {q : Query} {s : Supply}

/-- The names of the formulas of a query are mentioned in the program. -/
theorem mentions_of_mem_obligations (hq : p.query m = .ok q) {o : Obligation} (ho : o ∈ q.obligations) {x : String}
    (hx : x ∈ o.formula.names) : p.Mentions x := by
  have hmem := (List.forall₂_and_left _ _).2 ⟨fun f hf => hf, query_forall₂ hq⟩
  obtain ⟨f, _, hf, e, he, rfl⟩ := exists_of_forall₂ hmem ho
  exact mentions_of_mem_formula hf he hx

theorem mentions_of_mem_unknowns (hq : p.query m = .ok q) {u : Unknown} (hu : u ∈ q.unknowns) :
    p.Mentions u.name := by
  obtain ⟨costs, _, hquery, _⟩ := query_eq_ok.1 hq
  rw [hquery, Query.mem_unknowns_ofCosts, ← hquery] at hu
  obtain ⟨_, o, ho, hx, _⟩ := hu
  exact mentions_of_mem_obligations hq ho hx

/-- **The query of a scaled program.** If the introduced unknowns are new, it exists if the query of the program does,
and the obligations of the two correspond, in order. -/
theorem query_scaled (hq : p.query m = .ok q) (hfresh : ∀ u ∈ s.introduced p.functions.length, ¬ p.Mentions u.name) :
    ∃ q', (p.scaled s).1.query m = .ok q'
      ∧ List.Forall₂ (Obligation.ScaledBy m (s.introduced p.functions.length)) q.obligations q'.obligations := by
  have hparams : ∀ u ∈ s.introduced p.functions.length, ∀ f ∈ p.functions, u.name ∉ f.params :=
    fun u hu f hf hx => hfresh u hu ⟨f, hf, Or.inl hx⟩
  obtain ⟨costs, hcosts, rfl, htypes⟩ := query_eq_ok.1 hq
  obtain ⟨costs', hcosts', hscaled⟩ := (costs_scaled (p.forall₂_scaled s) hparams).exists_right hcosts
  have hobligations := Query.obligations_scaled (p.forall₂_scaled s) hscaled
  refine ⟨_, query_eq_ok.2 ⟨costs', hcosts', rfl, ?_⟩, hobligations⟩
  intro o' ho'
  obtain ⟨o, ho, hoo⟩ := exists_of_forall₂ hobligations ho'
  exact hoo.type?_formula_iff.2 (htypes o ho)

/-- An unknown of the scaled program is one of the program or introduced. -/
theorem mem_unknowns_or_introduced {q' : Query} (hq : p.query m = .ok q) (hq' : (p.scaled s).1.query m = .ok q')
    (hobligations : List.Forall₂ (Obligation.ScaledBy m (s.introduced p.functions.length)) q.obligations q'.obligations)
    {u : Unknown} (hu : u ∈ q'.unknowns) : u ∈ q.unknowns ∨ u ∈ s.introduced p.functions.length := by
  obtain ⟨costs, _, rfl, _⟩ := query_eq_ok.1 hq
  obtain ⟨costs', _, rfl, _⟩ := query_eq_ok.1 hq'
  obtain ⟨hkind, o', ho', hx, hp⟩ := Query.mem_unknowns_ofCosts.1 hu
  by_cases hold : ∀ u' ∈ s.introduced p.functions.length, u'.name ≠ u.name
  · obtain ⟨o, ho, hscaled⟩ := exists_of_forall₂ hobligations ho'
    rw [hscaled.params_eq] at hp
    exact Or.inl (Query.mem_unknowns_ofCosts.2 ⟨hkind, o, ho, (hscaled.mem_formula_names_iff hold).1 hx, hp⟩)
  · push Not at hold
    obtain ⟨u', hu', hname⟩ := hold
    have hkind' := Supply.ofName?_of_mem_introduced hu'
    rw [hname, hkind] at hkind'
    obtain ⟨name, kind⟩ := u
    obtain ⟨name', kind'⟩ := u'
    cases hname
    cases hkind'
    exact Or.inr hu'

/-- The choice for the scaled program keeps to the least values. -/
theorem admits_extend {q' : Query} (hfresh : ∀ u ∈ s.introduced p.functions.length, ¬ p.Mentions u.name)
    (hq : p.query m = .ok q) (hq' : (p.scaled s).1.query m = .ok q')
    (hobligations : List.Forall₂ (Obligation.ScaledBy m (s.introduced p.functions.length)) q.obligations q'.obligations)
    {w : Valuation} (hw : q.Admits w) : q'.Admits (s.extend p.functions.length w) := by
  intro u hu
  rcases mem_unknowns_or_introduced hq hq' hobligations hu with hold | hnew
  · have hother : ∀ u' ∈ s.introduced p.functions.length, u'.name ≠ u.name := by
      intro u' hu' hname
      refine hfresh u' hu' ?_
      rw [hname]
      exact mentions_of_mem_unknowns hq hold
    rw [Supply.extend_other hother]
    exact hw u hold
  · cases hkind : u.kind with
    | scale =>
        rw [Supply.extend_factor hnew hkind]
        decide
    | offset =>
        rw [Supply.extend_summand hnew hkind]
        decide

/-- **Inference loses no valid program.** Let a call be charged at least one unit, let the program mention none of the
unknowns that scaling introduces, and let a choice of the program's unknowns make all its obligations true. Scaling puts
the introduced unknowns number `i` into bound number `i`. The scaled program has a query, and the choice that gives two
to each introduced factor and one to each introduced summand makes all its obligations true. -/
theorem scaled_holds (hm : 1 ≤ m.callCost) (hfresh : ∀ u ∈ s.introduced p.functions.length, ¬ p.Mentions u.name)
    (hq : p.query m = .ok q) {rem : Remainder} {w : Valuation} (hadmits : q.Admits w) (hw : q.Holds rem w) :
    (p.scaled s).1.functions
        = p.functions.mapIdx (fun i f => f.withBound (f.bound.scaledBy (s.factor i) (s.summand i)))
      ∧ ∃ q', (p.scaled s).1.query m = .ok q' ∧ q'.Admits (s.extend p.functions.length w)
        ∧ q'.Holds rem (s.extend p.functions.length w) := by
  obtain ⟨q', hq', hobligations⟩ := query_scaled hq hfresh
  refine ⟨p.scaled_functions s, q', hq', admits_extend hfresh hq hq' hobligations hadmits, ?_⟩
  intro o' ho'
  obtain ⟨o, ho, hscaled⟩ := exists_of_forall₂ hobligations ho'
  obtain ⟨_, _, _, htypes⟩ := query_eq_ok.1 hq
  have hcharge : 1 ≤ m.callCost.toInt := Int64.le_iff_toInt_le.1 hm
  have hnew : ∀ u ∈ s.introduced p.functions.length, u.name ∉ o.formula.names :=
    fun u hu hx => hfresh u hu (mentions_of_mem_obligations hq ho hx)
  exact hscaled.holds hcharge (htypes o ho) (fun u hu => Supply.ofName?_of_mem_introduced hu) hnew
    (fun u hu => Supply.extend_factor hu) (fun u hu => Supply.extend_summand hu)
    (fun x hx => Supply.extend_other hx) (hw o ho)

/-- The countdown, whose bound has an unknown factor already. -/
theorem scaled_holds_countdown :
    Countdown.program.query .unitCalls = .ok Countdown.query ∧ Countdown.query.Admits (fun _ => 1)
      ∧ Countdown.query.Holds Int.emod (fun _ => 1)
      ∧ (Countdown.program.scaled ⟨1⟩).1.functions.map (·.bound)
          = Countdown.program.functions.map (fun f => .binary .add (.binary .mul (.var "c0__2") f.bound) (.var "c1__3"))
      ∧ ∃ q', (Countdown.program.scaled ⟨1⟩).1.query .unitCalls = .ok q'
        ∧ q'.Admits (Supply.extend ⟨1⟩ 1 fun _ => 1) ∧ q'.Holds Int.emod (Supply.extend ⟨1⟩ 1 fun _ => 1) := by
  have hadmits : Countdown.query.Admits fun _ => 1 := by
    intro u hu
    cases List.mem_singleton.1 hu
    decide
  refine ⟨Countdown.program_query, hadmits, Countdown.query_holds, by decide +kernel, ?_⟩
  exact (scaled_holds (by decide) (by decide +kernel) Countdown.program_query hadmits Countdown.query_holds).2

/-- Claims that two calls of itself cost nothing. -/
def twice : Program := ⟨[⟨"f", [], .block (.call "f" []) (.call "f" []), .int 0, by decide⟩]⟩

/-- With free calls the choice fails: the program is valid, and in the scaled program two summands stand against
one. -/
theorem not_scaled_holds_freeCalls :
    ∃ q q', twice.query .freeCalls = .ok q ∧ (twice.scaled ⟨0⟩).1.query .freeCalls = .ok q'
      ∧ q.Holds Int.emod (fun _ => 0) ∧ ¬ q'.Holds Int.emod (Supply.extend ⟨0⟩ 1 fun _ => 0) := by
  have hq : twice.query .freeCalls = .ok (Query.ofCosts (twice.functions.zip _)) := rfl
  have hq' : (twice.scaled ⟨0⟩).1.query .freeCalls = .ok (Query.ofCosts ((twice.scaled ⟨0⟩).1.functions.zip _)) := rfl
  refine ⟨_, _, hq, hq', ?_, ?_⟩
  · intro o ho v _
    cases List.mem_singleton.1 ho
    rfl
  · intro h
    have htrue := h _ List.mem_cons_self (Supply.extend ⟨0⟩ 1 fun _ => 0) fun _ _ => rfl
    exact absurd htrue (by decide +kernel)

end Program

end CostBound
