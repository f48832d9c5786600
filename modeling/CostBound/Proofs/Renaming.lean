import CostBound.Proofs.Query

/-!
# Renaming the parameters of a function

What a function's parameters are called should make no difference beyond the function itself. It does where a bound
mentions a name that is no parameter of its own function but happens to be a parameter of a caller: at the call, the
name is captured.

* `Function.Renames` — a renaming of a function's parameters to fresh names.
* `Function.Captures` — the function calls another whose bound mentions a parameter of the caller by accident.
* `Command.cost_replace` — the costs of all commands are the same after the renaming.
* `Command.cost_rename` — the renamed body has the renamed cost unless a name is captured.
* `Program.query_renameAt_iff` — the query changes as the function does exactly if nothing is captured.
-/

namespace CostBound

/-! ### Renamed commands and functions -/

namespace Command

/-- Replaces the names in conditions and arguments by names. -/
def rename (r : String → String) : Command → Command
  | pass => pass
  | call callee args => call callee (args.map (·.rename r))
  | block a b => block (a.rename r) (b.rename r)
  | choose c a b => choose (c.rename r) (a.rename r) (b.rename r)

/-- The names that are called. -/
def callees : Command → List String
  | pass => []
  | call callee _ => [callee]
  | block a b => a.callees ++ b.callees
  | choose _ a b => a.callees ++ b.callees

theorem mem_names_rename {c : Command} {r : String → String} {x : String} :
    x ∈ (c.rename r).names ↔ ∃ y ∈ c.names, x = r y := by
  induction c with
  | pass => simp [rename, names]
  | call callee args =>
      simp only [rename, names, List.map_map, Names.mem_unions, List.mem_map, Function.comp_apply,
        exists_exists_and_eq_and, Expr.mem_names_rename]
      constructor
      · intro h
        obtain ⟨arg, harg, y, hy, rfl⟩ := h
        exact ⟨y, ⟨arg, harg, hy⟩, rfl⟩
      · intro h
        obtain ⟨y, ⟨arg, harg, hy⟩, rfl⟩ := h
        exact ⟨arg, harg, y, hy, rfl⟩
  | block a b iha ihb =>
      simp only [rename, names, Names.mem_union, iha, ihb, or_and_right, exists_or]
  | choose c a b iha ihb =>
      simp only [rename, names, Names.mem_union, Expr.mem_names_rename, iha, ihb, or_and_right,
        exists_or]

end Command

/-- The function with other names. -/
def Function.rename (r : String → String) (f : Function) : Function where
  name := f.name
  params := f.params.map r
  body := f.body.rename r
  bound := f.bound.rename r
  closed := by
    intro x hx
    obtain ⟨y, hy, rfl⟩ := Command.mem_names_rename.1 hx
    exact List.mem_map_of_mem (f.closed y hy)

/-- The obligation with other names. -/
def Obligation.rename (r : String → String) (o : Obligation) : Obligation where
  function := o.function
  params := o.params.map r
  binders := o.binders.map r
  cost := o.cost.rename r
  bound := o.bound.rename r
  formula := o.formula.rename r

/-- A name is a parameter somewhere or occurs in a bound. -/
def Program.Mentions (p : Program) (x : String) : Prop :=
  ∃ f ∈ p.functions, x ∈ f.params ∨ x ∈ f.bound.names

/-- A renaming of the parameters of a function in a program, and of no other names: different parameters get
different names, which the program does not mention. -/
structure Function.Renames (f : Function) (p : Program) (r : String → String) : Prop where
  injective : ∀ x ∈ f.params, ∀ y ∈ f.params, r x = r y → x = y
  elsewhere : ∀ x, x ∉ f.params → r x = x
  fresh : ∀ x ∈ f.params, ¬ p.Mentions (r x)

/-- A function that is called has a name in its bound that is no parameter of its own, but one of the caller's. -/
def Function.Captures (f : Function) (p : Program) : Prop :=
  ∃ callee ∈ f.body.callees, ∃ g, p.lookup callee = .ok g
    ∧ ∃ x ∈ g.bound.names, x ∉ g.params ∧ x ∈ f.params

/-! ### Other functions see the same bound -/

section

variable {f : Function} {p : Program} {m : CostModel} {r : String → String}

/-- A name that the program mentions is the new name of no parameter. -/
theorem Function.Renames.not_mem_of_mentions (hr : f.Renames p r) {x : String}
    (hx : p.Mentions x) : x ∉ f.params.map r := by
  intro h
  obtain ⟨y, hy, rfl⟩ := List.mem_map.1 h
  exact hr.fresh y hy hx

/-- A name that the program mentions is left alone exactly if it is no parameter. -/
theorem Function.Renames.apply_eq_self_iff (hr : f.Renames p r) {x : String}
    (hx : p.Mentions x) : r x = x ↔ x ∉ f.params := by
  constructor
  · intro h hp
    refine hr.fresh x hp ?_
    rw [h]
    exact hx
  · exact hr.elsewhere x

/-- At given arguments the renamed function claims what the function does. -/
theorem Function.Renames.boundAt_rename (hr : f.Renames p r) (hf : f ∈ p.functions)
    (args : List Expr) : (f.rename r).boundAt args = f.boundAt args := by
  unfold Function.boundAt
  have hlength : (f.rename r).params.length = f.params.length := List.length_map r
  rw [hlength]
  by_cases hlen : f.params.length = args.length
  · rw [if_pos hlen, if_pos hlen]
    congr 1
    show (f.bound.rename r).subst (.ofPairs ((f.params.map r).zip args)) = _
    rw [Expr.rename, Expr.subst_subst, Expr.subst_eq_subst_iff]
    intro x hx
    show (Substitution.ofPairs ((f.params.map r).zip args) (r x)).getD (.var (r x)) = _
    by_cases hp : x ∈ f.params
    · rw [Substitution.ofPairs_map_fst_zip fun y hy => hr.injective x hp y hy]
      cases hs : Substitution.ofPairs (f.params.zip args) x with
      | none => exact absurd hp ((Substitution.ofPairs_zip_eq_none hlen).1 hs)
      | some arg => rfl
    · -- a name of the bound that is no parameter keeps its name, and no parameter gets it
      have hnew := hr.not_mem_of_mentions ⟨f, hf, Or.inr hx⟩
      rw [hr.elsewhere x hp, (Substitution.ofPairs_zip_eq_none hlen).2 hp,
        (Substitution.ofPairs_zip_eq_none (by rw [List.length_map, hlen])).2 hnew]
  · rw [if_neg hlen, if_neg hlen]
    rfl

/-- A function in the place of one with the same name is found in its place. -/
theorem Program.lookup_replace {pre post : List Function} {f' : Function} (hname : f'.name = f.name)
    (callee : String) :
    Program.lookup ⟨pre ++ f' :: post⟩ callee = Program.lookup ⟨pre ++ f :: post⟩ callee
      ∨ Program.lookup ⟨pre ++ f' :: post⟩ callee = .ok f'
        ∧ Program.lookup ⟨pre ++ f :: post⟩ callee = .ok f := by
  by_cases hc : f.name = callee
  · simp only [Program.lookup, List.filter_append, List.filter_cons, hname, hc, decide_true, if_true]
    cases pre.filter (fun g => g.name = callee) with
    | nil =>
        cases post.filter (fun g => g.name = callee) with
        | nil => exact Or.inr ⟨rfl, rfl⟩
        | cons g gs => exact Or.inl rfl
    | cons g gs =>
        cases gs with
        | nil => exact Or.inl rfl
        | cons g' gs => exact Or.inl (by simp)
  · refine Or.inl ?_
    simp [Program.lookup, hname, hc]

/-- The costs of all commands stay the same if a function is replaced by one with the same name that claims the same
at all arguments. -/
theorem Command.cost_replace {pre post : List Function} {f' : Function} (hname : f'.name = f.name)
    (hbound : ∀ args, f'.boundAt args = f.boundAt args) (c : Command) :
    c.cost ⟨pre ++ f' :: post⟩ m = c.cost ⟨pre ++ f :: post⟩ m := by
  induction c with
  | pass => rfl
  | call callee args =>
      simp only [cost]
      rcases Program.lookup_replace hname callee with h | ⟨h', h⟩
      · rw [h]
      · rw [h', h]
        show (f'.boundAt args >>= _) = (f.boundAt args >>= _)
        rw [hbound]
  | block a b iha ihb => simp only [cost, iha, ihb]
  | choose c a b iha ihb => simp only [cost, iha, ihb]

/-! ### The renamed body -/

theorem CostModel.charge_inj {a b : Expr} : m.charge a = m.charge b ↔ a = b := by
  unfold charge
  split
  · rfl
  · simp

theorem CostModel.rename_charge (b : Expr) : (m.charge b).rename r = m.charge (b.rename r) := by
  unfold charge
  split
  · rfl
  · rfl

/-- **Cost of a renamed command.** It exists if the cost does, and it is the renamed cost exactly if the names that
bounds of callees have beside their parameters are left alone. -/
theorem Command.cost_rename {c : Command} {e : Expr} (h : c.cost p m = .ok e) :
    ∃ e', (c.rename r).cost p m = .ok e' ∧
      (e' = e.rename r ↔ ∀ callee ∈ c.callees, ∀ g, p.lookup callee = .ok g →
        ∀ x ∈ g.bound.names, x ∉ g.params → r x = x) := by
  induction c generalizing e with
  | pass =>
      cases h
      exact ⟨.int 0, rfl, iff_of_true rfl (by simp [callees])⟩
  | call callee args =>
      obtain ⟨g, hg, hlen, rfl⟩ := cost_call_eq_ok.1 h
      refine ⟨_, cost_call_eq_ok.2 ⟨g, hg, by rw [hlen, List.length_map], rfl⟩, ?_⟩
      rw [CostModel.rename_charge, CostModel.charge_inj, Expr.rename, Expr.subst_subst,
        Expr.subst_eq_subst_iff]
      simp only [callees, List.mem_singleton, forall_eq, hg, Except.ok.injEq, forall_eq']
      -- name by name: a parameter's argument is renamed on both sides, any other name on the right only
      refine forall₂_congr fun x hx => ?_
      rw [Substitution.ofPairs_zip_map, ← Substitution.ofPairs_zip_eq_none hlen]
      cases Substitution.ofPairs (g.params.zip args) x with
      | none => simp [Expr.subst, eq_comm]
      | some arg => simp [Expr.rename]
  | block a b iha ihb =>
      obtain ⟨x, y, hx, hy, rfl⟩ := cost_block_eq_ok.1 h
      obtain ⟨x', hx', hiffa⟩ := iha hx
      obtain ⟨y', hy', hiffb⟩ := ihb hy
      refine ⟨_, cost_block_eq_ok.2 ⟨x', y', hx', hy', rfl⟩, ?_⟩
      show Expr.binary .add x' y' = .binary .add (x.rename r) (y.rename r) ↔ _
      simp only [Expr.binary.injEq, true_and, hiffa, hiffb, callees, List.mem_append, or_imp,
        forall_and]
  | choose c a b iha ihb =>
      obtain ⟨x, y, hx, hy, rfl⟩ := cost_choose_eq_ok.1 h
      obtain ⟨x', hx', hiffa⟩ := iha hx
      obtain ⟨y', hy', hiffb⟩ := ihb hy
      refine ⟨_, cost_choose_eq_ok.2 ⟨x', y', hx', hy', rfl⟩, ?_⟩
      show Expr.cond (c.rename r) x' y' = .cond (c.rename r) (x.rename r) (y.rename r) ↔ _
      simp only [Expr.cond.injEq, true_and, hiffa, hiffb, callees, List.mem_append, or_imp,
        forall_and]

theorem Function.Renames.cost_rename_iff (hr : f.Renames p r) {e : Expr}
    (h : f.body.cost p m = .ok e) :
    ∃ e', (f.rename r).body.cost p m = .ok e' ∧ (e' = e.rename r ↔ ¬ f.Captures p) := by
  obtain ⟨e', he', hiff⟩ := Command.cost_rename (r := r) h
  refine ⟨e', he', hiff.trans ?_⟩
  constructor
  · intro hsame hcap
    obtain ⟨callee, hcallee, g, hg, x, hx, hown, hcaller⟩ := hcap
    have hmention : p.Mentions x := ⟨g, (Program.mem_of_lookup hg).1, Or.inr hx⟩
    exact (hr.apply_eq_self_iff hmention).1 (hsame callee hcallee g hg x hx hown) hcaller
  · intro hcap callee hcallee g hg x hx hown
    refine hr.elsewhere x fun hcaller => ?_
    exact hcap ⟨callee, hcallee, g, hg, x, hx, hown, hcaller⟩

/-! ### The renamed obligation -/

theorem Obligation.claim_rename (params : List String) (cost bound : Expr) :
    (claim params cost bound).rename r
      = claim (params.map r) (cost.rename r) (bound.rename r) := by
  induction params with
  | nil => rfl
  | cons x params ih =>
      rw [List.map_cons, claim_cons, claim_cons, ← ih]
      rfl

theorem Expr.type?_rename_eq_ok {e : Expr} {t : Ty} :
    (e.rename r).type? = .ok t ↔ e.type? = .ok t :=
  type?_subst_eq_ok fun _ _ => rfl

/-- Beside the parameters, the names of an expression stay what they were. -/
theorem Function.Renames.outer_names_rename (hr : f.Renames p r) {e : Expr}
    (he : ∀ x ∈ e.names, x ∉ f.params → p.Mentions x) :
    (e.rename r).names.filter (fun x => x ∉ (f.rename r).params)
      = e.names.filter fun x => x ∉ f.params := by
  refine List.Pairwise.eq_of_mem_iff ((Expr.names_pairwise _).filter _)
    ((Expr.names_pairwise _).filter _) ?_
  intro x
  show _ ∈ List.filter (fun x => x ∉ f.params.map r) _ ↔ _
  simp only [List.mem_filter, decide_eq_true_eq, Expr.mem_names_rename]
  constructor
  · intro h
    obtain ⟨⟨y, hy, rfl⟩, hnew⟩ := h
    have hyp : y ∉ f.params := fun hp => hnew (List.mem_map_of_mem hp)
    rw [hr.elsewhere y hyp]
    exact ⟨hy, hyp⟩
  · intro h
    obtain ⟨hx, hp⟩ := h
    exact ⟨⟨x, hx, (hr.elsewhere x hp).symm⟩, hr.not_mem_of_mentions (he x hx hp)⟩

/-- The names of a formula are parameters or mentioned in the program. -/
theorem Program.mentions_of_mem_formula (hf : f ∈ p.functions) {e : Expr}
    (h : f.body.cost p m = .ok e) {x : String}
    (hx : x ∈ (Obligation.ofFunction f e).formula.names) : p.Mentions x := by
  rw [Obligation.ofFunction_formula, Obligation.mem_names_claim] at hx
  rcases hx with hx | hx | hx
  · exact ⟨f, hf, Or.inl hx⟩
  · rcases Command.mem_names_cost h hx with hx | ⟨g, hg, hx, _⟩
    · exact ⟨f, hf, Or.inl (f.closed x hx)⟩
    · exact ⟨g, hg, Or.inr hx⟩
  · exact ⟨f, hf, Or.inr hx⟩

theorem Function.Renames.outerNames_rename (hr : f.Renames p r) (hf : f ∈ p.functions) {e : Expr}
    (h : f.body.cost p m = .ok e) :
    (f.rename r).outerNames (e.rename r) = f.outerNames e := by
  have hformula : (Obligation.ofFunction (f.rename r) (e.rename r)).formula
      = (Obligation.ofFunction f e).formula.rename r :=
    (Obligation.claim_rename f.params e f.bound).symm
  rw [Function.outerNames_eq, Function.outerNames_eq, hformula]
  exact hr.outer_names_rename fun x hx _ => Program.mentions_of_mem_formula hf h hx

/-- The obligation of the renamed function with the renamed cost is the renamed obligation. -/
theorem Function.Renames.ofFunction_rename (hr : f.Renames p r) (hf : f ∈ p.functions) {e : Expr}
    (h : f.body.cost p m = .ok e) :
    Obligation.ofFunction (f.rename r) (e.rename r) = (Obligation.ofFunction f e).rename r := by
  have hbinders : (Obligation.ofFunction (f.rename r) (e.rename r)).binders
      = (Obligation.ofFunction f e).binders.map r := by
    have hothers : ∀ x ∈ (f.outerNames e).filter fun x => (Unknown.Kind.ofName? x).isNone,
        r x = x := by
      intro x hx
      exact hr.elsewhere x (Function.mem_outerNames.1 (List.mem_filter.1 hx).1).2
    rw [Obligation.ofFunction_binders, Obligation.ofFunction_binders, hr.outerNames_rename hf h,
      List.map_append, List.map_congr_left hothers, List.map_id']
    rfl
  rw [show (Obligation.ofFunction f e).rename r = ⟨f.name, f.params.map r,
      (Obligation.ofFunction f e).binders.map r, e.rename r, f.bound.rename r,
      (Obligation.claim f.params e f.bound).rename r⟩ from rfl, ← hbinders,
    Obligation.claim_rename]
  rfl

end

/-! ### The query -/

/-- The program with other names in its function number `i`. -/
def Program.renameAt (i : Nat) (r : String → String) (p : Program) : Program :=
  ⟨p.functions.modify i (·.rename r)⟩

/-- The query with other names in its obligation number `i`. -/
def Query.renameAt (i : Nat) (r : String → String) (q : Query) : Query :=
  ⟨q.unknowns, q.obligations.modify i (·.rename r)⟩

/-- The costs of a program around one of its functions. -/
theorem Program.costs_append {pre post : List Function} {f : Function} {m : CostModel}
    {costs : List Expr} :
    Program.costs ⟨pre ++ f :: post⟩ m = .ok costs ↔
      ∃ cpre e cpost, costs = cpre ++ e :: cpost ∧ pre.length = cpre.length
        ∧ pre.mapM (fun g => g.body.cost ⟨pre ++ f :: post⟩ m) = .ok cpre
        ∧ f.body.cost ⟨pre ++ f :: post⟩ m = .ok e
        ∧ post.mapM (fun g => g.body.cost ⟨pre ++ f :: post⟩ m) = .ok cpost := by
  simp only [Program.costs, List.mapM_append, List.mapM_cons, except_bind_eq_ok]
  constructor
  · intro h
    obtain ⟨cpre, hpre, rest, ⟨e, he, cpost, hpost, hrest⟩, hcosts⟩ := h
    cases hrest
    cases hcosts
    exact ⟨cpre, e, cpost, rfl, (mapM_eq_ok.1 hpre).length_eq, hpre, he, hpost⟩
  · intro h
    obtain ⟨cpre, e, cpost, rfl, _, hpre, he, hpost⟩ := h
    exact ⟨cpre, hpre, _, ⟨e, he, cpost, hpost, rfl⟩, rfl⟩

/-- A query around the obligation of one of the functions. -/
theorem Query.ofCosts_append {pre post : List Function} {f : Function} {cpre cpost : List Expr}
    {e : Expr} (hlen : pre.length = cpre.length) :
    ofCosts ((pre ++ f :: post).zip (cpre ++ e :: cpost)) =
      ⟨(Names.unions ((pre.zip cpre).map (fun fc => fc.1.outerNames fc.2) ++ f.outerNames e
          :: (post.zip cpost).map fun fc => fc.1.outerNames fc.2)).filterMap Unknown.ofName?,
        (pre.zip cpre).map (fun fc => .ofFunction fc.1 fc.2) ++ .ofFunction f e
          :: (post.zip cpost).map fun fc => .ofFunction fc.1 fc.2⟩ := by
  simp only [ofCosts, List.zip_append hlen, List.zip_cons_cons, List.map_append, List.map_cons]

theorem modify_append_cons {α : Type} {pre post : List α} {a : α} {g : α → α} {i : Nat}
    (h : pre.length = i) : (pre ++ a :: post).modify i g = pre ++ g a :: post := by
  subst h
  induction pre with
  | nil => rfl
  | cons b pre ih => rw [List.cons_append, List.length_cons, List.modify_succ_cons, ih]; rfl

/-- After a renaming the costs of all other functions are the same. -/
theorem Function.Renames.costs_rename {pre post : List Function} {f : Function} {m : CostModel}
    {r : String → String} (hr : f.Renames ⟨pre ++ f :: post⟩ r) {costs : List Expr}
    (h : Program.costs ⟨pre ++ f :: post⟩ m = .ok costs) :
    ∃ cpre e e' cpost, costs = cpre ++ e :: cpost ∧ pre.length = cpre.length
      ∧ f.body.cost ⟨pre ++ f :: post⟩ m = .ok e
      ∧ Program.costs ⟨pre ++ f.rename r :: post⟩ m = .ok (cpre ++ e' :: cpost)
      ∧ (e' = e.rename r ↔ ¬ f.Captures ⟨pre ++ f :: post⟩) := by
  obtain ⟨cpre, e, cpost, rfl, hlen, hcpre, he, hcpost⟩ := Program.costs_append.1 h
  obtain ⟨e', he', hiff⟩ := hr.cost_rename_iff he
  have hsame : ∀ c : Command, c.cost ⟨pre ++ f.rename r :: post⟩ m = c.cost ⟨pre ++ f :: post⟩ m :=
    Command.cost_replace rfl (hr.boundAt_rename (by simp))
  refine ⟨cpre, e, e', cpost, rfl, hlen, he, ?_, hiff⟩
  refine Program.costs_append.2 ⟨cpre, e', cpost, rfl, hlen, ?_, ?_, ?_⟩
  · simp only [hsame, hcpre]
  · rw [hsame, he']
  · simp only [hsame, hcpost]

/-- **Hygiene.** Renaming the parameters of one function to fresh names changes the query in this way only: the
names in that function's own obligation change along. This holds exactly if the function captures no name. -/
theorem Program.query_renameAt_iff {p : Program} {m : CostModel} {q : Query} (hq : p.query m = .ok q)
    {i : Nat} {f : Function} (hf : p.functions[i]? = some f) {r : String → String}
    (hr : f.Renames p r) :
    (p.renameAt i r).query m = .ok (q.renameAt i r) ↔ ¬ f.Captures p := by
  -- the program with the function in its place, before and after
  obtain ⟨hi, _⟩ := List.getElem?_eq_some_iff.1 hf
  obtain ⟨pre, f₁, post, hsplit, hpre, hmod⟩ := List.exists_of_modify (·.rename r) hi
  have hf₁ : f₁ = f := by simpa [hsplit, ← hpre] using hf
  have hp : p = ⟨pre ++ f :: post⟩ := by rw [← hf₁, ← hsplit]
  have hp' : p.renameAt i r = ⟨pre ++ f.rename r :: post⟩ := by
    rw [Program.renameAt, hmod, hf₁]
  rw [hp']
  subst hp
  obtain ⟨costs, hcosts, rfl, htypes⟩ := query_eq_ok.1 hq
  obtain ⟨cpre, e, e', cpost, rfl, hlen, he, hcosts', hiff⟩ := hr.costs_rename hcosts
  have hlength : ((pre.zip cpre).map fun fc => Obligation.ofFunction fc.1 fc.2).length = i := by
    rw [List.length_map, List.length_zip, ← hlen, Nat.min_self, hpre]
  rw [Query.ofCosts_append hlen] at htypes ⊢
  rw [query_eq_ok, ← hiff, Query.renameAt, modify_append_cons hlength]
  -- the two queries can differ in the cost of this one obligation only
  constructor
  · intro h
    obtain ⟨costs, hc, hquery, _⟩ := h
    rw [hcosts'] at hc
    cases hc
    rw [Query.ofCosts_append hlen] at hquery
    have hobligations := List.append_cancel_left (congrArg Query.obligations hquery)
    exact (congrArg Obligation.cost (List.cons.inj hobligations).1).symm
  · intro h
    subst h
    refine ⟨_, hcosts', ?_, ?_⟩
    · rw [Query.ofCosts_append hlen, hr.ofFunction_rename (by simp) he,
        hr.outerNames_rename (by simp) he]
    · intro o ho
      rcases List.mem_append.1 ho with ho | ho
      · exact htypes o (List.mem_append_left _ ho)
      · rcases List.mem_cons.1 ho with rfl | ho
        · exact Expr.type?_rename_eq_ok.2 (htypes _ (List.mem_append_right _ List.mem_cons_self))
        · exact htypes o (List.mem_append_right _ (List.mem_cons_of_mem _ ho))

/-! ### A captured name -/

namespace Capturing

/-- Claims `k`, which is no parameter of its own. -/
def callee : Function := ⟨"g", ["n"], .pass, .var "k", by decide⟩

/-- Calls the other function and has a parameter `k`. -/
def caller : Function := ⟨"f", ["k"], .call "g" [.var "k"], .var "k", by decide⟩

def program : Program := ⟨[callee, caller]⟩

/-- Gives one name up for `z`. -/
def toZ (x y : String) : String := if y = x then "z" else y

theorem not_mentions_z : ¬ program.Mentions "z" := by
  simp [Program.Mentions, program, callee, caller, Expr.names]

theorem renames {f : Function} {x : String} (hf : f.params = [x]) : f.Renames program (toZ x) where
  injective := by
    intro y hy z hz _
    rw [hf, List.mem_singleton] at hy hz
    rw [hy, hz]
  elsewhere := by
    intro y hy
    rw [hf, List.mem_singleton] at hy
    exact if_neg hy
  fresh := by
    intro y hy
    rw [hf, List.mem_singleton] at hy
    rw [toZ, if_pos hy]
    exact not_mentions_z

end Capturing

/-- The callee's parameter can be renamed, the caller's cannot: its cost keeps the callee's `k`, which then is no
parameter any more. -/
theorem Program.query_renameAt_capturing :
    ∃ q, Capturing.program.query .unitCalls = .ok q
      ∧ (Capturing.program.renameAt 0 (Capturing.toZ "n")).query .unitCalls
          = .ok (q.renameAt 0 (Capturing.toZ "n"))
      ∧ (Capturing.program.renameAt 1 (Capturing.toZ "k")).query .unitCalls
          ≠ .ok (q.renameAt 1 (Capturing.toZ "k")) := by
  have hq : Capturing.program.query .unitCalls =
      .ok (Query.ofCosts (Capturing.program.functions.zip _)) := rfl
  refine ⟨_, hq, ?_, ?_⟩
  · refine (query_renameAt_iff hq rfl (Capturing.renames rfl)).2 ?_
    intro h
    obtain ⟨callee, hcallee, _⟩ := h
    exact absurd hcallee (by simp [Capturing.callee, Command.callees])
  · intro h
    refine (query_renameAt_iff hq rfl (Capturing.renames rfl)).1 h ?_
    exact ⟨"g", List.mem_cons_self, Capturing.callee, rfl, "k", List.mem_cons_self, by decide, by decide⟩

end CostBound
