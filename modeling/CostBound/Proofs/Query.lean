import CostBound.Proofs.Cost
import CostBound.Query.Basic

/-!
# What a query is made of

The unknowns are collected from bodies, costs and bounds, the binders from formulas. Since a body uses parameters
only, both look at the same names, and every name of a formula ends up on one side.

* `mem_names_claim` — the names of a formula are the parameters and the names of cost and bound.
* `query_eq_ok` — a query exists if all costs exist and all formulas are propositions.
* `query_forall₂`, `mem_obligations` — one obligation for each function, in order.
* `mem_unknowns_ofCosts` — the unknowns are the reserved names that some formula has beside its parameters.
* `covered_ofCosts` — every name of every formula is bound or an unknown.
-/

namespace CostBound

/-! ### Formulas -/

namespace Obligation

theorem claim_nil (cost bound : Expr) : claim [] cost bound = .binary .le cost bound := rfl

/-- One more parameter is one more way out. -/
theorem claim_cons (x : String) (params : List String) (cost bound : Expr) :
    claim (x :: params) cost bound =
      .binary .or (.binary .le (.var x) (.int 0)) (claim params cost bound) := by
  cases params <;> rfl

theorem mem_names_claim {params : List String} {cost bound : Expr} {x : String} :
    x ∈ (claim params cost bound).names ↔ x ∈ params ∨ x ∈ cost.names ∨ x ∈ bound.names := by
  induction params with
  | nil => simp [claim_nil, Expr.names]
  | cons y params ih =>
      rw [claim_cons]
      simp only [Expr.names, Expr.int, Names.mem_union, ih, List.mem_cons, List.not_mem_nil,
        or_false, or_assoc]

/-- A formula is a proposition if cost and bound are integers. -/
theorem type?_claim {params : List String} {cost bound : Expr} {t : Ty} :
    (claim params cost bound).type? = .ok t ↔
      cost.type? = .ok .int ∧ bound.type? = .ok .int ∧ t = .bool := by
  induction params generalizing t with
  | nil =>
      rw [claim_nil, Expr.type?_binary_eq_ok]
      constructor
      · intro h
        obtain ⟨s, hc, hb, hs, ht⟩ := h
        cases hs .int rfl
        exact ⟨hc, hb, ht⟩
      · intro h
        obtain ⟨hc, hb, ht⟩ := h
        exact ⟨.int, hc, hb, fun _ h => Option.some.inj h, ht⟩
  | cons x params ih =>
      rw [claim_cons, Expr.type?_binary_eq_ok]
      constructor
      · intro h
        obtain ⟨s, _, hr, _, ht⟩ := h
        obtain ⟨hc, hb, _⟩ := ih.1 hr
        exact ⟨hc, hb, ht⟩
      · intro h
        obtain ⟨hc, hb, ht⟩ := h
        exact ⟨.bool, rfl, ih.2 ⟨hc, hb, rfl⟩, fun _ h => Option.some.inj h, ht⟩

variable {f : Function} {cost : Expr}

theorem ofFunction_formula : (ofFunction f cost).formula = claim f.params cost f.bound := rfl

/-- The binders of an obligation: the parameters and the names without a reserved beginning. -/
theorem mem_binders_ofFunction {x : String} :
    x ∈ (ofFunction f cost).binders ↔
      x ∈ f.params ∨ x ∈ (ofFunction f cost).formula.names ∧ Unknown.Kind.ofName? x = none := by
  by_cases hx : x ∈ f.params
  · simp [ofFunction, hx]
  · simp [ofFunction, hx]

end Obligation

/-- The names that a function contributes beside its parameters are those of its formula. -/
theorem Function.mem_outerNames {f : Function} {cost : Expr} {x : String} :
    x ∈ f.outerNames cost ↔
      x ∈ (Obligation.ofFunction f cost).formula.names ∧ x ∉ f.params := by
  have hbody := f.closed x
  simp only [outerNames, List.mem_filter, Names.mem_unions, List.mem_cons, List.not_mem_nil,
    or_false, exists_eq_or_imp, exists_eq_left, decide_eq_true_eq,
    Obligation.ofFunction_formula, Obligation.mem_names_claim]
  tauto

theorem Function.outerNames_eq (f : Function) (cost : Expr) :
    f.outerNames cost =
      (Obligation.ofFunction f cost).formula.names.filter fun x => x ∉ f.params := by
  refine List.Pairwise.eq_of_mem_iff ((Names.unions_pairwise _).filter _)
    ((Expr.names_pairwise _).filter _) ?_
  intro x
  rw [List.mem_filter, decide_eq_true_eq]
  exact mem_outerNames

theorem Obligation.ofFunction_binders (f : Function) (cost : Expr) :
    (ofFunction f cost).binders =
      f.params ++ (f.outerNames cost).filter fun x => (Unknown.Kind.ofName? x).isNone := by
  rw [Function.outerNames_eq]
  rfl

/-- Functions with the same parameters bind the same names if their formulas differ in reserved names only. -/
theorem Obligation.binders_eq_of_names {f f' : Function} {cost cost' : Expr} (hparams : f'.params = f.params)
    (h : ∀ x, Unknown.Kind.ofName? x = none →
      (x ∈ (ofFunction f' cost').formula.names ↔ x ∈ (ofFunction f cost).formula.names)) :
    (ofFunction f' cost').binders = (ofFunction f cost).binders := by
  rw [ofFunction_binders, ofFunction_binders, hparams]
  congr 1
  -- both lists are increasing, so it is enough that they have the same members
  refine List.Pairwise.eq_of_mem_iff ((Names.unions_pairwise _).filter _ |>.filter _)
    ((Names.unions_pairwise _).filter _ |>.filter _) ?_
  intro x
  rw [List.mem_filter, List.mem_filter, Function.mem_outerNames, Function.mem_outerNames, hparams,
    Option.isNone_iff_eq_none]
  have hx := h x
  tauto

/-! ### Queries -/

namespace Unknown

theorem ofName?_eq_some {x : String} {u : Unknown} :
    ofName? x = some u ↔ u.name = x ∧ Kind.ofName? x = some u.kind := by
  obtain ⟨name, kind⟩ := u
  simp only [ofName?, Option.map_eq_some_iff, mk.injEq]
  constructor
  · intro h
    obtain ⟨k, hk, hname, hkind⟩ := h
    exact ⟨hname.symm, hkind ▸ hk⟩
  · intro h
    exact ⟨kind, h.2, h.1.symm, rfl⟩

/-- Unknowns keep the order of the names they come from. -/
theorem pairwise_filterMap_ofName? {xs : List String} (h : xs.Pairwise (· < ·)) :
    ((xs.filterMap ofName?).map (·.name)).Pairwise (· < ·) := by
  rw [List.pairwise_map, List.pairwise_filterMap]
  refine h.imp ?_
  intro x y hxy u hu u' hu'
  rw [(ofName?_eq_some.1 hu).1, (ofName?_eq_some.1 hu').1]
  exact hxy

end Unknown

theorem Query.check_eq_ok {q : Query} :
    q.check = .ok () ↔ ∀ o ∈ q.obligations, o.formula.type? = .ok .bool := by
  unfold Query.check
  generalize q.obligations = os
  induction os with
  | nil => exact iff_of_true rfl (by simp)
  | cons o os ih =>
      show (o.formula.expect .bool >>= fun _ => os.forM _) = .ok () ↔ _
      rw [except_bind_eq_ok, List.forall_mem_cons]
      constructor
      · intro h
        obtain ⟨_, ho, hos⟩ := h
        exact ⟨Expr.expect_eq_ok.1 ho, ih.1 hos⟩
      · intro h
        exact ⟨(), Expr.expect_eq_ok.2 h.1, ih.2 h.2⟩

namespace Query

/-- **Unknowns of a query.** They are the names with a reserved beginning that some formula has beside its
parameters. -/
theorem mem_unknowns_ofCosts {costs : List (Function × Expr)} {u : Unknown} :
    u ∈ (ofCosts costs).unknowns ↔
      Unknown.Kind.ofName? u.name = some u.kind
        ∧ ∃ o ∈ (ofCosts costs).obligations, u.name ∈ o.formula.names ∧ u.name ∉ o.params := by
  simp only [ofCosts, List.mem_filterMap, Unknown.ofName?_eq_some, Names.mem_unions, List.mem_map]
  constructor
  · intro h
    obtain ⟨x, ⟨_, ⟨fc, hfc, rfl⟩, hx⟩, rfl, hkind⟩ := h
    obtain ⟨hformula, hparams⟩ := Function.mem_outerNames.1 hx
    exact ⟨hkind, _, ⟨fc, hfc, rfl⟩, hformula, hparams⟩
  · intro h
    obtain ⟨hkind, _, ⟨fc, hfc, rfl⟩, hformula, hparams⟩ := h
    exact ⟨u.name, ⟨_, ⟨fc, hfc, rfl⟩, Function.mem_outerNames.2 ⟨hformula, hparams⟩⟩, rfl, hkind⟩

/-- The obligations follow the functions and their costs. -/
theorem forall₂_ofCosts {R : Function → Expr → Prop} {fs : List Function} {es : List Expr}
    (h : List.Forall₂ R fs es) :
    List.Forall₂ (fun f o => ∃ e, R f e ∧ o = .ofFunction f e) fs
      (ofCosts (fs.zip es)).obligations := by
  induction h with
  | nil => exact .nil
  | cons he _ ih => exact .cons ⟨_, he, rfl⟩ ih

theorem pairwise_unknowns_ofCosts (costs : List (Function × Expr)) :
    ((ofCosts costs).unknowns.map (·.name)).Pairwise (· < ·) :=
  Unknown.pairwise_filterMap_ofName? (Names.unions_pairwise _)

/-- Every name of a formula is bound by it or an unknown of the query. -/
theorem covered_ofCosts {costs : List (Function × Expr)} {o : Obligation}
    (ho : o ∈ (ofCosts costs).obligations) {x : String} (hx : x ∈ o.formula.names) :
    x ∈ o.binders ∨ ∃ u ∈ (ofCosts costs).unknowns, u.name = x := by
  obtain ⟨fc, _, rfl⟩ := List.mem_map.1 ho
  by_cases hp : x ∈ fc.1.params
  · exact Or.inl (Obligation.mem_binders_ofFunction.2 (Or.inl hp))
  · cases hk : Unknown.Kind.ofName? x with
    | none => exact Or.inl (Obligation.mem_binders_ofFunction.2 (Or.inr ⟨hx, hk⟩))
    | some kind => exact Or.inr ⟨⟨x, kind⟩, mem_unknowns_ofCosts.2 ⟨hk, _, ho, hx, hp⟩, rfl⟩

end Query

namespace Program

variable {p : Program} {m : CostModel} {q : Query}

/-- **Success of a query.** All costs exist and all formulas are propositions. -/
theorem query_eq_ok :
    p.query m = .ok q ↔
      ∃ costs, p.costs m = .ok costs ∧ q = Query.ofCosts (p.functions.zip costs)
        ∧ ∀ o ∈ q.obligations, o.formula.type? = .ok .bool := by
  simp only [query, except_bind_eq_ok, mapError_eq_ok]
  constructor
  · intro h
    obtain ⟨costs, hcosts, _, hcheck, hq⟩ := h
    cases hq
    exact ⟨costs, hcosts, rfl, Query.check_eq_ok.1 hcheck⟩
  · intro h
    obtain ⟨costs, hcosts, rfl, htypes⟩ := h
    exact ⟨costs, hcosts, (), Query.check_eq_ok.2 htypes, rfl⟩

/-- One obligation for each function, in order, from its derived cost. -/
theorem query_forall₂ (h : p.query m = .ok q) :
    List.Forall₂ (fun f o => ∃ e, f.body.cost p m = .ok e ∧ o = .ofFunction f e)
      p.functions q.obligations := by
  obtain ⟨costs, hcosts, rfl, _⟩ := query_eq_ok.1 h
  exact Query.forall₂_ofCosts (costs_eq_ok.1 hcosts)

/-- The obligation of each function is among them. -/
theorem exists_ofFunction_mem (h : p.query m = .ok q) {f : Function} (hf : f ∈ p.functions) :
    ∃ e, f.body.cost p m = .ok e ∧ Obligation.ofFunction f e ∈ q.obligations := by
  have hall := query_forall₂ h
  generalize p.functions = fs at hall hf
  generalize q.obligations = os at hall ⊢
  induction hall with
  | nil => cases hf
  | cons he _ ih =>
      rcases List.mem_cons.1 hf with rfl | hf
      · obtain ⟨e, he, rfl⟩ := he
        exact ⟨e, he, List.mem_cons_self⟩
      · obtain ⟨e, he, hmem⟩ := ih hf
        exact ⟨e, he, List.mem_cons_of_mem _ hmem⟩

/-- The obligation of a function stands at the place of the function. -/
theorem getElem?_obligations (h : p.query m = .ok q) {i : Nat} {f : Function} (hi : p.functions[i]? = some f) :
    ∃ e, f.body.cost p m = .ok e ∧ q.obligations[i]? = some (.ofFunction f e) := by
  have hall := query_forall₂ h
  obtain ⟨hlt, rfl⟩ := List.getElem?_eq_some_iff.1 hi
  have hlt' : i < q.obligations.length := hall.length_eq ▸ hlt
  obtain ⟨e, he, ho⟩ := hall.get hlt hlt'
  exact ⟨e, he, List.getElem?_eq_some_iff.2 ⟨hlt', ho⟩⟩

theorem length_obligations (h : p.query m = .ok q) : q.obligations.length = p.functions.length :=
  (query_forall₂ h).length_eq.symm

theorem mem_obligations (h : p.query m = .ok q) {o : Obligation} :
    o ∈ q.obligations ↔ ∃ f ∈ p.functions, ∃ e, f.body.cost p m = .ok e ∧ o = .ofFunction f e := by
  constructor
  · intro ho
    obtain ⟨i, hi⟩ := List.mem_iff_getElem?.1 ho
    have hlt : i < p.functions.length := length_obligations h ▸ (List.getElem?_eq_some_iff.1 hi).1
    obtain ⟨e, he, ho⟩ := getElem?_obligations h (List.getElem?_eq_getElem hlt)
    exact ⟨_, List.getElem_mem hlt, e, he, Option.some.inj (hi.symm.trans ho)⟩
  · rintro ⟨f, hf, e, he, rfl⟩
    obtain ⟨e', he', ho⟩ := exists_ofFunction_mem h hf
    cases he.symm.trans he'
    exact ho

/-- Two queries have the same unknowns, in the same order, if the same names occur in some formula of theirs beside its
parameters. -/
theorem unknowns_eq_of_names {p' : Program} {m' : CostModel} {q' : Query} (h : p.query m = .ok q)
    (h' : p'.query m' = .ok q')
    (hnames : ∀ x, (∃ o ∈ q'.obligations, x ∈ o.formula.names ∧ x ∉ o.params) ↔
      ∃ o ∈ q.obligations, x ∈ o.formula.names ∧ x ∉ o.params) : q'.unknowns = q.unknowns := by
  obtain ⟨costs, -, rfl, -⟩ := query_eq_ok.1 h
  obtain ⟨costs', -, rfl, -⟩ := query_eq_ok.1 h'
  have hsorted := List.pairwise_map.1 (Query.pairwise_unknowns_ofCosts (p.functions.zip costs))
  have hsorted' := List.pairwise_map.1 (Query.pairwise_unknowns_ofCosts (p'.functions.zip costs'))
  have : Std.Irrefl fun u u' : Unknown => u.name < u'.name := ⟨fun u => lt_irrefl u.name⟩
  refine hsorted'.eq_of_mem_iff hsorted fun u => ?_
  rw [Query.mem_unknowns_ofCosts, Query.mem_unknowns_ofCosts, hnames u.name]

/-- **A query is closed and minimal.** There is one obligation for each function, in order. It binds the parameters
and then, in increasing order, the other names of its formula that have no reserved beginning. The unknowns come in
increasing order and are the reserved names that some formula has beside its parameters, each with its kind. So every
name of a formula is bound or an unknown, and every unknown occurs. -/
theorem query_closed (h : p.query m = .ok q) :
    List.Forall₂ (fun f o => o.function = f.name ∧ o.params = f.params
        ∧ ∃ others, o.binders = f.params ++ others ∧ others.Pairwise (· < ·)
          ∧ ∀ x, x ∈ others ↔
              x ∈ o.formula.names ∧ x ∉ f.params ∧ Unknown.Kind.ofName? x = none)
        p.functions q.obligations
      ∧ (q.unknowns.map (·.name)).Pairwise (· < ·)
      ∧ (∀ u, u ∈ q.unknowns ↔
          Unknown.Kind.ofName? u.name = some u.kind
            ∧ ∃ o ∈ q.obligations, u.name ∈ o.formula.names ∧ u.name ∉ o.params)
      ∧ (∀ o ∈ q.obligations, ∀ x ∈ o.formula.names,
          x ∈ o.binders ∨ ∃ u ∈ q.unknowns, u.name = x)
      ∧ ∀ u ∈ q.unknowns, ∃ o ∈ q.obligations, u.name ∈ o.formula.names ∧ u.name ∉ o.binders := by
  have hall := query_forall₂ h
  obtain ⟨costs, _, rfl, _⟩ := query_eq_ok.1 h
  refine ⟨hall.imp ?_, Query.pairwise_unknowns_ofCosts _, fun u => Query.mem_unknowns_ofCosts,
    fun o ho x hx => Query.covered_ofCosts ho hx, ?_⟩
  · intro f o ho
    obtain ⟨e, _, rfl⟩ := ho
    refine ⟨rfl, rfl, _, rfl, ?_, ?_⟩
    · exact ((Expr.names_pairwise _).filter _).filter _
    · intro x
      simp only [List.mem_filter, decide_eq_true_eq, Option.isNone_iff_eq_none, and_assoc,
        Obligation.ofFunction_formula]
  · intro u hu
    obtain ⟨hkind, o, ho, hx, hp⟩ := Query.mem_unknowns_ofCosts.1 hu
    refine ⟨o, ho, hx, ?_⟩
    obtain ⟨fc, _, rfl⟩ := List.mem_map.1 ho
    intro hb
    rcases Obligation.mem_binders_ofFunction.1 hb with hb | hb
    · exact hp hb
    · rw [hkind] at hb
      exact absurd hb.2 (by simp)

/-- Two functions: what is an unknown of the first is a parameter of the second. -/
def sharing : Program :=
  ⟨[⟨"g", ["m"], .pass, .binary .add (.binary .mul (.var "c0__1") (.var "m")) (.var "k"), by decide⟩,
    ⟨"f", ["c0__1"], .call "g" [.var "c0__1"], .var "c1__2", by decide⟩]⟩

theorem query_closed_sharing :
    ∃ q, sharing.query .unitCalls = .ok q
      ∧ q.unknowns = [⟨"c0__1", .scale⟩, ⟨"c1__2", .offset⟩]
      ∧ q.obligations.map (·.binders) = [["m", "k"], ["c0__1", "k"]]
      ∧ (∀ o ∈ q.obligations, ∀ x ∈ o.formula.names,
          x ∈ o.binders ∨ ∃ u ∈ q.unknowns, u.name = x)
      ∧ ∀ u ∈ q.unknowns, ∃ o ∈ q.obligations, u.name ∈ o.formula.names ∧ u.name ∉ o.binders := by
  have hq : sharing.query .unitCalls = .ok (Query.ofCosts (sharing.functions.zip _)) := rfl
  exact ⟨_, hq, rfl, rfl, (query_closed hq).2.2.2⟩

end Program

end CostBound
