import Mathlib.Data.List.Perm.Basic
import CostBound.Proofs.Outcome
import CostBound.Proofs.Renaming

/-!
# What an obligation depends on

Calls are not unfolded, so the obligation of a function depends on the function itself and on what the functions that it
calls claim. Their bodies, the rest of the program and the order of the definitions have no say in it.

* `Program.ClaimsAlike` — two programs claim the same for a name.
* `Command.cost_congr` — a command has the same cost, or the same error, where its callees claim the same.
* `Program.exists_query_iff_cost` — there is a query if every function has a cost and a well-typed formula.
* `Program.query_local` — two programs with a function in common, and programs that differ in the order of functions.
-/

namespace CostBound

/-- As many functions have the name in one program as in the other. If it is one in each, the two have the same
parameters and claim the same bound. -/
structure Program.ClaimsAlike (p p' : Program) (name : String) : Prop where
  count_eq : p'.functions.countP (fun f => f.name = name) = p.functions.countP (fun f => f.name = name)
  claim_eq : ∀ g g', p.functions.filter (fun f => f.name = name) = [g] →
    p'.functions.filter (fun f => f.name = name) = [g'] → g'.params = g.params ∧ g'.bound = g.bound

section

variable {p p' : Program} {m : CostModel}

/-! ### Costs -/

/-- The functions that a name stands for claim the same at all arguments; or it stands for none, for the same reason. -/
theorem Program.ClaimsAlike.lookup_agree {name : String} (h : p.ClaimsAlike p' name) :
    Agree (fun g g' => ∀ args, g'.boundAt args = g.boundAt args) (p.lookup name) (p'.lookup name) := by
  obtain ⟨hcount, hclaim⟩ := h
  rw [List.countP_eq_length_filter, List.countP_eq_length_filter] at hcount
  have hname : ∀ g, p.functions.filter (fun f => f.name = name) = [g] → g.name = name :=
    fun g hg => (mem_of_lookup (lookup_eq_ok.2 hg)).2
  have hname' : ∀ g', p'.functions.filter (fun f => f.name = name) = [g'] → g'.name = name :=
    fun g' hg' => (mem_of_lookup (lookup_eq_ok.2 hg')).2
  unfold lookup
  generalize p.functions.filter (fun f => f.name = name) = found at *
  generalize p'.functions.filter (fun f => f.name = name) = found' at *
  match found, found', hcount with
  | [], [], _ => exact .error _
  | [g], [g'], _ =>
      obtain ⟨hparams, hbound⟩ := hclaim g g' rfl rfl
      refine .ok fun args => ?_
      rw [Function.boundAt, Function.boundAt, hparams, hbound, hname g rfl, hname' g' rfl]
  | _ :: _ :: _, _ :: _ :: _, hcount =>
      simp only [hcount]
      exact .error _

/-- **Cost and claims.** The cost of a command, or the error in its place, depends on what its callees claim only. -/
theorem Command.cost_congr {c : Command} (h : ∀ name ∈ c.callees, p.ClaimsAlike p' name) :
    c.cost p' m = c.cost p m := by
  induction c with
  | pass => rfl
  | call callee args =>
      have hagree := (h callee (List.mem_singleton_self callee)).lookup_agree
      simp only [cost]
      generalize p.lookup callee = found at hagree
      generalize p'.lookup callee = found' at hagree
      cases hagree with
      | @ok g g' hbound =>
          show (g'.boundAt args >>= _) = (g.boundAt args >>= _)
          rw [hbound args]
      | error e => rfl
  | block a b iha ihb =>
      rw [callees, List.forall_mem_append] at h
      rw [cost, cost, iha h.1, ihb h.2]
  | choose test a b iha ihb =>
      rw [callees, List.forall_mem_append] at h
      rw [cost, cost, iha h.1, ihb h.2]

/-- The order of functions has no say in what is claimed for a name. -/
theorem Program.claimsAlike_of_perm (h : p.functions.Perm p'.functions) (name : String) : p.ClaimsAlike p' name where
  count_eq := (h.countP_eq _).symm
  claim_eq := by
    intro g g' hg hg'
    have hfilter := h.filter fun f => f.name = name
    rw [hg, hg', List.singleton_perm_singleton] at hfilter
    rw [hfilter]
    exact ⟨rfl, rfl⟩

end

namespace Program

variable {p p' : Program} {m : CostModel} {q q' : Query}

/-! ### Queries -/

/-- **A query exists function by function.** -/
theorem exists_query_iff_cost :
    (∃ q, p.query m = .ok q) ↔ ∀ f ∈ p.functions, ∃ e, f.body.cost p m = .ok e
      ∧ (Obligation.ofFunction f e).formula.type? = .ok .bool := by
  rw [exists_query_iff]
  constructor
  · intro h f hf
    obtain ⟨hcalls, htyped⟩ := h
    obtain ⟨e, he⟩ := Command.exists_cost_iff (m := m).2 fun c hc => hcalls c (List.mem_flatMap_of_mem hf hc)
    exact ⟨e, he, (Function.typed_iff he).2 (htyped f hf)⟩
  · intro h
    refine ⟨fun c hc => ?_, fun f hf => ?_⟩
    · obtain ⟨f, hf, hcf⟩ := List.mem_flatMap.1 hc
      obtain ⟨e, he, -⟩ := h f hf
      exact Command.exists_cost_iff.1 ⟨e, he⟩ c hcf
    · obtain ⟨e, he, ht⟩ := h f hf
      exact (Function.typed_iff he).1 ht

theorem getElem?_obligations_eq_none (hq : p.query m = .ok q) {i : Nat} :
    q.obligations[i]? = none ↔ p.functions[i]? = none := by
  rw [List.getElem?_eq_none_iff, List.getElem?_eq_none_iff, length_obligations hq]

/-- **Obligations are local.** Let two programs have a function in common and claim the same for each name that it
calls. Then its cost, or the error in its place, is the same in both, and so is its obligation in their queries. In
particular, functions in another order have a query if they had one before, with the obligations in the new order and
with the same unknowns. -/
theorem query_local (p p' : Program) (m : CostModel) :
    (∀ f ∈ p.functions, f ∈ p'.functions → (∀ name ∈ f.body.callees, p.ClaimsAlike p' name) →
        f.body.cost p' m = f.body.cost p m
          ∧ ∀ q q', p.query m = .ok q → p'.query m = .ok q' →
            ∀ i j : Nat, p.functions[i]? = some f → p'.functions[j]? = some f →
              ∃ o, q.obligations[i]? = some o ∧ q'.obligations[j]? = some o)
      ∧ (p.functions.Perm p'.functions →
        ((∃ q', p'.query m = .ok q') ↔ ∃ q, p.query m = .ok q)
          ∧ ∀ q q', p.query m = .ok q → p'.query m = .ok q' →
            q'.unknowns = q.unknowns
              ∧ ∀ i j : Nat, p'.functions[j]? = p.functions[i]? → q'.obligations[j]? = q.obligations[i]?) := by
  refine ⟨fun f _ _ hclaims => ?_, fun hperm => ?_⟩
  · have hcost : f.body.cost p' m = f.body.cost p m := Command.cost_congr hclaims
    refine ⟨hcost, fun q q' hq hq' i j hi hj => ?_⟩
    obtain ⟨e, he, ho⟩ := getElem?_obligations hq hi
    obtain ⟨e', he', ho'⟩ := getElem?_obligations hq' hj
    cases he.symm.trans (hcost.symm.trans he')
    exact ⟨_, ho, ho'⟩
  · have hcost : ∀ c : Command, c.cost p' m = c.cost p m :=
      fun c => Command.cost_congr fun name _ => claimsAlike_of_perm hperm name
    refine ⟨?_, fun q q' hq hq' => ⟨?_, fun i j hij => ?_⟩⟩
    · simp only [exists_query_iff_cost, hcost, hperm.mem_iff]
    · refine unknowns_eq_of_names hq hq' fun x => ?_
      simp only [mem_obligations hq, mem_obligations hq', hcost, hperm.mem_iff]
    · cases hi : p.functions[i]? with
      | none =>
          rw [(getElem?_obligations_eq_none hq).2 hi, getElem?_obligations_eq_none hq', hij, hi]
      | some f =>
          obtain ⟨e, he, ho⟩ := getElem?_obligations hq hi
          obtain ⟨e', he', ho'⟩ := getElem?_obligations hq' (hij.trans hi)
          cases he.symm.trans ((hcost _).symm.trans he')
          rw [ho, ho']

/-- Claims twice its argument and does nothing, or calls itself: its body has no say in the cost of a caller. -/
def doubling (body : Command) (closed : ∀ x ∈ body.names, x ∈ ["depth"]) : Function :=
  ⟨"g", ["depth"], body, .binary .add (.var "depth") (.var "depth"), closed⟩

/-- Calls the former with one less. -/
def stepping : Function :=
  ⟨"f", ["rest"], .call "g" [.binary .sub (.var "rest") (.int 1)], .binary .mul (.var "c0__1") (.var "rest"),
    by decide⟩

/-- The caller and a callee that does nothing. -/
def idle : Program := ⟨[doubling .pass (by decide), stepping]⟩

/-- The caller and a callee that calls itself, with a function between them. -/
def busy : Program :=
  ⟨[stepping, ⟨"h", ["c1__2"], .call "f" [.var "c1__2"], .var "c0__3", by decide⟩,
    doubling (.call "g" [.var "depth"]) (by decide)]⟩

/-- The obligation of the caller is number one in the first query and number zero in the second; and the first program
turned round has the first query turned round. -/
theorem query_local_stepping :
    ∃ q q' q'', idle.query .unitCalls = .ok q ∧ busy.query .unitCalls = .ok q'
      ∧ query ⟨idle.functions.reverse⟩ .unitCalls = .ok q''
      ∧ idle.ClaimsAlike busy "g"
      ∧ (∃ o, q.obligations[1]? = some o ∧ q'.obligations[0]? = some o)
      ∧ q''.unknowns = q.unknowns ∧ q''.obligations[0]? = q.obligations[1]? := by
  have hq : idle.query .unitCalls = .ok (Query.ofCosts (idle.functions.zip _)) := rfl
  have hq' : busy.query .unitCalls = .ok (Query.ofCosts (busy.functions.zip _)) := rfl
  have hq'' : query ⟨idle.functions.reverse⟩ .unitCalls = .ok (Query.ofCosts (idle.functions.reverse.zip _)) := rfl
  have hclaims : idle.ClaimsAlike busy "g" := by
    refine ⟨rfl, fun g g' hg hg' => ?_⟩
    cases hg
    cases hg'
    exact ⟨rfl, rfl⟩
  have hcommon := (query_local idle busy .unitCalls).1 stepping (by decide) (by decide)
    (List.forall_mem_singleton.2 hclaims)
  obtain ⟨hunknowns, hplaces⟩ := ((query_local idle ⟨idle.functions.reverse⟩ .unitCalls).2
    (List.reverse_perm idle.functions).symm).2 _ _ hq hq''
  exact ⟨_, _, _, hq, hq', hq'', hclaims, hcommon.2 _ _ hq hq' 1 0 rfl rfl, hunknowns, hplaces 1 0 rfl⟩

end Program

end CostBound
