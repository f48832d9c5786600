import CostBound.Proofs.Script

/-!
# When a program has a query, and why not

A program has a query if every call in it stands for a function and its conditions, bounds and charges have the right
types. Calls are looked at first: the first one that stands for no function is reported, whatever the types are.

* `Command.calls`, `Command.tests`, `Program.calls` — calls and conditions, in the order of the text.
* `Call.Names`, `Call.Resolves`, `Call.Fault` — the function that a call stands for, or the error if there is none.
* `FirstFault` — the fault of the first call that does not resolve.
* `Command.exists_cost_iff`, `Command.cost_eq_error` — a cost exists if all calls resolve; else it is the first fault.
* `Command.type?_cost` — a cost is an integer if all conditions are propositions and all charges are integers.
* `Program.query_outcome` — the three outcomes of a query.
-/

namespace CostBound

/-! ### Calls and conditions -/

/-- Whom a call calls, and with which arguments. -/
structure Call where
  callee : String
  args : List Expr

namespace Command

/-- The calls of a command, in both branches of every choice. -/
def calls : Command → List Call
  | pass => []
  | call callee args => [⟨callee, args⟩]
  | block a b => a.calls ++ b.calls
  | choose _ a b => a.calls ++ b.calls

/-- The conditions of a command. -/
def tests : Command → List Expr
  | pass => []
  | call _ _ => []
  | block a b => a.tests ++ b.tests
  | choose test a b => test :: (a.tests ++ b.tests)

end Command

/-- The calls of a program: function by function, each body from its first line to its last. -/
def Program.calls (p : Program) : List Call := p.functions.flatMap fun f => f.body.calls

namespace Call

/-- The function is the only one with the name of the callee. -/
def Names (p : Program) (c : Call) (f : Function) : Prop :=
  p.functions.filter (fun g => g.name = c.callee) = [f]

/-- The call stands for one function, which has a parameter for each argument. -/
def Resolves (p : Program) (c : Call) : Prop := ∃ f, c.Names p f ∧ f.params.length = c.args.length

/-- What a function claims at the arguments of the call. -/
def boundOf (c : Call) (f : Function) : Expr := f.bound.subst (.ofPairs (f.params.zip c.args))

/-- Why a call does not resolve. -/
inductive Fault (p : Program) (c : Call) : ProgramError → Prop
  | undefined (h : ∀ f ∈ p.functions, f.name ≠ c.callee) : Fault p c (.undefinedFunction c.callee)
  | ambiguous {n : Nat} (h : p.functions.countP (fun f => f.name = c.callee) = n) (hn : 2 ≤ n) :
      Fault p c (.ambiguousFunction c.callee n)
  | arity {f : Function} (h : c.Names p f) (hne : f.params.length ≠ c.args.length) :
      Fault p c (.arity c.callee f.params.length c.args.length)

end Call

/-- The error is the fault of a call before which all calls resolve. -/
def FirstFault (p : Program) (calls : List Call) (e : ProgramError) : Prop :=
  ∃ before c after, calls = before ++ c :: after ∧ (∀ d ∈ before, d.Resolves p) ∧ c.Fault p e

section

variable {p : Program} {m : CostModel} {e : ProgramError}

theorem firstFault_cons {c : Call} {cs : List Call} :
    FirstFault p (c :: cs) e ↔ c.Fault p e ∨ c.Resolves p ∧ FirstFault p cs e := by
  constructor
  · intro h
    obtain ⟨before, d, after, hcalls, hbefore, hd⟩ := h
    cases before with
    | nil =>
        cases hcalls
        exact .inl hd
    | cons b before =>
        cases hcalls
        obtain ⟨hb, hbefore⟩ := List.forall_mem_cons.1 hbefore
        exact .inr ⟨hb, before, d, after, rfl, hbefore, hd⟩
  · intro h
    obtain hc | ⟨hc, before, d, after, rfl, hbefore, hd⟩ := h
    · exact ⟨[], c, cs, rfl, List.forall_mem_nil _, hc⟩
    · exact ⟨c :: before, d, after, rfl, List.forall_mem_cons.2 ⟨hc, hbefore⟩, hd⟩

theorem not_firstFault_nil : ¬ FirstFault p [] e := by
  intro h
  obtain ⟨before, c, after, hcalls, -⟩ := h
  cases before <;> cases hcalls

/-- The second list is reached if all calls of the first one resolve. -/
theorem firstFault_append {cs ds : List Call} :
    FirstFault p (cs ++ ds) e ↔ FirstFault p cs e ∨ (∀ c ∈ cs, c.Resolves p) ∧ FirstFault p ds e := by
  induction cs with
  | nil => simp [not_firstFault_nil]
  | cons c cs ih =>
      rw [List.cons_append, firstFault_cons, firstFault_cons, ih, List.forall_mem_cons]
      tauto

/-! ### Whether there is a cost -/

theorem Program.lookup_eq_error {name : String} :
    p.lookup name = .error e ↔
      (∀ f ∈ p.functions, f.name ≠ name) ∧ e = .undefinedFunction name
        ∨ ∃ n, p.functions.countP (fun f => f.name = name) = n ∧ 2 ≤ n ∧ e = .ambiguousFunction name n := by
  have hnone : (∀ f ∈ p.functions, f.name ≠ name) ↔ p.functions.filter (fun f => f.name = name) = [] := by
    simp [List.filter_eq_nil_iff]
  rw [hnone, List.countP_eq_length_filter]
  unfold lookup
  generalize p.functions.filter (fun f => f.name = name) = found
  match found with
  | [] => simp [eq_comm]
  | [f] => simp
  | f :: g :: rest => simp [eq_comm]

theorem Function.boundAt_eq_error {f : Function} {args : List Expr} :
    f.boundAt args = .error e ↔
      f.params.length ≠ args.length ∧ e = .arity f.name f.params.length args.length := by
  unfold boundAt
  split
  · rename_i h
    simp [h]
  · rename_i h
    simp [h, eq_comm]

namespace Command

theorem cost_call_eq_error {callee : String} {args : List Expr} :
    (call callee args).cost p m = .error e ↔ Call.Fault p ⟨callee, args⟩ e := by
  simp only [cost, except_bind_eq_error, Program.lookup_eq_error, Function.boundAt_eq_error]
  constructor
  · intro h
    obtain (⟨hnone, rfl⟩ | ⟨n, hn, hle, rfl⟩) | ⟨f, hf, ⟨hne, rfl⟩ | ⟨_, _, h⟩⟩ := h
    · exact .undefined hnone
    · exact .ambiguous hn hle
    · rw [(Program.mem_of_lookup hf).2]
      exact .arity (Program.lookup_eq_ok.1 hf) hne
    · cases h
  · intro h
    cases h with
    | undefined hnone => exact .inl (.inl ⟨hnone, rfl⟩)
    | ambiguous hn hle => exact .inl (.inr ⟨_, hn, hle, rfl⟩)
    | @arity f hf hne =>
        have hlookup : p.lookup callee = .ok f := Program.lookup_eq_ok.2 hf
        exact .inr ⟨f, hlookup, .inl ⟨hne, by rw [(Program.mem_of_lookup hlookup).2]⟩⟩

theorem exists_cost_iff {c : Command} :
    (∃ x, c.cost p m = .ok x) ↔ ∀ d ∈ c.calls, d.Resolves p := by
  induction c with
  | pass => exact iff_of_true ⟨_, rfl⟩ (List.forall_mem_nil _)
  | call callee args =>
      simp only [cost_call_eq_ok, Program.lookup_eq_ok, calls, List.forall_mem_singleton]
      constructor
      · intro h
        obtain ⟨_, f, hf, hlength, -⟩ := h
        exact ⟨f, hf, hlength⟩
      · intro h
        obtain ⟨f, hf, hlength⟩ := h
        exact ⟨_, f, hf, hlength, rfl⟩
  | block a b iha ihb =>
      rw [calls, List.forall_mem_append, ← iha, ← ihb]
      exact exists_bind₂_eq_ok
  | choose test a b iha ihb =>
      rw [calls, List.forall_mem_append, ← iha, ← ihb]
      exact exists_bind₂_eq_ok

theorem cost_eq_error {c : Command} : c.cost p m = .error e ↔ FirstFault p c.calls e := by
  induction c with
  | pass => exact iff_of_false (fun h => by cases h) not_firstFault_nil
  | call callee args =>
      rw [cost_call_eq_error, calls, firstFault_cons]
      simp [not_firstFault_nil]
  | block a b iha ihb =>
      rw [calls, firstFault_append, ← iha, ← ihb, ← exists_cost_iff (m := m)]
      exact bind₂_eq_error
  | choose test a b iha ihb =>
      rw [calls, firstFault_append, ← iha, ← ihb, ← exists_cost_iff (m := m)]
      exact bind₂_eq_error

end Command

theorem Program.costs_eq_error : p.costs m = .error e ↔ FirstFault p p.calls e := by
  unfold costs calls
  generalize p.functions = fs
  induction fs with
  | nil => exact iff_of_false (fun h => by cases h) not_firstFault_nil
  | cons f fs ih =>
      rw [List.mapM_cons, List.flatMap_cons, firstFault_append, ← ih, ← Command.cost_eq_error (m := m),
        ← Command.exists_cost_iff (m := m)]
      exact bind₂_eq_error

theorem Program.exists_costs_iff : (∃ costs, p.costs m = .ok costs) ↔ ∀ c ∈ p.calls, c.Resolves p := by
  unfold costs calls
  generalize p.functions = fs
  induction fs with
  | nil => exact iff_of_true ⟨[], rfl⟩ (List.forall_mem_nil _)
  | cons f fs ih =>
      rw [List.mapM_cons, List.flatMap_cons, List.forall_mem_append, ← ih, ← Command.exists_cost_iff (m := m)]
      exact exists_bind₂_eq_ok

/-! ### Types -/

/-- A cost is an integer if the conditions are propositions and what the callees claim are integers. -/
theorem Command.type?_cost {c : Command} {x : Expr} (h : c.cost p m = .ok x) :
    x.type? = .ok .int ↔
      (∀ t ∈ c.tests, t.type? = .ok .bool)
        ∧ ∀ d ∈ c.calls, ∀ f, d.Names p f → (d.boundOf f).type? = .ok .int := by
  induction c generalizing x with
  | pass =>
      cases h
      exact iff_of_true rfl ⟨List.forall_mem_nil _, List.forall_mem_nil _⟩
  | call callee args =>
      obtain ⟨f, hf, -, rfl⟩ := cost_call_eq_ok.1 h
      rw [CostModel.type?_charge, tests, calls, List.forall_mem_singleton]
      constructor
      · intro hbound
        refine ⟨List.forall_mem_nil _, fun g hg => ?_⟩
        cases (Program.lookup_eq_ok.1 hf).symm.trans hg
        exact hbound
      · intro hcall
        exact hcall.2 f (Program.lookup_eq_ok.1 hf)
  | block a b iha ihb =>
      obtain ⟨y, z, hy, hz, rfl⟩ := cost_block_eq_ok.1 h
      rw [Expr.type?_arithmetic rfl rfl, iha hy, ihb hz, tests, calls, List.forall_mem_append,
        List.forall_mem_append, and_and_and_comm]
  | choose test a b iha ihb =>
      obtain ⟨y, z, hy, hz, rfl⟩ := cost_choose_eq_ok.1 h
      rw [Expr.type?_cond_eq_ok, iha hy, ihb hz, tests, calls, List.forall_mem_cons, List.forall_mem_append,
        List.forall_mem_append]
      tauto

/-- The conditions of a function are propositions; its bound is an integer, and so is what each callee claims at the
arguments of the call. -/
structure Function.Typed (p : Program) (f : Function) : Prop where
  tests : ∀ t ∈ f.body.tests, t.type? = .ok .bool
  bound : f.bound.type? = .ok .int
  charges : ∀ c ∈ f.body.calls, ∀ g, c.Names p g → (c.boundOf g).type? = .ok .int

theorem Function.typed_iff {f : Function} {x : Expr} (h : f.body.cost p m = .ok x) :
    (Obligation.ofFunction f x).formula.type? = .ok .bool ↔ f.Typed p := by
  rw [Obligation.ofFunction_formula, Obligation.type?_claim, Command.type?_cost h]
  constructor
  · intro ht
    obtain ⟨⟨htests, hcharges⟩, hbound, -⟩ := ht
    exact ⟨htests, hbound, hcharges⟩
  · intro ht
    exact ⟨⟨ht.tests, ht.charges⟩, ht.bound, rfl⟩

theorem Program.check_eq_ok {costs : List Expr} (h : p.costs m = .ok costs) :
    (Query.ofCosts (p.functions.zip costs)).check = .ok () ↔ ∀ f ∈ p.functions, f.Typed p := by
  rw [Query.check_eq_ok]
  have hall := Query.forall₂_ofCosts (costs_eq_ok.1 h)
  generalize (Query.ofCosts (p.functions.zip costs)).obligations = os at hall ⊢
  generalize p.functions = fs at hall ⊢
  induction hall with
  | nil => exact iff_of_true (List.forall_mem_nil _) (List.forall_mem_nil _)
  | cons ho _ ih =>
      obtain ⟨x, hx, rfl⟩ := ho
      rw [List.forall_mem_cons, List.forall_mem_cons]
      exact and_congr (Function.typed_iff hx) ih

end

/-! ### Outcomes -/

namespace Program

variable {p : Program} {m : CostModel}

theorem query_eq_program_error {e : ProgramError} :
    p.query m = .error (.program e) ↔ p.costs m = .error e := by
  simp only [query, except_bind_eq_error, mapError_eq_error]
  constructor
  · intro h
    obtain ⟨e', he, heq⟩ | ⟨_, _, ⟨_, _, heq⟩ | ⟨_, _, heq⟩⟩ := h
    · cases heq
      exact he
    · cases heq
    · cases heq
  · intro h
    exact .inl ⟨e, h, rfl⟩

theorem query_eq_type_error {e : TypeError} :
    p.query m = .error (.type e) ↔
      ∃ costs, p.costs m = .ok costs ∧ (Query.ofCosts (p.functions.zip costs)).check = .error e := by
  simp only [query, except_bind_eq_error, mapError_eq_error, mapError_eq_ok]
  constructor
  · intro h
    obtain ⟨_, _, heq⟩ | ⟨costs, hcosts, ⟨e', he, heq⟩ | ⟨_, _, heq⟩⟩ := h
    · cases heq
    · cases heq
      exact ⟨costs, hcosts, he⟩
    · cases heq
  · intro h
    obtain ⟨costs, hcosts, he⟩ := h
    exact .inr ⟨costs, hcosts, .inl ⟨e, he, rfl⟩⟩

theorem exists_query_iff :
    (∃ q, p.query m = .ok q) ↔ (∀ c ∈ p.calls, c.Resolves p) ∧ ∀ f ∈ p.functions, f.Typed p := by
  rw [← exists_costs_iff (m := m)]
  constructor
  · intro h
    obtain ⟨_, hq⟩ := h
    obtain ⟨costs, hcosts, rfl, htypes⟩ := query_eq_ok.1 hq
    exact ⟨⟨costs, hcosts⟩, (check_eq_ok hcosts).1 (Query.check_eq_ok.2 htypes)⟩
  · intro h
    obtain ⟨⟨costs, hcosts⟩, htyped⟩ := h
    exact ⟨_, query_eq_ok.2 ⟨costs, hcosts, rfl, Query.check_eq_ok.1 ((check_eq_ok hcosts).2 htyped)⟩⟩

theorem exists_type_error_iff :
    (∃ e, p.query m = .error (.type e)) ↔
      (∀ c ∈ p.calls, c.Resolves p) ∧ ∃ f ∈ p.functions, ¬ f.Typed p := by
  have hill : (∃ f ∈ p.functions, ¬ f.Typed p) ↔ ¬ ∀ f ∈ p.functions, f.Typed p := by
    simp only [not_forall, exists_prop]
  rw [hill, ← exists_costs_iff (m := m)]
  constructor
  · intro h
    obtain ⟨e, he⟩ := h
    obtain ⟨costs, hcosts, hcheck⟩ := query_eq_type_error.1 he
    refine ⟨⟨costs, hcosts⟩, fun htyped => ?_⟩
    rw [(check_eq_ok hcosts).2 htyped] at hcheck
    cases hcheck
  · intro h
    obtain ⟨⟨costs, hcosts⟩, hnot⟩ := h
    cases hcheck : (Query.ofCosts (p.functions.zip costs)).check with
    | ok => exact absurd ((check_eq_ok hcosts).1 hcheck) hnot
    | error e => exact ⟨e, query_eq_type_error.2 ⟨costs, hcosts, hcheck⟩⟩

/-- **The outcome of a query.** There is a query if all calls resolve and all functions are well typed. If some call
does not resolve, the error is the fault of the first such call, whatever the types are; if all do and some function is
ill-typed, it is a type error. So the charge for calls does not decide whether there is a query, and every query has a
script. -/
theorem query_outcome (p : Program) (m : CostModel) :
    ((∃ q, p.query m = .ok q) ↔ (∀ c ∈ p.calls, c.Resolves p) ∧ ∀ f ∈ p.functions, f.Typed p)
      ∧ (∀ e, p.query m = .error (.program e) ↔ FirstFault p p.calls e)
      ∧ ((∃ c ∈ p.calls, ¬ c.Resolves p) → ∃ e, FirstFault p p.calls e ∧ p.query m = .error (.program e))
      ∧ ((∃ e, p.query m = .error (.type e)) ↔
          (∀ c ∈ p.calls, c.Resolves p) ∧ ∃ f ∈ p.functions, ¬ f.Typed p)
      ∧ (∀ m', (∃ q, p.query m' = .ok q) ↔ ∃ q, p.query m = .ok q)
      ∧ ∀ q, p.query m = .ok q → ∃ script, q.script = .ok script := by
  refine ⟨exists_query_iff, fun e => query_eq_program_error.trans costs_eq_error, ?_, exists_type_error_iff,
    fun m' => exists_query_iff.trans exists_query_iff.symm, fun q hq => ⟨_, script_eq_ok hq⟩⟩
  intro h
  obtain ⟨c, hc, hbad⟩ := h
  cases hcosts : p.costs m with
  | ok costs => exact absurd (exists_costs_iff.1 ⟨costs, hcosts⟩ c hc) hbad
  | error e => exact ⟨e, costs_eq_error.1 hcosts, query_eq_program_error.2 hcosts⟩

-- a call in the last function is reported before the bound of the first one, which is no integer
example :
    query ⟨[⟨"f", [], .pass, .bool true, by decide⟩, ⟨"g", [], .call "h" [], .int 1, by decide⟩]⟩ .unitCalls
      = .error (.program (.undefinedFunction "h")) := rfl

end Program

end CostBound
