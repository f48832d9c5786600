import CostBound.Proofs.Query
import CostBound.Proofs.Term

/-!
# What a script says

A script is read as a list of commands: options, a declaration and a lower bound for each unknown, an assertion for each
obligation, and the questions at the end. The commands determine the unknowns, the binders and, up to merging, the
formulas.

* `Query.forms` — the commands of a script; `Query.Named` — the names in it are words.
* `Query.spells_forms` — the lines of a script are read as its commands.
* `Obligation.ofSexp?`, `ofSexp?_form` — binders and formula of an assertion.
* `Query.forms_eq_iff`, `Obligation.map_form_eq_iff` — when the commands of two queries are the same.
* `Program.read_script` — a script determines its query.
-/

namespace CostBound

/-! ### Commands -/

/-- The declaration of an unknown and the assertion of its least value. -/
def Unknown.forms (u : Unknown) : List Sexp :=
  [.list [.atom "declare-const", .atom u.name, .atom "Int"],
    .list [.atom "assert", .list [.atom ">=", .atom u.name, .atom u.kind.lowerBound.repr]]]

/-- The assertion of a term, for all values of some binders if there are any. -/
def Sexp.assertion (binders : List String) (body : Sexp) : Sexp :=
  .list [.atom "assert",
    if binders = [] then body
    else .list [.atom "forall", .list (binders.map fun x => .list [.atom x, .atom "Int"]), body]]

/-- The assertion of an obligation. -/
def Obligation.form (o : Obligation) : Sexp := .assertion o.binders o.formula.sexp

/-- The commands of a script. -/
def Query.forms (q : Query) : List Sexp :=
  [.list [.atom "set-option", .atom ":produce-models", .atom "true"], .list [.atom "set-logic", .atom "ALL"]]
    ++ q.unknowns.flatMap Unknown.forms
    ++ q.obligations.map Obligation.form
    ++ [.list [.atom "check-sat"]]
    ++ if q.unknowns = [] then [] else [.list [.atom "get-value", .list (q.unknowns.map fun u => .atom u.name)]]

/-- All names that a script has are words other than the truth values. -/
structure Query.Named (q : Query) : Prop where
  unknowns : ∀ u ∈ q.unknowns, IsSymbol u.name
  functions : ∀ o ∈ q.obligations, IsSymbol o.function
  binders : ∀ o ∈ q.obligations, ∀ x ∈ o.binders, IsSymbol x

open Sexp in
theorem Unknown.spells_forms {u : Unknown} (h : IsWord u.name) : Spells u.scriptLines u.forms := by
  have hname := proper_word h
  have hint : (atom "Int").Proper := .of_all rfl
  have hdeclare : (atom "declare-const").Proper := .of_all rfl
  have hassert : (atom "assert").Proper := .of_all rfl
  have hge : (atom ">=").Proper := .of_all rfl
  have hbound := proper_repr u.kind.lowerBound
  refine (spells_form ?_ ?_).append (spells_form ?_ ?_)
  · simp [chars, List.intercalate]
  · simpa using ⟨hdeclare, hname, hint⟩
  · simp [chars, List.intercalate]
  · simpa using ⟨hassert, hge, hname, hbound⟩

theorem Obligation.toList_closedTerm (o : Obligation) :
    ("(assert " ++ o.closedTerm ++ ")").toList = o.form.chars := by
  unfold closedTerm form Sexp.assertion
  by_cases h : o.binders = []
  · simp [h, Sexp.chars, List.intercalate, Expr.toList_term]
  · simp [h, Sexp.chars, List.intercalate, Expr.toList_term, String.toList_intercalate, Function.comp_def]

theorem IsWord.ne_feed {x : String} (h : IsWord x) : ∀ c ∈ x.toList, c ≠ '\n' := by
  intro c hc heq
  subst heq
  obtain ⟨d, ds, hx, hd, hds⟩ := h
  rw [hx] at hc
  obtain rfl | hc := List.mem_cons.1 hc
  · cases hd
  · cases hds _ hc

namespace Obligation

open Sexp

variable {o : Obligation}

theorem proper_form (hbinders : ∀ x ∈ o.binders, IsWord x) (hformula : ∀ x ∈ o.formula.names, IsWord x) :
    o.form.Proper := by
  have hassert : (atom "assert").Proper := .of_all rfl
  have hforall : (atom "forall").Proper := .of_all rfl
  have hint : (atom "Int").Proper := .of_all rfl
  have hterm := Expr.proper_sexp hformula
  have hnames : ∀ x ∈ o.binders, (atom x).Proper := fun x hx => proper_word (hbinders x hx)
  unfold form assertion
  by_cases h : o.binders = []
  · simpa [h] using ⟨hassert, hterm⟩
  · simpa [h, hassert, hforall, hint, hterm] using hnames

theorem spells_form (hfunction : IsWord o.function) (hbinders : ∀ x ∈ o.binders, IsWord x)
    (hformula : ∀ x ∈ o.formula.names, IsWord x) : Spells o.scriptLines [o.form] :=
  (spells_comment hfunction.ne_feed).append
    (Sexp.spells_form (toList_closedTerm o) (proper_form hbinders hformula))

end Obligation

namespace Query

open Sexp

variable {q : Query}

theorem spells_getValue (h : ∀ u ∈ q.unknowns, IsWord u.name) :
    Spells ["(get-value (" ++ " ".intercalate (q.unknowns.map (·.name)) ++ "))"]
      [.list [.atom "get-value", .list (q.unknowns.map fun u => .atom u.name)]] := by
  have hget : (atom "get-value").Proper := .of_all rfl
  have hnames : ∀ u ∈ q.unknowns, (atom u.name).Proper := fun u hu => proper_word (h u hu)
  refine spells_form ?_ ?_
  · simp [chars, List.intercalate, String.toList_intercalate, Function.comp_def]
  · simpa [hget] using hnames

theorem spells_options : Spells ["(set-option :produce-models true)", "(set-logic ALL)"]
    [.list [.atom "set-option", .atom ":produce-models", .atom "true"], .list [.atom "set-logic", .atom "ALL"]] := by
  have hset : (atom "set-option").Proper := .of_all rfl
  have hmodels : (atom ":produce-models").Proper := .of_all rfl
  have htrue : (atom "true").Proper := .of_all rfl
  have hlogic : (atom "set-logic").Proper := .of_all rfl
  have hall : (atom "ALL").Proper := .of_all rfl
  refine (spells_form ?_ ?_).append (spells_form ?_ ?_)
  · simp [chars, List.intercalate]
  · simpa using ⟨hset, hmodels, htrue⟩
  · simp [chars, List.intercalate]
  · simpa using ⟨hlogic, hall⟩

/-- The names need only be words: it is terms that the truth values stand in the way of. -/
theorem spells_forms_of_isWord (hunknowns : ∀ u ∈ q.unknowns, IsWord u.name)
    (hfunctions : ∀ o ∈ q.obligations, IsWord o.function) (hbinders : ∀ o ∈ q.obligations, ∀ x ∈ o.binders, IsWord x)
    (hformulas : ∀ o ∈ q.obligations, ∀ x ∈ o.formula.names, IsWord x) : Spells q.scriptLines q.forms := by
  have hdeclared : Spells (q.unknowns.flatMap Unknown.scriptLines) (q.unknowns.flatMap Unknown.forms) :=
    spells_flatMap fun u hu => Unknown.spells_forms (hunknowns u hu)
  have hobligations : Spells (q.obligations.flatMap Obligation.scriptLines) (q.obligations.map Obligation.form) := by
    rw [List.map_eq_flatMap]
    exact spells_flatMap fun o ho => Obligation.spells_form (hfunctions o ho) (hbinders o ho) (hformulas o ho)
  have hcheck : Spells ["(check-sat)"] [.list [.atom "check-sat"]] := by
    have hsat : (atom "check-sat").Proper := .of_all rfl
    refine spells_form ?_ ?_
    · simp [chars, List.intercalate]
    · simpa using hsat
  refine (((spells_options.append hdeclared).append hobligations).append hcheck).append ?_
  by_cases hempty : q.unknowns = []
  · simpa [hempty] using spells_nil
  · simpa [hempty] using spells_getValue hunknowns

theorem spells_forms (h : q.Named) (hformulas : ∀ o ∈ q.obligations, ∀ x ∈ o.formula.names, IsSymbol x) :
    Spells q.scriptLines q.forms :=
  spells_forms_of_isWord (fun u hu => (h.unknowns u hu).1) (fun o ho => (h.functions o ho).1)
    (fun o ho x hx => (h.binders o ho x hx).1) (fun o ho x hx => (hformulas o ho x hx).1)

/-! ### What the commands say -/

/-- The unknown that a command declares. -/
def declared? : Sexp → Option Unknown
  | .list [.atom head, .atom x, _] => if head = "declare-const" then Unknown.ofName? x else none
  | _ => none

end Query

namespace Obligation

open Sexp

/-- The binder that an item of a list of binders stands for. -/
def binder? : Sexp → Option String
  | .list [.atom x, .atom type] => if type = "Int" then some x else none
  | _ => none

/-- The binders and the body of a quantified term. -/
def quantified? : Sexp → Option (List Sexp × Sexp)
  | .list [.atom head, .list binders, body] => if head = "forall" then some (binders, body) else none
  | _ => none

/-- The binders and the formula of an assertion. -/
def ofSexp? : Sexp → Option (List String × Expr)
  | .list [.atom head, e] =>
      if head = "assert" then
        match quantified? e with
        | some (binders, body) => do return (← binders.mapM binder?, ← Expr.ofSexp? body)
        | none => do return ([], ← Expr.ofSexp? e)
      else none
  | _ => none

/-- No expression has a quantified term. -/
theorem quantified?_sexp (e : Expr) : quantified? e.sexp = none := by
  cases e with
  | binary op l r =>
      have hop : op.termSymbol ≠ "forall" := by cases op <;> decide
      rw [Expr.sexp]
      cases l.sexp with
      | atom text => rfl
      | list items => exact if_neg hop
  | var name => rfl
  | lit l =>
      cases l with
      | int n =>
          rw [Expr.sexp]
          split <;> rfl
      | bool b => cases b <;> rfl
  | unary op e =>
      rw [Expr.sexp]
      cases e.sexp <;> rfl
  | cond c t e =>
      rw [Expr.sexp]
      cases c.sexp <;> rfl

theorem mapM_binder? (xs : List String) :
    (xs.map fun x => Sexp.list [.atom x, .atom "Int"]).mapM binder? = some xs := by
  induction xs with
  | nil => rfl
  | cons x xs ih => simp [binder?, ih]

theorem ofSexp?_assertion {binders : List String} {e : Expr} (h : ∀ x ∈ e.names, IsSymbol x) :
    ofSexp? (.assertion binders e.sexp) = some (binders, e.merged) := by
  have hterm := Expr.ofSexp?_sexp h
  unfold assertion
  by_cases hb : binders = []
  · simp [ofSexp?, hb, quantified?_sexp, hterm]
  · simp [ofSexp?, hb, quantified?, hterm, mapM_binder?, -List.mapM_map]

theorem ofSexp?_form {o : Obligation} (h : ∀ x ∈ o.formula.names, IsSymbol x) :
    ofSexp? o.form = some (o.binders, o.formula.merged) :=
  ofSexp?_assertion h

/-- The assertions of some obligations are the same if binders and formulas are, up to merging. -/
theorem map_form_eq_iff {os os' : List Obligation} (h : ∀ o ∈ os, ∀ x ∈ o.formula.names, IsSymbol x)
    (h' : ∀ o ∈ os', ∀ x ∈ o.formula.names, IsSymbol x) :
    os.map form = os'.map form ↔
      (os.map fun o => (o.binders, o.formula.merged)) = os'.map fun o => (o.binders, o.formula.merged) := by
  constructor
  · have hread : ∀ {os : List Obligation}, (∀ o ∈ os, ∀ x ∈ o.formula.names, IsSymbol x) →
        (os.map form).filterMap ofSexp? = os.map fun o => (o.binders, o.formula.merged) := by
      intro os h
      rw [List.filterMap_map, ← List.filterMap_eq_map]
      exact List.filterMap_congr fun o ho => ofSexp?_form (h o ho)
    intro heq
    rw [← hread h, heq, hread h']
  · have hwrite : ∀ os : List Obligation,
        os.map form = (os.map fun o => (o.binders, o.formula.merged)).map fun c => assertion c.1 c.2.sexp := by
      intro os
      simp [form, Expr.sexp_merged]
    intro heq
    rw [hwrite os, heq, hwrite os']

end Obligation

namespace Query

variable {q q' : Query}

/-- What is collected from the commands of a script, where the first two and the questions at the end give nothing. -/
theorem flatMap_forms {β : Type} {f : Sexp → List β}
    (hoption : f (.list [.atom "set-option", .atom ":produce-models", .atom "true"]) = [])
    (hlogic : f (.list [.atom "set-logic", .atom "ALL"]) = []) (hcheck : f (.list [.atom "check-sat"]) = [])
    (hvalues : ∀ values, f (.list [.atom "get-value", .list values]) = []) :
    q.forms.flatMap f
      = (q.unknowns.flatMap fun u => u.forms.flatMap f) ++ q.obligations.flatMap fun o => f o.form := by
  have hend : ∀ values : List Sexp, (if q.unknowns = [] then []
      else [Sexp.list [.atom "get-value", .list values]]).flatMap f = [] := by
    intro values
    split
    · rfl
    · rw [List.flatMap_cons, hvalues]
      rfl
  unfold forms
  simp only [List.flatMap_append, List.flatMap_cons, List.flatMap_nil, hoption, hlogic, hcheck, hend,
    List.flatMap_assoc, List.flatMap_map, List.append_nil, List.nil_append]

/-- The unknowns are declared one by one, and nothing else is. -/
theorem filterMap_declared?_forms (h : ∀ u ∈ q.unknowns, Unknown.ofName? u.name = some u) :
    q.forms.filterMap declared? = q.unknowns := by
  have hunknown : ∀ u ∈ q.unknowns, (u.forms.flatMap fun e => (declared? e).toList) = [u] := by
    intro u hu
    have hdeclared : declared? (.list [.atom "declare-const", .atom u.name, .atom "Int"]) = some u := h u hu
    rw [Unknown.forms, List.flatMap_cons, hdeclared]
    rfl
  have hobligation : ∀ o : Obligation, declared? o.form = none := by
    intro o
    unfold Obligation.form Sexp.assertion
    generalize (if o.binders = [] then _ else _) = body
    cases body <;> rfl
  rw [List.filterMap_eq_flatMap_toList, flatMap_forms rfl rfl rfl fun _ => rfl, List.flatMap_congr hunknown]
  simp [hobligation]

theorem forms_eq_iff (h : ∀ u ∈ q.unknowns, Unknown.ofName? u.name = some u)
    (h' : ∀ u ∈ q'.unknowns, Unknown.ofName? u.name = some u) :
    q.forms = q'.forms ↔
      q.unknowns = q'.unknowns ∧ q.obligations.map Obligation.form = q'.obligations.map Obligation.form := by
  constructor
  · intro heq
    have hunknowns : q.unknowns = q'.unknowns := by
      rw [← filterMap_declared?_forms h, heq, filterMap_declared?_forms h']
    refine ⟨hunknowns, ?_⟩
    unfold forms at heq
    rw [hunknowns] at heq
    exact List.append_cancel_left (List.append_cancel_right (List.append_cancel_right heq))
  · intro heq
    unfold forms
    rw [heq.1, heq.2]

end Query

namespace Program

variable {p : Program} {m : CostModel} {q : Query}

theorem ofName?_of_mem_unknowns (hq : p.query m = .ok q) :
    ∀ u ∈ q.unknowns, Unknown.ofName? u.name = some u := by
  intro u hu
  obtain ⟨costs, -, rfl, -⟩ := query_eq_ok.1 hq
  exact Unknown.ofName?_eq_some.2 ⟨rfl, (Query.mem_unknowns_ofCosts.1 hu).1⟩

/-- Formulas have no names beside unknowns and binders. -/
theorem isSymbol_of_mem_names (hq : p.query m = .ok q) (h : q.Named) :
    ∀ o ∈ q.obligations, ∀ x ∈ o.formula.names, IsSymbol x := by
  intro o ho x hx
  obtain ⟨costs, -, rfl, -⟩ := query_eq_ok.1 hq
  obtain hbinder | ⟨u, hu, rfl⟩ := Query.covered_ofCosts ho hx
  · exact h.binders o ho x hbinder
  · exact h.unknowns u hu

theorem script_eq_ok (hq : p.query m = .ok q) :
    q.script = .ok (String.join (q.scriptLines.map (· ++ "\n"))) := by
  obtain ⟨costs, -, -, htypes⟩ := query_eq_ok.1 hq
  rw [Query.script, Query.check_eq_ok.2 htypes]
  rfl

/-- **A script determines its query.** Let all names of a query be words other than the truth values. Then there is
a script, and it is read as the commands of the query. The assertion of each obligation has its binders, and the body
stands for its formula, where the negation of a positive literal is taken for a negative literal. Two such scripts are
read as the same commands if the queries have the same unknowns in the same order and, obligation by obligation, the
same binders and the same formula up to these literals, and only then. -/
theorem read_script (hq : p.query m = .ok q) (hnamed : q.Named) :
    ∃ s, q.script = .ok s ∧ Sexp.read s = some q.forms
      ∧ (∀ o ∈ q.obligations, Obligation.ofSexp? o.form = some (o.binders, o.formula.merged))
      ∧ ∀ (p' : Program) (m' : CostModel) (q' : Query) (s' : String),
          p'.query m' = .ok q' → q'.Named → q'.script = .ok s' →
          (Sexp.read s = Sexp.read s' ↔ q.unknowns = q'.unknowns
            ∧ (q.obligations.map fun o => (o.binders, o.formula.merged))
              = q'.obligations.map fun o => (o.binders, o.formula.merged)) := by
  have hformulas := isSymbol_of_mem_names hq hnamed
  have hread := (Query.spells_forms hnamed hformulas).read
  refine ⟨_, script_eq_ok hq, hread, fun o ho => Obligation.ofSexp?_form (hformulas o ho), ?_⟩
  intro p' m' q' s' hq' hnamed' hs'
  have hformulas' := isSymbol_of_mem_names hq' hnamed'
  have hread' := (Query.spells_forms hnamed' hformulas').read
  cases Except.ok.inj ((script_eq_ok hq').symm.trans hs')
  rw [hread, hread', Option.some_inj, Query.forms_eq_iff (ofName?_of_mem_unknowns hq) (ofName?_of_mem_unknowns hq'),
    Obligation.map_form_eq_iff hformulas hformulas']

/-- The least integer, a negative literal, a conditional, an unknown with a given factor, and a function without
parameters. -/
def constants (factor : Expr) : Program :=
  ⟨[⟨"least", [], .call "least" [], .lit (.int Int64.minValue), by decide⟩,
    ⟨"f", ["n"], .choose (.binary .lt (.var "n") (.int (-3))) (.call "least" []) .pass,
      .binary .mul (.var "c0__1") factor, by decide⟩]⟩

/-- With the negation of `5` and with `-5` for the factor: two queries, and scripts that are read alike. -/
theorem read_script_constants :
    ∃ q q' s s', (constants (.unary .neg (.int 5))).query .freeCalls = .ok q
      ∧ (constants (.int (-5))).query .freeCalls = .ok q' ∧ q.Named ∧ q'.Named ∧ q ≠ q'
      ∧ q.script = .ok s ∧ q'.script = .ok s' ∧ Sexp.read s = some q.forms ∧ Sexp.read s = Sexp.read s'
      ∧ (∀ o ∈ q.obligations, Obligation.ofSexp? o.form = some (o.binders, o.formula.merged))
      ∧ (q.obligations.map fun o => (o.binders, o.formula.merged))
        = [([], .binary .le (.int Int64.minValue) (.int Int64.minValue)),
          (["n"], .binary .or (.binary .le (.var "n") (.int 0))
            (.binary .le
              (.cond (.binary .lt (.var "n") (.int (-3))) (.int Int64.minValue) (.int 0))
              (.binary .mul (.var "c0__1") (.int (-5)))))] := by
  have hq : (constants (.unary .neg (.int 5))).query .freeCalls
      = .ok (Query.ofCosts ((constants (.unary .neg (.int 5))).functions.zip _)) := rfl
  have hq' : (constants (.int (-5))).query .freeCalls
      = .ok (Query.ofCosts ((constants (.int (-5))).functions.zip _)) := rfl
  have hnamed : ∀ q, (constants (.unary .neg (.int 5))).query .freeCalls = .ok q → q.Named := by
    intro q h
    cases Except.ok.inj (hq.symm.trans h)
    exact ⟨by decide +kernel, by decide +kernel, by decide +kernel⟩
  have hnamed' : ∀ q, (constants (.int (-5))).query .freeCalls = .ok q → q.Named := by
    intro q h
    cases Except.ok.inj (hq'.symm.trans h)
    exact ⟨by decide +kernel, by decide +kernel, by decide +kernel⟩
  obtain ⟨s, hs, hread, hforms, hdetermines⟩ := read_script hq (hnamed _ hq)
  have hs' := script_eq_ok hq'
  have hsame := (hdetermines _ _ _ _ hq' (hnamed' _ hq') hs').2 ⟨rfl, rfl⟩
  exact ⟨_, _, s, _, hq, hq', hnamed _ hq, hnamed' _ hq', by decide +kernel, hs, hs', hread, hsame, hforms, rfl⟩

end Program

end CostBound
