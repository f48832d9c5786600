import CostBound.Proofs.Script
import CostBound.Proofs.Readability

/-!
# Names in scripts

A script has the names of the program, as they are. The two languages do not have the same keywords, so a name may be
one that a script cannot use for a variable.

* `Sexp.introduced` — the names that a command declares or binds.
* `Program.mem_introduced_iff` — the names that a script introduces are those of the program.
* `Query.asserted` — what a script asserts; `Query.filterMap_ofSexp?_forms` says that it is read back.
* `Sexp.reserved` — the words of the script language that are no variables; `Program.script_names` says when none of
  them is introduced, and what the script says then.
* `Sexp.functions`, `Sexp.mentionable` — the functions of terms, and those that share their name with a variable.
-/

namespace CostBound

/-! ### Introduced names -/

namespace Sexp

/-- The declaration of an integer constant. -/
def declaration (x : String) : Sexp := .list [.atom "declare-const", .atom x, .atom "Int"]

/-- The names that a command declares, or binds in what it asserts. -/
def introduced : Sexp → List String
  | .list [.atom head, .atom x, _] => if head = "declare-const" then [x] else []
  | .list [.atom head, e] =>
      if head = "assert" then
        match Obligation.quantified? e with
        | some (binders, _) => binders.filterMap Obligation.binder?
        | none => []
      else []
  | _ => []

theorem introduced_declaration (x : String) : (declaration x).introduced = [x] := by
  rw [declaration, introduced, if_pos rfl]

/-- An assertion introduces its binders: there are no quantifiers inside of terms. -/
theorem introduced_assertion (binders : List String) (e : Expr) : (assertion binders e.sexp).introduced = binders := by
  unfold assertion
  by_cases h : binders = []
  · rw [if_pos h, introduced, if_pos rfl, Obligation.quantified?_sexp, h]
  · rw [if_neg h, introduced, if_pos rfl, Obligation.quantified?, if_pos rfl]
    show (binders.map fun x => Sexp.list [.atom x, .atom "Int"]).filterMap Obligation.binder? = binders
    have hbinder : Obligation.binder? ∘ (fun x => Sexp.list [.atom x, .atom "Int"]) = some := by
      funext x
      show Obligation.binder? (.list [.atom x, .atom "Int"]) = some x
      rw [Obligation.binder?, if_pos rfl]
    rw [List.filterMap_map, hbinder, List.filterMap_some]

end Sexp

/-- The least value of an unknown, as a formula. -/
def Unknown.floor (u : Unknown) : Expr := .binary .ge (.var u.name) (.int (.ofNat u.kind.lowerBound))

namespace Unknown

variable (u : Unknown)

theorem mem_names_floor {x : String} : x ∈ u.floor.names ↔ x = u.name := by
  simp [floor, Expr.names, Expr.int, Names.mem_union]

theorem forms_eq : u.forms = [.declaration u.name, .assertion [] u.floor.sexp] := by
  obtain ⟨name, kind⟩ := u
  cases kind <;> rfl

theorem filterMap_ofSexp?_forms (h : IsSymbol u.name) : u.forms.filterMap Obligation.ofSexp? = [([], u.floor)] := by
  have hfloor : Obligation.ofSexp? (.assertion [] u.floor.sexp) = some ([], u.floor) :=
    Obligation.ofSexp?_assertion fun x hx => u.mem_names_floor.1 hx ▸ h
  rw [u.forms_eq, List.filterMap_cons_none rfl, List.filterMap_cons_some hfloor, List.filterMap_nil]

end Unknown

namespace Query

variable {q : Query} {x : String}

/-- **What a script introduces.** -/
theorem flatMap_introduced_forms :
    q.forms.flatMap Sexp.introduced = q.unknowns.map (·.name) ++ q.obligations.flatMap (·.binders) := by
  have hunknown : ∀ u : Unknown, u.forms.flatMap Sexp.introduced = [u.name] := by
    intro u
    rw [u.forms_eq, List.flatMap_cons, List.flatMap_cons, Sexp.introduced_declaration, Sexp.introduced_assertion]
    rfl
  have hobligation : ∀ o : Obligation, o.form.introduced = o.binders :=
    fun o => Sexp.introduced_assertion o.binders o.formula
  rw [flatMap_forms rfl rfl rfl fun _ => rfl]
  simp only [hunknown, hobligation, List.map_eq_flatMap]

/-- The least values of the unknowns and the formulas of the obligations, each with its binders. -/
def asserted (q : Query) : List (List String × Expr) :=
  (q.unknowns.map fun u => ([], u.floor)) ++ q.obligations.map fun o => (o.binders, o.formula.merged)

/-- **What a script asserts.** Let all names be words other than the truth values. -/
theorem filterMap_ofSexp?_forms (hunknowns : ∀ u ∈ q.unknowns, IsSymbol u.name)
    (hformulas : ∀ o ∈ q.obligations, ∀ x ∈ o.formula.names, IsSymbol x) :
    q.forms.filterMap Obligation.ofSexp? = q.asserted := by
  rw [List.filterMap_eq_flatMap_toList, flatMap_forms rfl rfl rfl fun _ => rfl, asserted, List.map_eq_flatMap,
    List.map_eq_flatMap]
  congr 1
  · refine List.flatMap_congr fun u hu => ?_
    rw [← List.filterMap_eq_flatMap_toList, u.filterMap_ofSexp?_forms (hunknowns u hu)]
  · refine List.flatMap_congr fun o ho => ?_
    rw [Obligation.ofSexp?_form (hformulas o ho)]
    rfl

theorem declaration_mem_forms {u : Unknown} (hu : u ∈ q.unknowns) : Sexp.declaration u.name ∈ q.forms := by
  have hdeclared : Sexp.declaration u.name ∈ q.unknowns.flatMap Unknown.forms := by
    refine List.mem_flatMap_of_mem hu ?_
    rw [u.forms_eq]
    exact List.mem_cons_self
  unfold forms
  simp only [List.mem_append]
  exact Or.inl (Or.inl (Or.inl (Or.inr hdeclared)))

end Query

/-! ### Names of the program -/

/-- What a name may not be: the reserved words, among them the names of commands, and the truth values. The functions
of terms are not among them. -/
def Sexp.reserved : List String :=
  ["!", "_", "as", "BINARY", "DECIMAL", "exists", "HEXADECIMAL", "forall", "let", "match", "NUMERAL", "par", "STRING",
    "assert", "check-sat", "check-sat-assuming", "declare-const", "declare-datatype", "declare-datatypes",
    "declare-fun", "declare-sort", "define-fun", "define-fun-rec", "define-funs-rec", "define-sort", "echo", "exit",
    "get-assertions", "get-assignment", "get-info", "get-model", "get-option", "get-proof", "get-unsat-assumptions",
    "get-unsat-core", "get-value", "pop", "push", "reset", "reset-assertions", "set-info", "set-logic", "set-option",
    "true", "false"]

/-- The functions of terms. -/
def Sexp.functions : List String :=
  ["-", "not", "+", "*", "mod", "<=", "<", ">=", ">", "=", "distinct", "and", "or", "ite"]

/-- The functions of terms that a program can mention: the others are keywords of programs, or no words. -/
def Sexp.mentionable : List String := ["mod", "distinct", "ite"]

theorem Sexp.mem_mentionable {x : String} (hx : x ∈ functions) (hname : IsName x) : x ∈ mentionable := by
  have hall : ∀ x ∈ functions, IsName x → x ∈ mentionable := by decide +kernel
  exact hall x hx hname

theorem Sexp.mentionable_subset : mentionable ⊆ functions := by decide

namespace Program

variable {p : Program} {m : CostModel} {q : Query} {x : String}

/-- **The names of a script are those of the program.** -/
theorem mem_introduced_iff (hq : p.query m = .ok q) : x ∈ q.forms.flatMap Sexp.introduced ↔ p.Mentions x := by
  rw [Query.flatMap_introduced_forms, List.mem_append, List.mem_map, List.mem_flatMap]
  constructor
  · rintro (⟨u, hu, rfl⟩ | ⟨o, ho, hx⟩)
    · exact mentions_of_mem_unknowns hq hu
    · obtain ⟨f, hf, e, he, rfl⟩ := (mem_obligations hq).1 ho
      obtain hx | ⟨hx, -⟩ := Obligation.mem_binders_ofFunction.1 hx
      · exact ⟨f, hf, Or.inl hx⟩
      · exact mentions_of_mem_formula hf he hx
  · rintro ⟨f, hf, hx⟩
    obtain ⟨e, he, ho⟩ := exists_ofFunction_mem hq hf
    have hformula : x ∈ (Obligation.ofFunction f e).formula.names := by
      rw [Obligation.ofFunction_formula, Obligation.mem_names_claim]
      exact hx.imp_right Or.inr
    obtain ⟨costs, -, rfl, -⟩ := query_eq_ok.1 hq
    obtain hbinder | ⟨u, hu, rfl⟩ := Query.covered_ofCosts ho hformula
    · exact Or.inr ⟨_, ho, hbinder⟩
    · exact Or.inl ⟨u, hu, rfl⟩

/-- Scripts can be read, whatever the names of the program are. -/
theorem read_script_of_canonical (hp : p.Canonical) (hq : p.query m = .ok q) :
    ∃ s, q.script = .ok s ∧ Sexp.read s = some q.forms := by
  have hword : ∀ x, p.Mentions x → IsWord x := fun x hx => (hp.isName_of_mentions hx).1
  have hintroduced : ∀ x ∈ q.forms.flatMap Sexp.introduced, IsWord x :=
    fun x hx => hword x ((mem_introduced_iff hq).1 hx)
  simp only [Query.flatMap_introduced_forms, List.forall_mem_append] at hintroduced
  refine ⟨_, script_eq_ok hq, (Query.spells_forms_of_isWord ?_ ?_ ?_ ?_).read⟩
  · exact fun u hu => hintroduced.1 u.name (List.mem_map_of_mem hu)
  · intro o ho
    obtain ⟨f, hf, e, -, rfl⟩ := (mem_obligations hq).1 ho
    exact (hp f hf).name.1
  · exact fun o ho x hx => hintroduced.2 x (List.mem_flatMap_of_mem ho hx)
  · exact fun o ho x hx => hword x (mentions_of_mem_obligations hq ho hx)

/-- Assertions mention what the program does. -/
theorem mentions_of_mem_asserted (hq : p.query m = .ok q) {a : List String × Expr} (ha : a ∈ q.asserted)
    (hx : x ∈ a.2.names) : p.Mentions x := by
  obtain hfloor | hformula := List.mem_append.1 ha
  · obtain ⟨u, hu, rfl⟩ := List.mem_map.1 hfloor
    rw [u.mem_names_floor.1 hx]
    exact mentions_of_mem_unknowns hq hu
  · obtain ⟨o, ho, rfl⟩ := List.mem_map.1 hformula
    exact mentions_of_mem_obligations hq ho (Expr.mem_names_merged.1 hx)

/-- **Assertions are about variables.** What an assertion mentions it binds, or the script declares it. -/
theorem bound_or_declared (hq : p.query m = .ok q) {a : List String × Expr} (ha : a ∈ q.asserted)
    (hx : x ∈ a.2.names) : x ∈ a.1 ∨ Sexp.declaration x ∈ q.forms := by
  obtain hfloor | hformula := List.mem_append.1 ha
  · obtain ⟨u, hu, rfl⟩ := List.mem_map.1 hfloor
    rw [u.mem_names_floor.1 hx]
    exact Or.inr (Query.declaration_mem_forms hu)
  · obtain ⟨o, ho, rfl⟩ := List.mem_map.1 hformula
    obtain ⟨costs, -, rfl, -⟩ := query_eq_ok.1 hq
    obtain hbinder | ⟨u, hu, rfl⟩ := Query.covered_ofCosts ho (Expr.mem_names_merged.1 hx)
    · exact Or.inl hbinder
    · exact Or.inr (Query.declaration_mem_forms hu)

/-- **Names in scripts.** The script of a program can be read, and the names that it declares or binds are the names
that the program mentions. So none of them is reserved if the program mentions no reserved word, and only then. In this
case the script asserts the least values of the unknowns and the formulas of the obligations, and every variable in them
is bound there or declared. Variables and functions are told apart by their places; a name is a function of terms as
well if the program mentions `mod`, `distinct` or `ite`, and only then. -/
theorem script_names {source : String} (hp : ofSource source = .ok p) (hq : p.query m = .ok q) :
    ∃ s commands, q.script = .ok s ∧ Sexp.read s = some commands
      ∧ (∀ x, x ∈ commands.flatMap Sexp.introduced ↔ p.Mentions x)
      ∧ ((∀ x ∈ commands.flatMap Sexp.introduced, x ∉ Sexp.reserved) ↔ ∀ x ∈ Sexp.reserved, ¬ p.Mentions x)
      ∧ ((∀ x ∈ commands.flatMap Sexp.introduced, x ∉ Sexp.functions) ↔ ∀ x ∈ Sexp.mentionable, ¬ p.Mentions x)
      ∧ ((∀ x ∈ Sexp.reserved, ¬ p.Mentions x) →
        commands.filterMap Obligation.ofSexp? = q.asserted
          ∧ ∀ a ∈ q.asserted, ∀ x ∈ a.2.names, x ∉ Sexp.reserved ∧ (x ∈ a.1 ∨ Sexp.declaration x ∈ commands)) := by
  have hcanonical := canonical_of_ofSource hp
  obtain ⟨s, hs, hread⟩ := read_script_of_canonical hcanonical hq
  have hnames : ∀ x, x ∈ q.forms.flatMap Sexp.introduced ↔ p.Mentions x := fun x => mem_introduced_iff hq
  refine ⟨s, q.forms, hs, hread, hnames, ⟨fun hfree x hx hm => ?_, fun hfree x hx hr => ?_⟩,
    ⟨fun hfree x hx hm => ?_, fun hfree x hx hf => ?_⟩, fun hfree => ?_⟩
  · exact hfree x ((hnames x).2 hm) hx
  · exact hfree x hr ((hnames x).1 hx)
  · exact hfree x ((hnames x).2 hm) (Sexp.mentionable_subset hx)
  · have hm := (hnames x).1 hx
    exact hfree x (Sexp.mem_mentionable hf (hcanonical.isName_of_mentions hm)) hm
  · have hsymbol : ∀ x, p.Mentions x → IsSymbol x := by
      intro x hx
      refine ⟨(hcanonical.isName_of_mentions hx).1, ?_, ?_⟩
      · rintro rfl
        exact hfree "true" (by decide) hx
      · rintro rfl
        exact hfree "false" (by decide) hx
    refine ⟨Query.filterMap_ofSexp?_forms (fun u hu => hsymbol _ (mentions_of_mem_unknowns hq hu)) ?_, ?_⟩
    · exact fun o ho x hx => hsymbol x (mentions_of_mem_obligations hq ho hx)
    · intro a ha x hx
      exact ⟨fun hr => hfree x hr (mentions_of_mem_asserted hq ha hx), bound_or_declared hq ha hx⟩

/-- A parameter with a name that is reserved, in a script with an unknown. -/
def letProgram : Program :=
  ⟨[⟨"f", ["let"], .call "f" [.var "let"], .binary .mul (.var "c0__1") (.var "let"), by decide⟩]⟩

/-- The script cannot be used: it binds `let`. -/
theorem script_names_let : ∃ q s commands, ofSource "def f(let) -> \"c0__1 * let\":\n    f(let)\n" = .ok letProgram
    ∧ letProgram.query .freeCalls = .ok q ∧ q.script = .ok s ∧ Sexp.read s = some commands
    ∧ "let" ∈ commands.flatMap Sexp.introduced ∧ ¬ ∀ x ∈ commands.flatMap Sexp.introduced, x ∉ Sexp.reserved := by
  have hp : ofSource "def f(let) -> \"c0__1 * let\":\n    f(let)\n" = .ok letProgram := by decide +kernel
  have hq : letProgram.query .freeCalls = .ok _ := rfl
  obtain ⟨s, commands, hs, hread, hnames, -⟩ := script_names hp hq
  have hlet : "let" ∈ commands.flatMap Sexp.introduced :=
    (hnames "let").2 ⟨_, List.mem_cons_self, Or.inl List.mem_cons_self⟩
  exact ⟨_, s, commands, hp, hq, hs, hread, hlet, fun hfree => hfree "let" hlet (by decide)⟩

end Program

end CostBound
