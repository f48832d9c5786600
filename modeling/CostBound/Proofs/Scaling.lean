import CostBound.Proofs.FreshNames
import CostBound.Proofs.Renaming
import CostBound.Reading.Program

/-!
# Scaled programs

Scaling a program brings two unknowns into each bound, a factor and a summand. Their names are counted through, without
a look at the names that the program has already.

* `Supply.introduced` — the unknowns that scaling introduces, in order; `Supply.nodup_introduced` tells them apart.
* `Program.scaled_functions` — the scaled program, function by function.
* `Program.uses_scaled` — how often a name occurs in the bounds, before and after.
* `Program.introduced_fresh_iff` — when the introduced unknowns are new.
-/

namespace CostBound

/-! ### Introduced unknowns -/

/-- The expression with an unknown factor and an unknown summand. -/
def Expr.scaledBy (factor summand : Unknown) (e : Expr) : Expr :=
  .binary .add (.binary .mul (.var factor.name) e) (.var summand.name)

namespace Supply

/-- The factor that scaling brings into bound number `i`. -/
def factor (s : Supply) (i : Nat) : Unknown := .numbered .scale (s.number (2 * i))

/-- The summand that scaling brings into bound number `i`. -/
def summand (s : Supply) (i : Nat) : Unknown := .numbered .offset (s.number (2 * i + 1))

/-- The unknowns that scaling `n` bounds introduces. -/
def introduced (s : Supply) (n : Nat) : List Unknown :=
  (List.range n).flatMap fun i => [s.factor i, s.summand i]

theorem mem_introduced {s : Supply} {n : Nat} {u : Unknown} :
    u ∈ s.introduced n ↔ ∃ i < n, u = s.factor i ∨ u = s.summand i := by
  simp [introduced]

theorem factor_zero (s : Supply) : s.factor 0 = .numbered .scale (s.given + 1) := by
  rw [factor, Nat.mul_zero, number_zero]

theorem summand_zero (s : Supply) : s.summand 0 = .numbered .offset (s.given + 1 + 1) := by
  rw [summand, Nat.mul_zero, number_succ, number_zero]

/-- The second factor of a supply is the first one of the supply that has given two names more. -/
theorem factor_succ (s : Supply) (i : Nat) : s.factor (i + 1) = factor ⟨s.given + 1 + 1⟩ i := by
  show Unknown.numbered .scale (s.number (2 * i + 1 + 1)) = _
  rw [number_succ, number_succ]
  rfl

theorem summand_succ (s : Supply) (i : Nat) : s.summand (i + 1) = summand ⟨s.given + 1 + 1⟩ i := by
  show Unknown.numbered .offset (s.number (2 * i + 1 + 1 + 1)) = _
  rw [number_succ, number_succ]
  rfl

theorem introduced_succ (s : Supply) (n : Nat) :
    s.introduced (n + 1) = s.factor 0 :: s.summand 0 :: introduced ⟨s.given + 1 + 1⟩ n := by
  unfold introduced
  rw [List.range_succ_eq_map, List.flatMap_cons, List.flatMap_map]
  simp only [Nat.succ_eq_add_one, factor_succ, summand_succ]
  rfl

theorem ofName?_of_mem_introduced {s : Supply} {n : Nat} {u : Unknown} (h : u ∈ s.introduced n) :
    Unknown.Kind.ofName? u.name = some u.kind := by
  obtain ⟨i, _, rfl | rfl⟩ := mem_introduced.1 h
  · exact Unknown.ofName?_numbered .scale _
  · exact Unknown.ofName?_numbered .offset _

/-- What scaling `n` bounds asks a supply for. -/
def scalingRequests : Nat → List Request
  | 0 => []
  | n + 1 => .unknown .scale :: .unknown .offset :: scalingRequests n

theorem length_scalingRequests (n : Nat) : (scalingRequests n).length = 2 * n := by
  induction n with
  | zero => rfl
  | succ n ih =>
      rw [scalingRequests, List.length_cons, List.length_cons, ih]
      omega

theorem map_name_introduced (s : Supply) (n : Nat) :
    (s.introduced n).map (·.name) = (s.serveAll (scalingRequests n)).1 := by
  induction n generalizing s with
  | zero => rfl
  | succ n ih =>
      simp only [introduced_succ, List.map_cons, factor_zero, summand_zero, ih, scalingRequests, serveAll, serve,
        freshUnknown_eq]

/-- No name is introduced twice, as long as there is a number for each. -/
theorem nodup_introduced (s : Supply) {n : Nat} (h : 2 * n ≤ UInt64.size) : ((s.introduced n).map (·.name)).Nodup := by
  rw [map_name_introduced]
  apply nodup_serveAll
  rwa [length_scalingRequests]

theorem scale_eq (s : Supply) (bound : Expr) :
    s.scale bound = (bound.scaledBy (s.factor 0) (s.summand 0), ⟨s.given + 1 + 1⟩) := by
  simp only [scale, freshUnknown_eq, factor_zero, summand_zero]
  rfl

theorem scaleAll_eq (s : Supply) (fs : List Function) :
    (s.scaleAll fs).1 = fs.mapIdx fun i f => f.withBound (f.bound.scaledBy (s.factor i) (s.summand i)) := by
  induction fs generalizing s with
  | nil => rfl
  | cons f fs ih =>
      simp only [scaleAll, scale_eq, List.mapIdx_cons, ih, factor_succ, summand_succ]

end Supply

namespace Program

instance (p : Program) (x : String) : Decidable (p.Mentions x) :=
  inferInstanceAs (Decidable (∃ f ∈ p.functions, x ∈ f.params ∨ x ∈ f.bound.names))

/-- **Scaled programs.** Bound number `i` gets factor and summand number `i`. -/
theorem scaled_functions (p : Program) (s : Supply) :
    (p.scaled s).1.functions
      = p.functions.mapIdx fun i f => f.withBound (f.bound.scaledBy (s.factor i) (s.summand i)) :=
  s.scaleAll_eq p.functions

/-- A scaled function is one of the program's functions with a scaled bound, and each of them has one. -/
theorem mem_scaled_functions {p : Program} {s : Supply} {f' : Function} :
    f' ∈ (p.scaled s).1.functions ↔
      ∃ (i : Nat) (f : Function), p.functions[i]? = some f
        ∧ f' = f.withBound (f.bound.scaledBy (s.factor i) (s.summand i)) := by
  rw [scaled_functions, List.mem_iff_getElem?]
  simp only [List.getElem?_mapIdx, Option.map_eq_some_iff, eq_comm (a := f')]

end Program

/-! ### Occurrences -/

namespace Expr

/-- The variables of an expression, as often as they occur. -/
def occurrences : Expr → List String
  | var x => [x]
  | lit _ => []
  | unary _ e => e.occurrences
  | binary _ l r => l.occurrences ++ r.occurrences
  | cond c t e => c.occurrences ++ t.occurrences ++ e.occurrences

theorem mem_occurrences {x : String} {e : Expr} : x ∈ e.occurrences ↔ x ∈ e.names := by
  induction e with
  | var y => rfl
  | lit l => rfl
  | unary op e ih => exact ih
  | binary op l r ihl ihr => simp [occurrences, names, ihl, ihr]
  | cond c t e ihc iht ihe => simp [occurrences, names, ihc, iht, ihe]

end Expr

namespace Program

/-- How often a name occurs in the bounds of a program. -/
def uses (p : Program) (x : String) : Nat := (p.functions.flatMap fun f => f.bound.occurrences).count x

theorem uses_eq_zero {p : Program} {x : String} : p.uses x = 0 ↔ ∀ f ∈ p.functions, x ∉ f.bound.names := by
  simp only [uses, List.count_eq_zero, List.mem_flatMap, Expr.mem_occurrences, not_exists, not_and]

/-- **Occurrences after scaling.** A name occurs once more for each time that it is introduced. -/
theorem uses_scaled (p : Program) (s : Supply) (x : String) :
    (p.scaled s).1.uses x = p.uses x + ((s.introduced p.functions.length).map (·.name)).count x := by
  unfold uses
  rw [scaled_functions]
  generalize p.functions = fs
  induction fs generalizing s with
  | nil => rfl
  | cons f fs ih =>
      have hbound : (f.bound.scaledBy (s.factor 0) (s.summand 0)).occurrences
          = (s.factor 0).name :: f.bound.occurrences ++ [(s.summand 0).name] := rfl
      have hrest := ih ⟨s.given + 1 + 1⟩
      simp only [← Supply.factor_succ, ← Supply.summand_succ] at hrest
      rw [List.mapIdx_cons, List.flatMap_cons, List.flatMap_cons, List.count_append, List.count_append, hrest,
        List.length_cons, Supply.introduced_succ]
      show ((f.bound.scaledBy (s.factor 0) (s.summand 0)).occurrences).count x + _ = _
      rw [hbound]
      simp only [List.cons_append, List.map_cons, List.count_cons, List.count_append, List.count_nil]
      omega

/-- The scaled program uses an introduced name once more than the program did. -/
theorem uses_scaled_of_mem {p : Program} {s : Supply} (hcount : 2 * p.functions.length ≤ UInt64.size) {u : Unknown}
    (hu : u ∈ s.introduced p.functions.length) : (p.scaled s).1.uses u.name = p.uses u.name + 1 := by
  rw [uses_scaled, List.count_eq_one_of_mem (s.nodup_introduced hcount) (List.mem_map_of_mem hu)]

/-- A name that is introduced stands in the bound of a scaled function. -/
theorem exists_mem_bound_of_introduced {p : Program} {s : Supply} {u : Unknown}
    (hu : u ∈ s.introduced p.functions.length) : ∃ f ∈ (p.scaled s).1.functions, u.name ∈ f.bound.names := by
  by_contra h
  have hzero : (p.scaled s).1.uses u.name = 0 := uses_eq_zero.2 fun f hf hx => h ⟨f, hf, hx⟩
  rw [uses_scaled, Nat.add_eq_zero_iff, List.count_eq_zero] at hzero
  exact hzero.2 (List.mem_map_of_mem hu)

/-- A reserved name in a bound is an unknown of every query if it is no parameter. -/
theorem mem_unknowns_of_mem_bound {p : Program} {m : CostModel} {q : Query} (hq : p.query m = .ok q) {u : Unknown}
    (hkind : Unknown.Kind.ofName? u.name = some u.kind) {f : Function} (hf : f ∈ p.functions)
    (hx : u.name ∈ f.bound.names) (hp : u.name ∉ f.params) : u ∈ q.unknowns := by
  obtain ⟨e, _, ho⟩ := exists_ofFunction_mem hq hf
  obtain ⟨costs, _, rfl, _⟩ := query_eq_ok.1 hq
  refine Query.mem_unknowns_ofCosts.2 ⟨hkind, _, ho, ?_, hp⟩
  rw [Obligation.ofFunction_formula, Obligation.mem_names_claim]
  exact Or.inr (Or.inr hx)

/-- **When introduced unknowns are fresh.** Scaling puts the unknowns number `i` into bound number `i`. The program
mentions none of them before exactly if afterwards each of them is no parameter of any function and occurs in the bounds
of the program once, and then it is an unknown of every query. The supply must have a number for each of them, as it has
for every program that fits into a memory. -/
theorem introduced_fresh_iff (p : Program) (s : Supply) :
    (p.scaled s).1.functions
        = p.functions.mapIdx (fun i f => f.withBound (f.bound.scaledBy (s.factor i) (s.summand i)))
      ∧ (2 * p.functions.length ≤ UInt64.size →
        ((∀ u ∈ s.introduced p.functions.length, ¬ p.Mentions u.name) ↔
          ∀ u ∈ s.introduced p.functions.length,
            (∀ f ∈ (p.scaled s).1.functions, u.name ∉ f.params) ∧ (p.scaled s).1.uses u.name = 1
              ∧ ∀ m q, (p.scaled s).1.query m = .ok q → u ∈ q.unknowns)) := by
  refine ⟨p.scaled_functions s, fun hcount => ⟨?_, ?_⟩⟩
  · intro hfresh u hu
    have hparams : ∀ f ∈ (p.scaled s).1.functions, u.name ∉ f.params := by
      intro f' hf' hx
      obtain ⟨i, f, hf, rfl⟩ := mem_scaled_functions.1 hf'
      exact hfresh u hu ⟨f, List.mem_of_getElem? hf, Or.inl hx⟩
    have huses : p.uses u.name = 0 := uses_eq_zero.2 fun f hf hx => hfresh u hu ⟨f, hf, Or.inr hx⟩
    refine ⟨hparams, by rw [uses_scaled_of_mem hcount hu, huses], ?_⟩
    intro m q hq
    obtain ⟨f, hf, hx⟩ := exists_mem_bound_of_introduced hu
    exact mem_unknowns_of_mem_bound hq (Supply.ofName?_of_mem_introduced hu) hf hx (hparams f hf)
  · intro honce u hu hmentions
    obtain ⟨hparams, huses, _⟩ := honce u hu
    obtain ⟨f, hf, hx | hx⟩ := hmentions
    · obtain ⟨i, hi⟩ := List.mem_iff_getElem?.1 hf
      exact hparams _ (mem_scaled_functions.2 ⟨i, f, hi, rfl⟩) hx
    · rw [uses_scaled_of_mem hcount hu, Nat.add_eq_right, uses_eq_zero] at huses
      exact huses f hf hx

/-- A text whose bound uses the first name that scaling introduces. -/
def reservedText : String := "def f(k) -> \"c0__1 * k\":\n    pass\n"

/-- The program of that text. -/
def reserved : Program := ⟨[⟨"f", ["k"], .pass, .binary .mul (.var "c0__1") (.var "k"), by decide⟩]⟩

/-- The factor of the bound is an unknown that the bound has already; one number later it would be a new one. -/
theorem introduced_fresh_iff_reserved :
    ofSource reservedText = .ok reserved ∧ 2 * reserved.functions.length ≤ UInt64.size
      ∧ (reserved.scaled ⟨0⟩).1.functions.map (·.bound)
          = [.binary .add (.binary .mul (.var "c0__1") (.binary .mul (.var "c0__1") (.var "k"))) (.var "c1__2")]
      ∧ (reserved.scaled ⟨0⟩).1.uses "c0__1" = 2
      ∧ (¬ ∀ u ∈ Supply.introduced ⟨0⟩ 1, ¬ reserved.Mentions u.name)
      ∧ ∀ u ∈ Supply.introduced ⟨1⟩ 1, (reserved.scaled ⟨1⟩).1.uses u.name = 1 := by
  have huses : (reserved.scaled ⟨0⟩).1.uses "c0__1" = 2 := by decide +kernel
  have hcount : 2 * reserved.functions.length ≤ UInt64.size := by decide
  refine ⟨by decide +kernel, hcount, by decide +kernel, huses, ?_, ?_⟩
  · intro hfresh
    have hfirst : Unknown.numbered .scale 1 ∈ Supply.introduced ⟨0⟩ 1 := List.mem_cons_self
    obtain ⟨_, honce, _⟩ := ((introduced_fresh_iff reserved ⟨0⟩).2 hcount).1 hfresh _ hfirst
    have hname : (Unknown.numbered .scale 1).name = "c0__1" := by decide +kernel
    rw [hname, huses] at honce
    cases honce
  · have hfresh : ∀ u ∈ Supply.introduced ⟨1⟩ 1, ¬ reserved.Mentions u.name := by decide +kernel
    exact fun u hu => (((introduced_fresh_iff reserved ⟨1⟩).2 hcount).1 hfresh u hu).2.1

end Program

end CostBound
