import CostBound.Proofs.Names

/-!
# What a substitution does to names

* `ofPairs_eq_none`, `mem_of_ofPairs` — which names a list of pairs replaces, and by what.
* `Substitution.comp` — one replacement after another, as one; `comp_ofPairs` has it as a list of pairs.
* `mem_names_subst`, `names_subst` — the names after a replacement are those of the replacements, for the names before
  it.
* `subst_eq_subst_iff`, `subst_eq_self`, `subst_subst` — a replacement depends on the names that occur only, and two
  in a row are one.
* `subst_laws` — both for any two replacements, and for lists of pairs.
* `Expr.rename` — the replacement of names by names.
-/

namespace CostBound

namespace Substitution

/-- A list of pairs leaves a name alone that none of them is for. -/
theorem ofPairs_eq_none {pairs : List (String × Expr)} {x : String} :
    ofPairs pairs x = none ↔ x ∉ pairs.map Prod.fst := by
  induction pairs with
  | nil => simp [ofPairs]
  | cons pair pairs ih =>
      obtain ⟨name, e⟩ := pair
      simp only [ofPairs, Option.or_eq_none_iff, ih, List.map_cons, List.mem_cons, not_or]
      by_cases hx : x = name
      · simp [hx]
      · simp [hx]

/-- What a list of pairs puts for a name is in one of its pairs. -/
theorem mem_of_ofPairs {pairs : List (String × Expr)} {x : String} {e : Expr}
    (h : ofPairs pairs x = some e) : (x, e) ∈ pairs := by
  induction pairs with
  | nil => simp [ofPairs] at h
  | cons pair pairs ih =>
      obtain ⟨name, e'⟩ := pair
      simp only [ofPairs, Option.or_eq_some_iff] at h
      rcases h with h | ⟨_, h⟩
      · exact List.mem_cons_of_mem _ (ih h)
      · split at h
        · rename_i hx
          cases h
          rw [hx]
          exact List.mem_cons_self
        · cases h

/-- A call replaces the parameters and nothing else. -/
theorem ofPairs_zip_eq_none {params : List String} {args : List Expr}
    (h : params.length = args.length) {x : String} :
    ofPairs (params.zip args) x = none ↔ x ∉ params := by
  rw [ofPairs_eq_none, List.map_fst_zip (le_of_eq h)]

/-- Renaming the names of the pairs and the name looked for makes no difference. -/
theorem ofPairs_map_fst_zip {params : List String} {args : List Expr} {r : String → String}
    {x : String} (h : ∀ y ∈ params, r x = r y → x = y) :
    ofPairs ((params.map r).zip args) (r x) = ofPairs (params.zip args) x := by
  induction params generalizing args with
  | nil => rfl
  | cons y params ih =>
      cases args with
      | nil => rfl
      | cons arg args =>
          have hy : r x = r y ↔ x = y := ⟨h y List.mem_cons_self, fun hxy => by rw [hxy]⟩
          simp only [List.map_cons, List.zip_cons_cons, ofPairs, hy,
            ih fun z hz => h z (List.mem_cons_of_mem _ hz)]

/-- Changing the replacements changes what is put for a name. -/
theorem ofPairs_map_snd (pairs : List (String × Expr)) (g : Expr → Expr) (x : String) :
    ofPairs (pairs.map (Prod.map id g)) x = (ofPairs pairs x).map g := by
  induction pairs with
  | nil => rfl
  | cons pair pairs ih =>
      obtain ⟨name, e⟩ := pair
      simp only [List.map_cons, Prod.map_apply, id_eq, ofPairs, ih, Option.map_or]
      congr 1
      split <;> rfl

theorem ofPairs_zip_map {params : List String} {args : List Expr} {g : Expr → Expr} {x : String} :
    ofPairs (params.zip (args.map g)) x = (ofPairs (params.zip args) x).map g := by
  rw [List.zip_map_right, ofPairs_map_snd]

theorem ofPairs_append (ps qs : List (String × Expr)) (x : String) :
    ofPairs (ps ++ qs) x = (ofPairs qs x).or (ofPairs ps x) := by
  induction ps with
  | nil => rw [List.nil_append, ofPairs, Option.or_none]
  | cons p ps ih => rw [List.cons_append, ofPairs, ofPairs, ih, Option.or_assoc]

/-- First `s`, then `t`: this acts on what `s` puts in, and on the names that `s` leaves alone. -/
def comp (s t : Substitution) : Substitution := fun x =>
  match s x with
  | some e => some (e.subst t)
  | none => t x

theorem getD_comp (s t : Substitution) (x : String) :
    (s.comp t x).getD (.var x) = ((s x).getD (.var x)).subst t := by
  unfold comp
  cases s x with
  | none => rfl
  | some e => rfl

/-- For lists of pairs: of two pairs for a name the later one counts, so those of the first list come last. -/
theorem comp_ofPairs (ps qs : List (String × Expr)) :
    comp (ofPairs ps) (ofPairs qs) = ofPairs (qs ++ ps.map (Prod.map id (Expr.subst (ofPairs qs)))) := by
  funext x
  rw [ofPairs_append, ofPairs_map_snd, comp]
  cases ofPairs ps x with
  | none => rfl
  | some e => rfl

end Substitution

namespace Expr

/-- The names after a replacement: for each name before it, those that stand in its place. -/
theorem mem_names_subst {e : Expr} {s : Substitution} {x : String} :
    x ∈ (e.subst s).names ↔ ∃ y ∈ e.names, x ∈ ((s y).getD (var y)).names := by
  induction e with
  | var y => simp [subst, names]
  | lit l => simp [subst, names]
  | unary op e ih => exact ih
  | binary op l r ihl ihr =>
      simp only [subst, names, Names.mem_union, ihl, ihr, or_and_right, exists_or]
  | cond c t e ihc iht ihe =>
      simp only [subst, names, Names.mem_union, ihc, iht, ihe, or_and_right, exists_or]

theorem mem_names_subst_iff {e : Expr} {s : Substitution} {x : String} :
    x ∈ (e.subst s).names ↔ x ∈ e.names ∧ s x = none ∨ ∃ y ∈ e.names, ∃ r, s y = some r ∧ x ∈ r.names := by
  rw [mem_names_subst]
  constructor
  · rintro ⟨y, hy, hx⟩
    cases hs : s y with
    | none =>
        rw [hs] at hx
        obtain rfl : x = y := List.mem_singleton.1 hx
        exact .inl ⟨hy, hs⟩
    | some r =>
        rw [hs] at hx
        exact .inr ⟨y, hy, r, hs, hx⟩
  · rintro (⟨hx, hs⟩ | ⟨y, hy, r, hs, hx⟩)
    · exact ⟨x, hx, by rw [hs]; exact List.mem_singleton_self x⟩
    · exact ⟨y, hy, by rw [hs]; exact hx⟩

/-- The same as an equation between sets of names: the names that stay, and those of the replacements. -/
theorem names_subst (e : Expr) (s : Substitution) :
    (e.subst s).names
      = Names.union (e.names.filter fun x => (s x).isNone) (Names.unions ((e.names.filterMap s).map names)) := by
  refine List.Pairwise.eq_of_mem_iff (e.subst s).names_pairwise (Names.union_pairwise _ (Names.unions_pairwise _))
    fun x => ?_
  simp only [mem_names_subst_iff, Names.mem_union, List.mem_filter, Option.isNone_iff_eq_none, Names.mem_unions,
    List.mem_map, List.mem_filterMap]
  constructor
  · rintro (h | ⟨y, hy, r, hs, hx⟩)
    · exact .inl h
    · exact .inr ⟨_, ⟨r, ⟨y, hy, hs⟩, rfl⟩, hx⟩
  · rintro (h | ⟨_, ⟨r, ⟨y, hy, hs⟩, rfl⟩, hx⟩)
    · exact .inl h
    · exact .inr ⟨y, hy, r, hs, hx⟩

/-- Two replacements do the same if they agree on the names that occur, and only then. -/
theorem subst_eq_subst_iff {e : Expr} {s t : Substitution} :
    e.subst s = e.subst t ↔ ∀ x ∈ e.names, (s x).getD (var x) = (t x).getD (var x) := by
  induction e with
  | var y => simp [subst, names]
  | lit l => simp [subst, names]
  | unary op e ih => simp only [subst, names, unary.injEq, true_and, ih]
  | binary op l r ihl ihr =>
      simp only [subst, names, binary.injEq, true_and, ihl, ihr, Names.mem_union, or_imp,
        forall_and]
  | cond c t e ihc iht ihe =>
      simp only [subst, names, cond.injEq, ihc, iht, ihe, Names.mem_union, or_imp, forall_and]

/-- An expression stays the same if none of its names is replaced. -/
theorem subst_eq_self {e : Expr} {s : Substitution} (h : ∀ x ∈ e.names, s x = none) : e.subst s = e := by
  induction e with
  | var x =>
      show (s x).getD (var x) = var x
      rw [h x (by simp [names])]
      rfl
  | lit l => rfl
  | unary op e ih => rw [subst, ih h]
  | binary op l r ihl ihr =>
      rw [subst, ihl fun x hx => h x (by simp [names, hx]), ihr fun x hx => h x (by simp [names, hx])]
  | cond c t e ihc iht ihe =>
      rw [subst, ihc fun x hx => h x (by simp [names, hx]), iht fun x hx => h x (by simp [names, hx]),
        ihe fun x hx => h x (by simp [names, hx])]

/-- Two replacements in a row are one: the second acts on what the first puts in. -/
theorem subst_subst (e : Expr) (s t : Substitution) :
    (e.subst s).subst t = e.subst fun x => some (((s x).getD (var x)).subst t) := by
  induction e with
  | var y => rfl
  | lit l => rfl
  | unary op e ih => simp only [subst, ih]
  | binary op l r ihl ihr => simp only [subst, ihl, ihr]
  | cond c t e ihc iht ihe => simp only [subst, ihc, iht, ihe]

theorem subst_comp (e : Expr) (s t : Substitution) : (e.subst s).subst t = e.subst (s.comp t) := by
  rw [subst_subst, subst_eq_subst_iff]
  intro x _
  rw [Substitution.getD_comp, Option.getD_some]

/-- **The laws of substitution.** The names after a replacement are the names before it that are not replaced, and the
names of the replacements of the others. One replacement after another is one replacement, by the composition; for
lists of pairs this is a list of pairs again. Replacements may use any names, also those that are replaced. -/
theorem subst_laws (e : Expr) (s t : Substitution) :
    (e.subst s).names
        = Names.union (e.names.filter fun x => (s x).isNone) (Names.unions ((e.names.filterMap s).map names))
      ∧ (e.subst s).subst t = e.subst (s.comp t)
      ∧ ∀ ps qs : List (String × Expr), (e.subst (.ofPairs ps)).subst (.ofPairs qs)
        = e.subst (.ofPairs (qs ++ ps.map (Prod.map id (Expr.subst (.ofPairs qs))))) := by
  refine ⟨names_subst e s, subst_comp e s t, fun ps qs => ?_⟩
  rw [subst_comp, Substitution.comp_ofPairs]

/-- A step down and an exchange, one after the other. -/
example :
    ((binary .mul (var "n") (var "m")).subst (.ofPairs [("n", binary .sub (var "n") (int 1))])).subst
        (.ofPairs [("n", var "m"), ("m", var "n")])
      = binary .mul (binary .sub (var "m") (int 1)) (var "n") := by
  decide

/-- Replaces names by names. -/
def rename (r : String → String) (e : Expr) : Expr := e.subst fun x => some (var (r x))

theorem mem_names_rename {e : Expr} {r : String → String} {x : String} :
    x ∈ (e.rename r).names ↔ ∃ y ∈ e.names, x = r y := by
  simp only [rename, mem_names_subst, Option.getD_some, names, List.mem_singleton]

end Expr

end CostBound
