import CostBound.Proofs.Inference

/-!
# The query of a scaled program

If the unknowns that scaling introduces are new, then the scaled program has a query exactly if the program has one. The
two queries bind the same names, and the new one has the introduced unknowns in addition. They are put in their places:
the unknown with number 10 comes before the one with number 9.

* `Program.exists_query_scaled_iff` — scaling keeps programs well formed and ill formed.
* `Program.mem_unknowns_scaled` — the unknowns of the scaled program.
* `Program.pairwise_utf8_unknowns` — the unknowns of a query come in the order of the bytes of their names.
* `Program.query_scaled_exactly` — all of it, together with what the obligations keep.
-/

namespace CostBound

theorem Obligation.ScaledBy.function_eq {m : CostModel} {us : List Unknown} {o o' : Obligation}
    (h : o.ScaledBy m us o') : o'.function = o.function := by
  cases h with
  | mk hf _ =>
      obtain ⟨_, _, _, _, _, _, rfl⟩ := hf
      rfl

namespace Program

section

variable {p : Program} {m : CostModel} {q : Query} (hq : p.query m = .ok q)

include hq

theorem pairwise_names_unknowns : (q.unknowns.map (·.name)).Pairwise (· < ·) := by
  obtain ⟨costs, _, rfl, _⟩ := query_eq_ok.1 hq
  exact Query.pairwise_unknowns_ofCosts _

theorem nodup_names_unknowns : (q.unknowns.map (·.name)).Nodup := (pairwise_names_unknowns hq).imp fun h => ne_of_lt h

/-- The names of the unknowns increase byte by byte. -/
theorem pairwise_utf8_unknowns :
    (q.unknowns.map fun u => u.name.toUTF8.data.toList).Pairwise (List.Lex (· < ·)) := by
  have hnames := List.pairwise_map.1 (pairwise_names_unknowns hq)
  exact List.pairwise_map.2 (hnames.imp fun h => Names.utf8_lt h)

end

variable {p : Program} {m : CostModel} {s : Supply} {q q' : Query}
  (hfresh : ∀ u ∈ s.introduced p.functions.length, ¬ p.Mentions u.name)

include hfresh

theorem not_mem_params_of_fresh : ∀ u ∈ s.introduced p.functions.length, ∀ f ∈ p.functions, u.name ∉ f.params :=
  fun u hu f hf hx => hfresh u hu ⟨f, hf, Or.inl hx⟩

/-- **Obligations of the scaled program.** They correspond to those of the program, in order. -/
theorem obligations_scaled (hq : p.query m = .ok q) (hq' : (p.scaled s).1.query m = .ok q') :
    List.Forall₂ (Obligation.ScaledBy m (s.introduced p.functions.length)) q.obligations q'.obligations := by
  obtain ⟨q'', hq'', hobligations⟩ := query_scaled hq hfresh
  cases hq'.symm.trans hq''
  exact hobligations

/-- A program without a query has none when it is scaled. -/
theorem exists_query_scaled_iff : (∃ q', (p.scaled s).1.query m = .ok q') ↔ ∃ q, p.query m = .ok q := by
  constructor
  · intro h
    obtain ⟨_, hq'⟩ := h
    obtain ⟨costs', hcosts', rfl, htypes⟩ := query_eq_ok.1 hq'
    have hagree := costs_scaled (m := m) (p.forall₂_scaled s) (not_mem_params_of_fresh hfresh)
    obtain ⟨costs, hcosts, hscaled⟩ := hagree.exists_left hcosts'
    refine ⟨_, query_eq_ok.2 ⟨costs, hcosts, rfl, fun o ho => ?_⟩⟩
    obtain ⟨o', ho', hoo⟩ := exists_of_forall₂ (Query.obligations_scaled (p.forall₂_scaled s) hscaled).flip ho
    exact hoo.type?_formula_iff.1 (htypes o' ho')
  · intro h
    obtain ⟨q, hq⟩ := h
    obtain ⟨q', hq', -⟩ := query_scaled hq hfresh
    exact ⟨q', hq'⟩

/-- **Unknowns of the scaled program.** They are those of the program and the introduced ones. -/
theorem mem_unknowns_scaled (hq : p.query m = .ok q) (hq' : (p.scaled s).1.query m = .ok q') {u : Unknown} :
    u ∈ q'.unknowns ↔ u ∈ q.unknowns ∨ u ∈ s.introduced p.functions.length := by
  have hobligations := obligations_scaled hfresh hq hq'
  constructor
  · exact mem_unknowns_or_introduced hq hq' hobligations
  · rintro (hold | hnew)
    · have hother : ∀ u' ∈ s.introduced p.functions.length, u'.name ≠ u.name := by
        intro u' hu' hname
        refine hfresh u' hu' ?_
        rw [hname]
        exact mentions_of_mem_unknowns hq hold
      obtain ⟨costs, _, rfl, _⟩ := query_eq_ok.1 hq
      obtain ⟨costs', _, rfl, _⟩ := query_eq_ok.1 hq'
      obtain ⟨hkind, o, ho, hx, hp⟩ := Query.mem_unknowns_ofCosts.1 hold
      obtain ⟨o', ho', hoo⟩ := exists_of_forall₂ hobligations.flip ho
      refine Query.mem_unknowns_ofCosts.2 ⟨hkind, o', ho', (hoo.mem_formula_names_iff hother).2 hx, ?_⟩
      rw [hoo.params_eq]
      exact hp
    · obtain ⟨f', hf', hx⟩ := exists_mem_bound_of_introduced hnew
      obtain ⟨i, f, hi, rfl⟩ := mem_scaled_functions.1 hf'
      exact mem_unknowns_of_mem_bound hq' (Supply.ofName?_of_mem_introduced hnew) hf' hx
        (not_mem_params_of_fresh hfresh u hnew f (List.mem_of_getElem? hi))

/-- Nothing is counted twice, as long as there is a number for each introduced unknown. -/
theorem unknowns_scaled_perm (hcount : 2 * p.functions.length ≤ UInt64.size) (hq : p.query m = .ok q)
    (hq' : (p.scaled s).1.query m = .ok q') :
    q'.unknowns.Perm (q.unknowns ++ s.introduced p.functions.length) := by
  have hdisjoint : List.Disjoint q.unknowns (s.introduced p.functions.length) := by
    intro u hold hnew
    exact hfresh u hnew (mentions_of_mem_unknowns hq hold)
  have hnodup : (q.unknowns ++ s.introduced p.functions.length).Nodup :=
    (nodup_names_unknowns hq).of_map.append (s.nodup_introduced hcount).of_map hdisjoint
  refine (List.perm_ext_iff_of_nodup (nodup_names_unknowns hq').of_map hnodup).2 fun u => ?_
  rw [mem_unknowns_scaled hfresh hq hq', List.mem_append]

/-- **Scaling adds its own unknowns and nothing else.** Let the program mention none of the unknowns that scaling
introduces, a factor and a summand for each bound. Then the scaled program has a query exactly if the program has one.
Its unknowns are those of the program together with the introduced ones, in the order of the bytes of their names, and
every obligation has the function, the parameters and the binders that it had. If the supply has a number for each
introduced unknown, as for every program that fits into a memory, then these are all different. -/
theorem query_scaled_exactly :
    (p.scaled s).1.functions
        = p.functions.mapIdx (fun i f => f.withBound (f.bound.scaledBy (s.factor i) (s.summand i)))
      ∧ (∀ i, (s.factor i).kind = .scale ∧ (s.summand i).kind = .offset)
      ∧ ∀ m, ((∃ q', (p.scaled s).1.query m = .ok q') ↔ ∃ q, p.query m = .ok q)
        ∧ ∀ q q', p.query m = .ok q → (p.scaled s).1.query m = .ok q' →
          (∀ u, u ∈ q'.unknowns ↔ u ∈ q.unknowns ∨ u ∈ s.introduced p.functions.length)
            ∧ (2 * p.functions.length ≤ UInt64.size →
                q'.unknowns.Perm (q.unknowns ++ s.introduced p.functions.length))
            ∧ (q'.unknowns.map (·.name)).Nodup
            ∧ (q'.unknowns.map fun u => u.name.toUTF8.data.toList).Pairwise (List.Lex (· < ·))
            ∧ List.Forall₂ (fun o o' => o'.function = o.function ∧ o'.params = o.params ∧ o'.binders = o.binders)
                q.obligations q'.obligations := by
  refine ⟨p.scaled_functions s, fun i => ⟨rfl, rfl⟩, fun m => ⟨exists_query_scaled_iff hfresh, ?_⟩⟩
  intro q q' hq hq'
  refine ⟨fun u => mem_unknowns_scaled hfresh hq hq', fun hcount => unknowns_scaled_perm hfresh hcount hq hq',
    nodup_names_unknowns hq', pairwise_utf8_unknowns hq', ?_⟩
  refine (obligations_scaled hfresh hq hq').imp fun o o' h => ⟨h.function_eq, h.params_eq, ?_⟩
  exact h.binders_eq fun u hu => Supply.ofName?_of_mem_introduced hu

omit hfresh in
/-- A factor of the first function is a parameter of the second one, and the new numbers pass from one digit to two. -/
theorem query_scaled_exactly_sharing :
    (∀ u ∈ Supply.introduced ⟨8⟩ sharing.functions.length, ¬ sharing.Mentions u.name)
      ∧ 2 * sharing.functions.length ≤ UInt64.size
      ∧ ∃ q q', sharing.query .unitCalls = .ok q ∧ (sharing.scaled ⟨8⟩).1.query .unitCalls = .ok q'
        ∧ q.unknowns.map (·.name) = ["c0__1", "c1__2"]
        ∧ q'.unknowns.map (·.name) = ["c0__1", "c0__11", "c0__9", "c1__10", "c1__12", "c1__2"]
        ∧ q'.unknowns.Perm (q.unknowns ++ Supply.introduced ⟨8⟩ sharing.functions.length)
        ∧ List.Forall₂ (fun o o' => o'.function = o.function ∧ o'.params = o.params ∧ o'.binders = o.binders)
            q.obligations q'.obligations := by
  have hfresh : ∀ u ∈ Supply.introduced ⟨8⟩ sharing.functions.length, ¬ sharing.Mentions u.name := by decide +kernel
  have hq : sharing.query .unitCalls = .ok (Query.ofCosts (sharing.functions.zip _)) := rfl
  have hq' : (sharing.scaled ⟨8⟩).1.query .unitCalls
      = .ok (Query.ofCosts ((sharing.scaled ⟨8⟩).1.functions.zip _)) := rfl
  have hcount : 2 * sharing.functions.length ≤ UInt64.size := by decide
  obtain ⟨-, hperm, -, -, hobligations⟩ := ((query_scaled_exactly hfresh).2.2 .unitCalls).2 _ _ hq hq'
  exact ⟨hfresh, hcount, _, _, hq, hq', by decide +kernel, by decide +kernel, hperm hcount, hobligations⟩

end Program

end CostBound
