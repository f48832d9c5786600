import CostBound.Proofs.ReadingProgram

/-!
# Spelled programs are read

The converse of soundness: readers accept all that the grammar derives, and give what it spells.

* `parameters_read`, `arguments_read` — lists in brackets.
* `phrases_spelled_read` — blocks, their statements, and what follows `if`. The rest of a block cannot be taken for
  an alternative of the `if` before it.
* `definition_read`, `definitions_read` — definitions.
* `program_accepts` — a program is read from some tokens if they begin with a spelling of it, and only then.
-/

namespace CostBound.TokenReader

open Token (Kind)

/-! ### Lists in brackets -/

theorem stops_of_rparen {rest : List Token} {l : Nat} (h : frontKind rest = some .rparen) : Stops l rest := by
  obtain ⟨t, rest, rfl, ht⟩ := frontKind_eq_some.1 h
  exact Stops.follower (by rw [ht]; decide)

theorem not_mem_of_nodup {seen new : List String} {name : String} (h : (seen ++ name :: new).Nodup) :
    name ∉ seen :=
  fun hmem => (List.nodup_append.1 h).2.2 name hmem name List.mem_cons_self rfl

theorem parametersFrom_read {ks : List Kind} {seen new : List String} {used rest : List Token}
    (h : Listed NameSpelled ks new) (hu : kinds used = ks) (hnodup : (seen ++ new).Nodup)
    (hr : frontKind rest = some .rparen) :
    parametersFrom seen (used ++ rest) = .ok (seen ++ new, rest) := by
  obtain ⟨closing, rest, rfl, hclosing⟩ := frontKind_eq_some.1 hr
  induction h generalizing seen used with
  | @last ks name h =>
      rw [show ks = [.ident name] from h] at hu
      obtain ⟨t, rfl, ht⟩ := List.map_eq_singleton_iff.1 hu
      have hnew := not_mem_of_nodup hnodup
      simp [parametersFrom, ht, hnew, hclosing]
  | @lastComma ks name h =>
      rw [show ks = [.ident name] from h] at hu
      obtain ⟨t, used, rfl, ht, hu⟩ := List.map_eq_cons_iff.1 hu
      obtain ⟨comma, rfl, hcomma⟩ := List.map_eq_singleton_iff.1 hu
      have hnew := not_mem_of_nodup hnodup
      simp [parametersFrom, ht, hnew, hclosing, hcomma]
  | @more ks ks' name names h hs ih =>
      rw [show ks = [.ident name] from h] at hu
      obtain ⟨t, used, rfl, ht, hu⟩ := List.map_eq_cons_iff.1 hu
      obtain ⟨comma, used, rfl, hcomma, hu⟩ := List.map_eq_cons_iff.1 hu
      have hnew := not_mem_of_nodup hnodup
      obtain ⟨k, ks'', rfl, hk⟩ := hs.front_names
      have hfront : frontKind (used ++ closing :: rest) = some k := frontKind_append hu
      have hnext : parametersFrom (seen ++ [name]) (used ++ closing :: rest) = _ :=
        ih hu (by simpa using hnodup)
      rw [List.cons_append, List.cons_append]
      generalize used ++ closing :: rest = tail at hfront hnext
      simp [parametersFrom, ht, hnew, hcomma, hfront, hk, hnext]

theorem parameters_read {ks : List Kind} {names : List String} {used rest : List Token}
    (h : Items NameSpelled ks names) (hu : kinds used = ks) (hnodup : names.Nodup)
    (hr : frontKind rest = some .rparen) : parameters (used ++ rest) = .ok (names, rest) := by
  unfold parameters
  rw [peek?_bind]
  cases h with
  | none =>
      rw [List.map_eq_nil_iff.1 hu, List.nil_append, if_pos hr]
      rfl
  | some h =>
      obtain ⟨k, ks', rfl, hk⟩ := h.front_names
      rw [frontKind_append hu, if_neg (by simpa using hk)]
      exact parametersFrom_read h hu hnodup hr

theorem argumentsWithin_read {n : Nat} {ks : List Kind} {args : List Expr} {used rest : List Token}
    (h : Listed (Expr.Spelled 0) ks args) (hu : kinds used = ks) (hn : used.length ≤ n)
    (hr : frontKind rest = some .rparen) : argumentsWithin n (used ++ rest) = .ok (args, rest) := by
  induction h generalizing used n with
  | @last ks e h =>
      obtain ⟨k, ks', rfl, -⟩ := h.front
      have hlength := congrArg List.length hu
      rw [length_kinds, List.length_cons] at hlength
      obtain ⟨n, rfl⟩ : ∃ m, n = m + 1 := ⟨n - 1, by omega⟩
      unfold argumentsWithin
      rw [bind_of_ok (expr_read h hu (stops_of_rparen hr)), peek?_bind, hr, if_neg (by decide)]
      rfl
  | @lastComma ks e h =>
      obtain ⟨us, comma, rfl, hus, hcomma⟩ := List.map_eq_append_iff.1 hu
      obtain ⟨comma, rfl, hc⟩ := List.map_eq_singleton_iff.1 hcomma
      obtain ⟨n, rfl⟩ : ∃ m, n = m + 1 := ⟨n - 1, by simp at hn; omega⟩
      have hstop : Stops 0 (comma :: rest) := Stops.follower (by rw [hc]; decide)
      rw [List.append_assoc, List.singleton_append]
      unfold argumentsWithin
      rw [bind_of_ok (expr_read h hus hstop), peek?_bind, frontKind_cons, hc, if_pos rfl, next_bind_cons,
        peek?_bind, if_pos hr]
      rfl
  | @more ks ks' e es h hs ih =>
      obtain ⟨us, used, rfl, hus, hu⟩ := List.map_eq_append_iff.1 hu
      obtain ⟨comma, used, rfl, hc, hu⟩ := List.map_eq_cons_iff.1 hu
      obtain ⟨n, rfl⟩ : ∃ m, n = m + 1 := ⟨n - 1, by simp at hn; omega⟩
      have hstop : Stops 0 (comma :: (used ++ rest)) := Stops.follower (by rw [hc]; decide)
      obtain ⟨k, ks'', rfl, hk⟩ := hs.front_exprs
      rw [List.append_assoc, List.cons_append]
      unfold argumentsWithin
      rw [bind_of_ok (expr_read h hus hstop), peek?_bind, frontKind_cons, hc, if_pos rfl, next_bind_cons,
        peek?_bind, frontKind_append hu, if_neg (by simpa using hk), bind_of_ok (ih hu (by simp at hn; omega))]
      rfl

theorem arguments_read {ks : List Kind} {args : List Expr} {used rest : List Token}
    (h : Items (Expr.Spelled 0) ks args) (hu : kinds used = ks) (hr : frontKind rest = some .rparen) :
    arguments (used ++ rest) = .ok (args, rest) := by
  unfold arguments
  rw [peek?_bind]
  cases h with
  | none =>
      rw [List.map_eq_nil_iff.1 hu, List.nil_append, if_pos hr]
      rfl
  | some h =>
      obtain ⟨k, ks', rfl, hk⟩ := h.front_exprs
      rw [frontKind_append hu, if_neg (by simpa using hk)]
      exact argumentsWithin_read h hu (by rw [List.length_append]; omega) hr

/-! ### Commands -/

theorem endOfLine_of_lineEnds {ks ks' : List Kind} {us : List Token} (h : LineEnds ks ks')
    (hu : kinds us = ks) (rest : List Token) :
    ∃ us', kinds us' = ks' ∧ us'.length ≤ us.length ∧ endOfLine (us ++ rest) = .ok ((), us' ++ rest) := by
  obtain rfl | ⟨rfl, hd⟩ := h
  · obtain ⟨t, us', rfl, ht, hu'⟩ := List.map_eq_cons_iff.1 hu
    exact ⟨us', hu', Nat.le_succ _, endOfLine_eq_ok.2 (.inl ⟨t, rfl, ht⟩)⟩
  · obtain ⟨ks, rfl⟩ := List.head?_eq_some_iff.1 hd
    exact ⟨us, hu, Nat.le_refl _, endOfLine_eq_ok.2 (.inr ⟨rfl, .inl (frontKind_append hu)⟩)⟩

theorem call_read {as : List Kind} {callee : String} {args : List Expr} {used mid rest : List Token}
    (h : Items (Expr.Spelled 0) as args)
    (hu : kinds used = .ident callee :: .lparen :: as ++ [.rparen]) (he : endOfLine mid = .ok ((), rest)) :
    call (used ++ mid) = .ok (.call callee args, rest) := by
  obtain ⟨t, used, rfl, ht, hu⟩ := List.map_eq_cons_iff.1 hu
  obtain ⟨opening, used, rfl, ho, hu⟩ := List.map_eq_cons_iff.1 hu
  obtain ⟨us, closing, rfl, hus, hclosing⟩ := List.map_eq_append_iff.1 hu
  obtain ⟨closing, rfl, hc⟩ := List.map_eq_singleton_iff.1 hclosing
  have hident : ident (t :: opening :: (us ++ closing :: mid)) = .ok ((callee, t.span), _) :=
    ident_eq_ok.2 ⟨t, rfl, ht, rfl⟩
  have hargs : arguments (us ++ closing :: mid) = .ok (args, closing :: mid) :=
    arguments_read h hus (by rw [frontKind_cons, hc])
  rw [List.cons_append, List.cons_append, List.append_assoc, List.singleton_append]
  unfold call
  rw [bind_of_ok hident]
  dsimp only
  rw [peek?_bind, frontKind_cons, ho, if_pos rfl, next_bind_cons, bind_of_ok hargs, expect_bind_cons hc,
    bind_of_ok he]
  rfl

/-- What follows an `if` and its block is none of its alternatives. -/
def NoArm (rest : List Token) : Prop :=
  frontKind (rest.dropWhile (·.kind = .newline)) ≠ some .kwElif ∧
    frontKind (rest.dropWhile (·.kind = .newline)) ≠ some .kwElse

/-- Line ends before the rest of a block may be passed over. -/
theorem statements_dropWhile {us : List Token} {commands : List Command}
    (h : Phrase.Spelled (kinds us) (.statements commands)) (rest : List Token) :
    NoArm (us ++ rest) ∧ ∃ us', us'.length ≤ us.length ∧ Phrase.Spelled (kinds us') (.statements commands) ∧
      (us ++ rest).dropWhile (·.kind = .newline) = us' ++ rest := by
  induction us with
  | nil =>
      obtain ⟨k, ks, hks, -⟩ := h.front
      cases hks
  | cons t us ih =>
      by_cases ht : t.kind = .newline
      · rw [kinds_cons, ht] at h
        obtain ⟨hno, us', hlength, hus', hdrop⟩ := ih h.of_blank
        have hstep : (t :: us ++ rest).dropWhile (·.kind = .newline)
            = (us ++ rest).dropWhile (·.kind = .newline) :=
          List.dropWhile_cons_of_pos (by simpa using ht)
        unfold NoArm
        rw [hstep]
        exact ⟨hno, us', Nat.le_succ_of_le hlength, hus', hdrop⟩
      · have hstep : (t :: us ++ rest).dropWhile (·.kind = .newline) = t :: us ++ rest :=
          List.dropWhile_cons_of_neg (by simpa using ht)
        obtain ⟨k, ks, hks, -, helif, helse⟩ := h.front
        cases hks
        unfold NoArm
        rw [hstep]
        exact ⟨⟨by simpa using helif, by simpa using helse⟩, t :: us, Nat.le_refl _, h, rfl⟩

/-- What follows `if` is read as it is spelled; line ends after it may be passed over. -/
def ArmsRead (n : Nat) : Prop :=
  ∀ ⦃ks c used rest⦄, Phrase.Spelled ks (.arms c) → kinds used = ks → used.length ≤ n → NoArm rest →
    branches n (used ++ rest) = .ok (c, rest) ∨
      branches n (used ++ rest) = .ok (c, rest.dropWhile (·.kind = .newline))

def BlockRead (n : Nat) : Prop :=
  ∀ ⦃ks c used⦄ (rest), Phrase.Spelled ks (.block c) → kinds used = ks → used.length ≤ n →
    ∃ span, block n (used ++ rest) = .ok ((c, span), rest)

def StatementsRead (n : Nat) : Prop :=
  ∀ ⦃ks cs used⦄ (opening rest), Phrase.Spelled ks (.statements cs) → kinds used = ks → used.length ≤ n →
    ∃ span, statements opening n (used ++ rest) = .ok ((cs, span), rest)

theorem blockRead_succ {n : Nat} (hstatements : StatementsRead n) : BlockRead (n + 1) := by
  intro ks c used rest h hu hn
  cases h with
  | block h =>
      obtain ⟨t, used, rfl, ht, hu⟩ := List.map_eq_cons_iff.1 hu
      obtain ⟨opening, used, rfl, ho, hu⟩ := List.map_eq_cons_iff.1 hu
      obtain ⟨span, hread⟩ := hstatements opening.span rest h hu (by simp at hn; omega)
      refine ⟨opening.span.join span, ?_⟩
      rw [List.cons_append, List.cons_append]
      unfold block
      rw [expect_bind_cons ht, expect_bind_cons ho, bind_of_ok hread]
      rfl

section Alternatives

variable {arms : TokenReader Command} {blocks : TokenReader (Command × Span)} {test : Expr} {yes no : Command}
  {gap ts rest : List Token}

theorem alternatives_none (h : NoArm rest) :
    alternatives arms blocks test yes rest
      = .ok (.choose test yes .pass, rest.dropWhile (·.kind = .newline)) := by
  unfold alternatives
  rw [bind_of_ok skipNewlines_eq, peek?_bind]
  obtain ⟨helif, helse⟩ := h
  cases hk : frontKind (rest.dropWhile (·.kind = .newline)) with
  | none => rfl
  | some k =>
      rw [hk] at helif helse
      cases k with
      | kwElif => exact absurd rfl helif
      | kwElse => exact absurd rfl helse
      | _ => rfl

theorem alternatives_elif {t : Token} (hgap : Gap gap) (ht : t.kind = .kwElif) (h : arms ts = .ok (no, rest)) :
    alternatives arms blocks test yes (gap ++ t :: ts) = .ok (.choose test yes no, rest) := by
  have hfront : frontKind (t :: ts) ≠ some .newline := by simp [ht]
  unfold alternatives
  rw [bind_of_ok skipNewlines_eq, peek?_bind, hgap.dropWhile_append, dropWhile_newline_eq_self hfront,
    frontKind_cons, ht]
  dsimp only
  rw [next_bind_cons, bind_of_ok h]
  rfl

theorem alternatives_else {t colon : Token} {span : Span} (hgap : Gap gap) (ht : t.kind = .kwElse)
    (hc : colon.kind = .colon) (h : blocks ts = .ok ((no, span), rest)) :
    alternatives arms blocks test yes (gap ++ t :: colon :: ts) = .ok (.choose test yes no, rest) := by
  have hfront : frontKind (t :: colon :: ts) ≠ some .newline := by simp [ht]
  unfold alternatives
  rw [bind_of_ok skipNewlines_eq, peek?_bind, hgap.dropWhile_append, dropWhile_newline_eq_self hfront,
    frontKind_cons, ht]
  dsimp only
  rw [next_bind_cons, expect_bind_cons hc, bind_of_ok h]
  rfl

end Alternatives

/-- The common beginning of all that follows `if`. -/
theorem branches_read {n : Nat} {cs ys : List Kind} {us vs : List Token} {test : Expr} {yes : Command}
    {colon : Token} (hblock : BlockRead n) (hcs : Expr.Spelled 0 cs test) (hys : Phrase.Spelled ys (.block yes))
    (hus : kinds us = cs) (hc : colon.kind = .colon) (hvs : kinds vs = ys) (hn : vs.length ≤ n)
    (rest : List Token) :
    branches (n + 1) (us ++ colon :: (vs ++ rest)) = alternatives (branches n) (block n) test yes rest := by
  have hstop : Stops 0 (colon :: (vs ++ rest)) := Stops.follower (by rw [hc]; decide)
  obtain ⟨span, hread⟩ := hblock rest hys hvs hn
  rw [branches, bind_of_ok (expr_read hcs hus hstop), expect_bind_cons hc, bind_of_ok hread]

theorem armsRead_succ {n : Nat} (harms : ArmsRead n) (hblock : BlockRead n) : ArmsRead (n + 1) := by
  intro ks c used rest h hu hn hno
  cases h with
  | ifOnly m hcs hys =>
      obtain ⟨used, gap, rfl, hu₁, hgap⟩ := List.map_eq_append_iff.1 hu
      obtain ⟨us, vs, rfl, hus, hvs⟩ := List.map_eq_append_iff.1 hu₁
      obtain ⟨colon, vs, rfl, hc, hvs⟩ := List.map_eq_cons_iff.1 hvs
      have hfirst := branches_read hblock hcs hys hus hc hvs (by simp at hn; omega) (gap ++ rest)
      have hdrop := (gap_of_kinds hgap).dropWhile_append rest
      right
      simp only [List.append_assoc, List.cons_append]
      rw [hfirst, ← hdrop]
      exact alternatives_none (by unfold NoArm; rw [hdrop]; exact hno)
  | ifElif m hcs hys hzs =>
      obtain ⟨used, ws, rfl, hu₁, hws⟩ := List.map_eq_append_iff.1 hu
      obtain ⟨t, ws, rfl, ht, hws⟩ := List.map_eq_cons_iff.1 hws
      obtain ⟨used, gap, rfl, hu₂, hgap⟩ := List.map_eq_append_iff.1 hu₁
      obtain ⟨us, vs, rfl, hus, hvs⟩ := List.map_eq_append_iff.1 hu₂
      obtain ⟨colon, vs, rfl, hc, hvs⟩ := List.map_eq_cons_iff.1 hvs
      have hfirst := branches_read hblock hcs hys hus hc hvs (by simp at hn; omega)
        (gap ++ t :: (ws ++ rest))
      simp only [List.append_assoc, List.cons_append]
      rw [hfirst]
      obtain hread | hread := harms hzs hws (by simp at hn; omega) hno
      · exact .inl (alternatives_elif (gap_of_kinds hgap) ht hread)
      · exact .inr (alternatives_elif (gap_of_kinds hgap) ht hread)
  | ifElse m hcs hys hzs =>
      obtain ⟨used, ws, rfl, hu₁, hws⟩ := List.map_eq_append_iff.1 hu
      obtain ⟨t, ws, rfl, ht, hws⟩ := List.map_eq_cons_iff.1 hws
      obtain ⟨colon', ws, rfl, hc', hws⟩ := List.map_eq_cons_iff.1 hws
      obtain ⟨used, gap, rfl, hu₂, hgap⟩ := List.map_eq_append_iff.1 hu₁
      obtain ⟨us, vs, rfl, hus, hvs⟩ := List.map_eq_append_iff.1 hu₂
      obtain ⟨colon, vs, rfl, hc, hvs⟩ := List.map_eq_cons_iff.1 hvs
      have hfirst := branches_read hblock hcs hys hus hc hvs (by simp at hn; omega)
        (gap ++ t :: colon' :: (ws ++ rest))
      obtain ⟨span, hread⟩ := hblock rest hzs hws (by simp at hn; omega)
      left
      simp only [List.append_assoc, List.cons_append]
      rw [hfirst]
      exact alternatives_else (gap_of_kinds hgap) ht hc' hread

theorem statementsRead_succ {n : Nat} (harms : ArmsRead n) (hstatements : StatementsRead n) :
    StatementsRead (n + 1) := by
  intro ks cs used opening rest h hu hn
  -- the kinds and the phrase are both indices, so the phrase is named before the case split
  generalize hp : Phrase.statements cs = p at h
  cases h with
  | ifOnly | ifElif | ifElse | block => cases hp
  | done =>
      cases hp
      obtain ⟨t, rfl, ht⟩ := List.map_eq_singleton_iff.1 hu
      refine ⟨t.span, ?_⟩
      rw [List.singleton_append, statements, peek?_bind, frontKind_cons, ht]
      rfl
  | blank h =>
      cases hp
      obtain ⟨t, used, rfl, ht, hu⟩ := List.map_eq_cons_iff.1 hu
      obtain ⟨span, hread⟩ := hstatements opening rest h hu (by simp at hn; omega)
      refine ⟨span, ?_⟩
      rw [List.cons_append, statements, peek?_bind, frontKind_cons, ht]
      exact hread
  | pass he h =>
      cases hp
      obtain ⟨t, used, rfl, ht, hu⟩ := List.map_eq_cons_iff.1 hu
      obtain ⟨us, hus, hlength, hend⟩ := endOfLine_of_lineEnds he hu rest
      obtain ⟨span, hread⟩ := hstatements opening rest h hus (by simp at hn; omega)
      refine ⟨span, ?_⟩
      rw [List.cons_append, statements, peek?_bind, frontKind_cons, ht]
      dsimp only
      rw [next_bind_cons, bind_of_ok hend, bind_of_ok hread]
      rfl
  | @call as ks ks' callee args commands ha he h =>
      cases hp
      obtain ⟨called, mid, rfl, hcalled, hmid⟩ : ∃ called mid, used = called ++ mid ∧
          kinds called = .ident callee :: .lparen :: as ++ [.rparen] ∧ kinds mid = ks := by
        refine List.map_eq_append_iff.1 (hu.trans ?_)
        simp
      obtain ⟨us, hus, hlength, hend⟩ := endOfLine_of_lineEnds he hmid rest
      have hcalls := call_read ha hcalled hend
      have hfront : frontKind (called ++ (mid ++ rest)) = some (.ident callee) := frontKind_append hcalled
      have hshort : 0 < called.length := by
        rw [← length_kinds, hcalled]
        exact Nat.succ_pos _
      obtain ⟨span, hread⟩ := hstatements opening rest h hus (by simp at hn; omega)
      refine ⟨span, ?_⟩
      rw [List.append_assoc, statements, peek?_bind, hfront]
      dsimp only
      rw [bind_of_ok hcalls, bind_of_ok hread]
      rfl
  | choose hb h =>
      cases hp
      obtain ⟨t, used, rfl, ht, hu₁⟩ := List.map_eq_cons_iff.1 hu
      obtain ⟨vs, us, rfl, hvs, hus⟩ := List.map_eq_append_iff.1 hu₁
      subst hus
      obtain ⟨hno, us', hlength, hus', hdrop⟩ := statements_dropWhile h rest
      rw [List.length_cons, List.length_append] at hn
      rw [List.cons_append, List.append_assoc, statements, peek?_bind, frontKind_cons, ht]
      dsimp only
      rw [next_bind_cons]
      -- an `if` without alternatives has looked for them past the line ends, which are then missing here
      obtain hread | hread := harms hb hvs (by omega) hno
      · obtain ⟨span, hrest⟩ := hstatements opening rest h rfl (by omega)
        refine ⟨span, ?_⟩
        rw [bind_of_ok hread, bind_of_ok hrest]
        rfl
      · obtain ⟨span, hrest⟩ := hstatements opening rest hus' rfl (by omega)
        refine ⟨span, ?_⟩
        rw [bind_of_ok hread, hdrop, bind_of_ok hrest]
        rfl

theorem phrases_spelled_read (n : Nat) : ArmsRead n ∧ BlockRead n ∧ StatementsRead n := by
  induction n with
  | zero =>
      refine ⟨fun ks c used rest h hu hn hno => ?_, fun ks c used rest h hu hn => ?_,
        fun ks cs used opening rest h hu hn => ?_⟩
      all_goals
        obtain rfl : used = [] := List.length_eq_zero_iff.1 (Nat.le_zero.1 hn)
        exact absurd hu.symm h.ne_nil
  | succ n ih =>
      obtain ⟨harms, hblock, hstatements⟩ := ih
      exact ⟨armsRead_succ harms hblock, blockRead_succ hstatements, statementsRead_succ harms hstatements⟩

/-! ### Definitions -/

theorem claimedBound_read {ks : List Kind} {e : Expr} {used rest : List Token} (h : BoundSpelled ks e)
    (hu : kinds used = ks) (hr : frontKind rest = some .colon) :
    claimedBound (used ++ rest) = .ok (e, rest) := by
  unfold claimedBound
  cases h with
  | absent =>
      rw [List.map_eq_nil_iff.1 hu, List.nil_append, peek?_bind, hr, if_neg (by decide)]
      rfl
  | text text =>
      obtain ⟨t, used, rfl, ht, hu₁⟩ := List.map_eq_cons_iff.1 hu
      obtain ⟨u, rfl, hk⟩ := List.map_eq_singleton_iff.1 hu₁
      rw [List.cons_append, List.singleton_append, peek?_bind, frontKind_cons, ht, if_pos rfl, next_bind_cons,
        next_bind_cons, hk]
      rfl

theorem definition_read {ks : List Kind} {f : Function} {used : List Token} (h : Function.Spelled ks f)
    (hu : kinds used = ks) (rest : List Token) : definition (used ++ rest) = .ok (f, rest) := by
  cases h with
  | @mk ps bs ys _ hp hd hb hy =>
      obtain ⟨used, vs, rfl, hu₁, hvs⟩ := List.map_eq_append_iff.1 hu
      obtain ⟨colon, vs, rfl, hcol, hvs⟩ := List.map_eq_cons_iff.1 hvs
      obtain ⟨used, qs, rfl, hu₂, hqs⟩ := List.map_eq_append_iff.1 hu₁
      obtain ⟨closing, qs, rfl, hc, hqs⟩ := List.map_eq_cons_iff.1 hqs
      obtain ⟨start, used, rfl, hs, hu₃⟩ := List.map_eq_cons_iff.1 hu₂
      obtain ⟨t, used, rfl, ht, hu₄⟩ := List.map_eq_cons_iff.1 hu₃
      obtain ⟨opening, us, rfl, ho, hus⟩ := List.map_eq_cons_iff.1 hu₄
      have hident : ident (t :: opening :: (us ++ closing :: (qs ++ colon :: (vs ++ rest))))
          = .ok ((f.name, t.span), _) := ident_eq_ok.2 ⟨t, rfl, ht, rfl⟩
      have hfront : frontKind (closing :: (qs ++ colon :: (vs ++ rest))) = some .rparen := congrArg some hc
      have hparams := parameters_read hp hus hd hfront
      have hfront' : frontKind (colon :: (vs ++ rest)) = some .colon := congrArg some hcol
      have hbound := claimedBound_read hb hqs hfront'
      obtain ⟨span, hbody⟩ := (phrases_spelled_read (vs ++ rest).length).2.1 rest hy hvs
        (by rw [List.length_append]; omega)
      have hmake : Function.make f.name f.params f.body f.bound = .ok f := make_eq_ok.2 ⟨rfl, rfl, rfl, rfl⟩
      simp only [List.append_assoc, List.cons_append]
      unfold definition
      rw [expect_bind_cons hs, bind_of_ok hident]
      dsimp only
      rw [expect_bind_cons ho, bind_of_ok hparams, expect_bind_cons hc, bind_of_ok hbound,
        expect_bind_cons hcol, bind_of_ok (bounded_eq.trans hbody)]
      dsimp only
      rw [hmake]
      rfl

theorem definitions_read {ks : List Kind} {fs : List Function} {n : Nat} {used rest : List Token}
    (h : Definitions ks fs) (hu : kinds used = ks) (hr : frontKind rest = some .eof) (hn : used.length < n) :
    definitions n (used ++ rest) = .ok (fs, rest) := by
  obtain ⟨n, rfl⟩ : ∃ m, n = m + 1 := ⟨n - 1, by omega⟩
  induction h generalizing used n with
  | nil =>
      rw [List.map_eq_nil_iff.1 hu, List.nil_append, definitions, peek?_bind, hr]
      rfl
  | blank h ih =>
      obtain ⟨t, used, rfl, ht, hu₁⟩ := List.map_eq_cons_iff.1 hu
      rw [List.length_cons] at hn
      obtain ⟨n, rfl⟩ : ∃ m, n = m + 1 := ⟨n - 1, by omega⟩
      rw [List.cons_append, definitions, peek?_bind, frontKind_cons, ht]
      exact ih hu₁ n (by omega)
  | cons h hs ih =>
      obtain ⟨us, vs, rfl, hus, hvs⟩ := List.map_eq_append_iff.1 hu
      obtain ⟨ks', rfl⟩ := h.front
      have hlength : us.length = ks'.length + 1 := by
        rw [← length_kinds, kinds, hus, List.length_cons]
      rw [List.length_append] at hn
      obtain ⟨n, rfl⟩ : ∃ m, n = m + 1 := ⟨n - 1, by omega⟩
      rw [List.append_assoc, definitions, peek?_bind, frontKind_append hus]
      dsimp only
      rw [bind_of_ok (definition_read h hus (vs ++ rest)), bind_of_ok (ih hvs n (by omega))]
      rfl

/-! ### Programs -/

theorem program_eq_ok {ts rest : List Token} {p : Program} :
    program ts = .ok (p, rest) ↔
      ∃ used, ts = used ++ rest ∧ Definitions (kinds used) p.functions ∧ frontKind rest = some .eof := by
  unfold program
  rw [bind_eq_ok]
  constructor
  · intro h
    obtain ⟨fs, mid, hfs, hp⟩ := h
    obtain ⟨rfl, rfl⟩ := pure_eq_ok.1 hp
    exact definitions_reads hfs
  · intro h
    obtain ⟨used, rfl, hused, heof⟩ := h
    obtain ⟨t, rest, rfl, ht⟩ := frontKind_eq_some.1 heof
    refine ⟨p.functions, t :: rest, ?_, rfl⟩
    rw [bounded_eq]
    exact definitions_read hused rfl heof (by simp)

/-- The tokens of a spelled program are read up to the end of the text, which is left. -/
theorem program_read {ts used : List Token} {p : Program} (hu : used <+: ts)
    (h : Program.Spelled (kinds used) p) :
    ∃ defs eof rest, used = defs ++ [eof] ∧ ts = defs ++ eof :: rest ∧ program ts = .ok (p, eof :: rest) := by
  obtain ⟨rest, rfl⟩ := hu
  generalize hks : kinds used = ks at h
  cases h with
  | mk h =>
      obtain ⟨defs, last, rfl, hdefs, hlast⟩ := List.map_eq_append_iff.1 hks
      obtain ⟨eof, rfl, heof⟩ := List.map_eq_singleton_iff.1 hlast
      subst hdefs
      refine ⟨defs, eof, rest, rfl, by simp, ?_⟩
      exact program_eq_ok.2 ⟨defs, by simp, h, congrArg some heof⟩

/-- **The reader of programs accepts its grammar.** It gives a program if the tokens begin with a spelling of that
program, and only then; what stands after the spelling does not matter. No tokens begin with spellings of two programs,
nor with two spellings of one. -/
theorem program_accepts (ts : List Token) :
    (∀ p, (∃ rest, program ts = .ok (p, rest)) ↔ ∃ used, used <+: ts ∧ Program.Spelled (kinds used) p)
      ∧ ∀ used used' p p', used <+: ts → used' <+: ts → Program.Spelled (kinds used) p →
          Program.Spelled (kinds used') p' → used = used' ∧ p = p' := by
  refine ⟨fun p => ⟨fun h => ?_, fun h => ?_⟩, fun used used' p p' hu hu' h h' => ?_⟩
  · obtain ⟨_, hread⟩ := h
    obtain ⟨defs, rfl, hdefs, heof⟩ := program_eq_ok.1 hread
    obtain ⟨eof, rest, rfl, hk⟩ := frontKind_eq_some.1 heof
    refine ⟨defs ++ [eof], ⟨rest, by simp⟩, ?_⟩
    rw [kinds_append, kinds_cons, hk]
    exact .mk hdefs
  · obtain ⟨used, hu, hspelled⟩ := h
    obtain ⟨_, _, _, _, _, hread⟩ := program_read hu hspelled
    exact ⟨_, hread⟩
  · obtain ⟨defs, eof, rest, rfl, hts, hread⟩ := program_read hu h
    obtain ⟨defs', eof', rest', rfl, hts', hread'⟩ := program_read hu' h'
    -- both spellings leave the same tokens, so they are equally long
    cases hread.symm.trans hread'
    rw [List.append_cancel_right (hts.symm.trans hts')]
    exact ⟨rfl, rfl⟩

end CostBound.TokenReader
