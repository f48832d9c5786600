import CostBound.Proofs.ReadingExpr

/-!
# Reading programs against the grammar

What is read from some tokens is what they spell.

* `parameters_reads`, `arguments_reads` — lists in brackets.
* `phrases_read` — blocks, their statements, and what follows `if`, by induction on the bound of the readers.
* `definition_reads`, `definitions_reads` — definitions.
-/

namespace CostBound.TokenReader

open Token (Kind)

/-! ### Lists in brackets: what is read is spelled -/

theorem nodup_snoc {names : List String} {name : String} (h : names.Nodup) (hn : name ∉ names) :
    (names ++ [name]).Nodup := by
  rw [List.nodup_append]
  refine ⟨h, List.pairwise_singleton _ name, fun a ha b hb heq => hn ?_⟩
  rw [List.mem_singleton.1 hb] at heq
  rw [← heq]
  exact ha

theorem parametersFrom_reads {seen names : List String} {ts rest : List Token} (hseen : seen.Nodup)
    (h : parametersFrom seen ts = .ok (names, rest)) :
    ∃ used new, ts = used ++ rest ∧ Listed NameSpelled (kinds used) new ∧ names = seen ++ new ∧
      names.Nodup := by
  have spelled : ∀ {t : Token} {name : String}, t.kind = .ident name → NameSpelled (kinds [t]) name :=
    fun hk => congrArg (fun k => [k]) hk
  fun_induction parametersFrom seen ts with
  | case1 => cases h
  | case2 => cases h
  | case3 seen t name hk hnew comma rest' hc hr =>
      cases h
      have hlast : Listed NameSpelled (kinds [t, comma]) [name] := by
        show Listed NameSpelled (kinds [t] ++ [comma.kind]) [name]
        rw [hc]
        exact .lastComma (spelled hk)
      exact ⟨[t, comma], [name], rfl, hlast, rfl, nodup_snoc hseen hnew⟩
  | case4 seen t name hk hnew comma rest' hc hr ih =>
      obtain ⟨used, new, rfl, hused, rfl, hnodup⟩ := ih (nodup_snoc hseen hnew) h
      have hmore : Listed NameSpelled (kinds (t :: comma :: used)) (name :: new) := by
        show Listed NameSpelled (kinds [t] ++ comma.kind :: kinds used) (name :: new)
        rw [hc]
        exact .more (spelled hk) hused
      exact ⟨t :: comma :: used, name :: new, rfl, hmore, by simp, hnodup⟩
  | case5 seen t name hk hnew comma rest' hc =>
      cases h
      exact ⟨[t], [name], rfl, .last (spelled hk), rfl, nodup_snoc hseen hnew⟩
  | case6 seen t name hk hnew =>
      cases h
      exact ⟨[t], [name], rfl, .last (spelled hk), rfl, nodup_snoc hseen hnew⟩
  | case7 => cases h

theorem parameters_reads : Reads parameters (fun ks names => Items NameSpelled ks names ∧ names.Nodup) := by
  intro ts names rest h
  unfold parameters at h
  rw [peek?_bind] at h
  split at h
  · obtain ⟨rfl, rfl⟩ := pure_eq_ok.1 h
    exact ⟨[], rfl, .none, List.nodup_nil⟩
  · obtain ⟨used, new, rfl, hused, rfl, hnodup⟩ := parametersFrom_reads List.nodup_nil h
    exact ⟨used, rfl, .some hused, hnodup⟩

theorem argumentsWithin_reads (n : Nat) : Reads (argumentsWithin n) (Listed (Expr.Spelled 0)) := by
  induction n with
  | zero =>
      intro ts args rest h
      exact absurd h fail_ne_ok
  | succ n ih =>
      intro ts args rest h
      obtain ⟨e, mid, he, h₁⟩ := bind_eq_ok.1 h
      obtain ⟨used, rfl, hused⟩ := expr_reads he
      rw [peek?_bind] at h₁
      split at h₁
      · rename_i hfront
        obtain ⟨comma, mid, rfl, hc⟩ := frontKind_eq_some.1 hfront
        rw [next_bind_cons, peek?_bind] at h₁
        split at h₁
        · obtain ⟨rfl, rfl⟩ := pure_eq_ok.1 h₁
          exact ⟨used ++ [comma], by simp, by simpa [hc] using Listed.lastComma hused⟩
        · obtain ⟨args', mid', hargs, h₂⟩ := bind_eq_ok.1 h₁
          obtain ⟨rfl, rfl⟩ := pure_eq_ok.1 h₂
          obtain ⟨used', rfl, hused'⟩ := ih hargs
          exact ⟨used ++ comma :: used', by simp, by simpa [hc] using Listed.more hused hused'⟩
      · obtain ⟨rfl, rfl⟩ := pure_eq_ok.1 h₁
        exact ⟨used, rfl, .last hused⟩

theorem arguments_reads : Reads arguments (Items (Expr.Spelled 0)) := by
  intro ts args rest h
  unfold arguments at h
  rw [peek?_bind] at h
  split at h
  · obtain ⟨rfl, rfl⟩ := pure_eq_ok.1 h
    exact ⟨[], rfl, .none⟩
  · obtain ⟨used, rfl, hused⟩ := argumentsWithin_reads ts.length h
    exact ⟨used, rfl, .some hused⟩

/-! ### Commands: what is read is spelled -/

theorem call_reads {ts rest : List Token} {c : Command} (h : call ts = .ok (c, rest)) :
    ∃ callee args as used mid, c = .call callee args ∧ ts = used ++ mid ∧
      kinds used = .ident callee :: .lparen :: as ++ [.rparen] ∧ Items (Expr.Spelled 0) as args ∧
      endOfLine mid = .ok ((), rest) := by
  obtain ⟨⟨callee, span⟩, mid, hcallee, h₁⟩ := bind_eq_ok.1 h
  obtain ⟨t, rfl, ht, -⟩ := ident_eq_ok.1 hcallee
  dsimp only at h₁
  rw [peek?_bind] at h₁
  split at h₁
  · rename_i hfront
    obtain ⟨opening, mid, rfl, ho⟩ := frontKind_eq_some.1 hfront
    rw [next_bind_cons] at h₁
    obtain ⟨args, mid, hargs, h₂⟩ := bind_eq_ok.1 h₁
    obtain ⟨used, rfl, hused⟩ := arguments_reads hargs
    obtain ⟨closing, mid, hclosing, h₃⟩ := bind_eq_ok.1 h₂
    obtain ⟨rfl, hc⟩ := expect_eq_ok.1 hclosing
    obtain ⟨_, mid', hend, h₄⟩ := bind_eq_ok.1 h₃
    obtain ⟨rfl, rfl⟩ := pure_eq_ok.1 h₄
    exact ⟨callee, args, kinds used, t :: opening :: used ++ [closing], mid, rfl, by simp,
      by simp [ht, ho, hc], hused, hend⟩
  · exact absurd h₁ fail_ne_ok

/-- The alternatives of an `if` whose test and first block are spelled by `cs` and `ys`. -/
theorem alternatives_reads {arms : TokenReader Command} {block : TokenReader (Command × Span)} {cs ys : List Kind}
    {test : Expr} {yes : Command} (harms : Reads arms (fun ks c => Phrase.Spelled ks (.arms c)))
    (hblock : Reads block (fun ks p => Phrase.Spelled ks (.block p.1))) (hcs : Expr.Spelled 0 cs test)
    (hys : Phrase.Spelled ys (.block yes)) :
    Reads (alternatives arms block test yes)
      (fun ks c => Phrase.Spelled (cs ++ .colon :: ys ++ ks) (.arms c)) := by
  intro ts c rest h
  unfold alternatives at h
  obtain ⟨gap, hgap, hts⟩ := gap_append_dropWhile ts
  rw [bind_of_ok skipNewlines_eq, peek?_bind] at h
  generalize ts.dropWhile (·.kind = .newline) = after at h hts
  subst hts
  cases hk : frontKind after with
  | none =>
      rw [hk] at h
      obtain ⟨rfl, rfl⟩ := pure_eq_ok.1 h
      exact ⟨gap, rfl, by simpa [hgap.kinds_eq] using Phrase.Spelled.ifOnly gap.length hcs hys⟩
  | some k =>
      rw [hk] at h
      cases k with
      | kwElif =>
          obtain ⟨t, after, rfl, ht⟩ := frontKind_eq_some.1 hk
          dsimp only at h
          rw [next_bind_cons] at h
          obtain ⟨no, mid, hno, h₁⟩ := bind_eq_ok.1 h
          obtain ⟨rfl, rfl⟩ := pure_eq_ok.1 h₁
          obtain ⟨zs, rfl, hzs⟩ := harms hno
          exact ⟨gap ++ t :: zs, by simp, by
            simpa [ht, hgap.kinds_eq] using Phrase.Spelled.ifElif gap.length hcs hys hzs⟩
      | kwElse =>
          obtain ⟨t, after, rfl, ht⟩ := frontKind_eq_some.1 hk
          dsimp only at h
          rw [next_bind_cons] at h
          obtain ⟨colon, mid, hcolon, h₁⟩ := bind_eq_ok.1 h
          obtain ⟨rfl, hc⟩ := expect_eq_ok.1 hcolon
          obtain ⟨⟨no, span⟩, mid, hno, h₂⟩ := bind_eq_ok.1 h₁
          obtain ⟨rfl, rfl⟩ := pure_eq_ok.1 h₂
          obtain ⟨zs, rfl, hzs⟩ := hblock hno
          exact ⟨gap ++ t :: colon :: zs, by simp, by
            simpa [hc, ht, hgap.kinds_eq] using Phrase.Spelled.ifElse gap.length hcs hys hzs⟩
      | _ =>
          obtain ⟨rfl, rfl⟩ := pure_eq_ok.1 h
          exact ⟨gap, rfl, by simpa [hgap.kinds_eq] using Phrase.Spelled.ifOnly gap.length hcs hys⟩

theorem branches_reads {n : Nat} (hblock : Reads (block n) (fun ks p => Phrase.Spelled ks (.block p.1)))
    (harms : Reads (branches n) (fun ks c => Phrase.Spelled ks (.arms c))) :
    Reads (branches (n + 1)) (fun ks c => Phrase.Spelled ks (.arms c)) := by
  intro ts c rest h
  unfold branches at h
  obtain ⟨test, mid, htest, h₁⟩ := bind_eq_ok.1 h
  obtain ⟨us, rfl, hus⟩ := expr_reads htest
  obtain ⟨colon, mid, hcolon, h₂⟩ := bind_eq_ok.1 h₁
  obtain ⟨rfl, hc⟩ := expect_eq_ok.1 hcolon
  obtain ⟨⟨yes, span⟩, mid, hyes, h₃⟩ := bind_eq_ok.1 h₂
  obtain ⟨ys, rfl, hys⟩ := hblock hyes
  obtain ⟨zs, rfl, hzs⟩ := alternatives_reads harms hblock hus hys h₃
  exact ⟨us ++ colon :: ys ++ zs, by simp, by simpa [hc] using hzs⟩

theorem block_reads {n : Nat}
    (hstatements : ∀ opening,
      Reads (statements opening n) (fun ks p => Phrase.Spelled ks (.statements p.1))) :
    Reads (block (n + 1)) (fun ks p => Phrase.Spelled ks (.block p.1)) := by
  intro ts p rest h
  unfold block at h
  obtain ⟨t, mid, hnewline, h₁⟩ := bind_eq_ok.1 h
  obtain ⟨rfl, ht⟩ := expect_eq_ok.1 hnewline
  obtain ⟨opening, mid, hopening, h₂⟩ := bind_eq_ok.1 h₁
  obtain ⟨rfl, ho⟩ := expect_eq_ok.1 hopening
  obtain ⟨⟨commands, span⟩, mid, hcommands, h₃⟩ := bind_eq_ok.1 h₂
  obtain ⟨rfl, rfl⟩ := pure_eq_ok.1 h₃
  obtain ⟨used, rfl, hused⟩ := hstatements _ hcommands
  exact ⟨t :: opening :: used, rfl, by simpa [ht, ho] using Phrase.Spelled.block hused⟩

/-- Where a line of a block has ended, read backwards from the statements that follow it. -/
theorem lineEnds_of_endOfLine {mid used rest : List Token} {commands : List Command}
    (h : endOfLine mid = .ok ((), used ++ rest)) (hs : Phrase.Spelled (kinds used) (.statements commands)) :
    ∃ used', mid = used' ++ rest ∧ LineEnds (kinds used') (kinds used) := by
  obtain ⟨t, rfl, ht⟩ | ⟨rfl, hfront⟩ := endOfLine_eq_ok.1 h
  · exact ⟨t :: used, rfl, .inl (by simp [ht])⟩
  · obtain ⟨k, ks, hks, hk, -⟩ := hs.front
    obtain ⟨t, used, rfl, rfl, -⟩ := List.map_eq_cons_iff.1 hks
    refine ⟨t :: used, rfl, .inr ⟨rfl, ?_⟩⟩
    obtain hd | he := hfront
    · exact hd
    · exact absurd (Option.some.inj he) hk

theorem statements_reads {n : Nat} {opening : Span}
    (hstatements : Reads (statements opening n) (fun ks p => Phrase.Spelled ks (.statements p.1)))
    (harms : Reads (branches n) (fun ks c => Phrase.Spelled ks (.arms c))) :
    Reads (statements opening (n + 1)) (fun ks p => Phrase.Spelled ks (.statements p.1)) := by
  intro ts p rest h
  unfold statements at h
  rw [peek?_bind] at h
  cases hk : frontKind ts with
  | none =>
      rw [hk] at h
      exact absurd h failHere_ne_ok
  | some k =>
      rw [hk] at h
      obtain ⟨t, mid, rfl, ht⟩ := frontKind_eq_some.1 hk
      cases k with
      | newline =>
          dsimp only at h
          rw [next_bind_cons] at h
          obtain ⟨used, rfl, hused⟩ := hstatements h
          exact ⟨t :: used, rfl, by simpa [ht] using Phrase.Spelled.blank hused⟩
      | dedent =>
          dsimp only at h
          rw [next_bind_cons] at h
          obtain ⟨rfl, rfl⟩ := pure_eq_ok.1 h
          exact ⟨[t], rfl, by simpa [ht] using Phrase.Spelled.done⟩
      | eof => exact absurd h fail_ne_ok
      | kwPass =>
          dsimp only at h
          rw [next_bind_cons] at h
          obtain ⟨_, after, hend, h₁⟩ := bind_eq_ok.1 h
          obtain ⟨⟨commands, span⟩, rest, hcommands, h₂⟩ := bind_eq_ok.1 h₁
          obtain ⟨rfl, rfl⟩ := pure_eq_ok.1 h₂
          obtain ⟨used, rfl, hused⟩ := hstatements hcommands
          obtain ⟨used', rfl, hline⟩ := lineEnds_of_endOfLine hend hused
          exact ⟨t :: used', rfl, by simpa [ht] using Phrase.Spelled.pass hline hused⟩
      | kwIf =>
          dsimp only at h
          rw [next_bind_cons] at h
          obtain ⟨command, after, hcommand, h₁⟩ := bind_eq_ok.1 h
          obtain ⟨⟨commands, span⟩, rest, hcommands, h₂⟩ := bind_eq_ok.1 h₁
          obtain ⟨rfl, rfl⟩ := pure_eq_ok.1 h₂
          obtain ⟨used, rfl, hused⟩ := hstatements hcommands
          obtain ⟨used', rfl, hused'⟩ := harms hcommand
          exact ⟨t :: used' ++ used, by simp, by simpa [ht] using Phrase.Spelled.choose hused' hused⟩
      | ident name =>
          -- the name was only looked at: `call` takes it
          dsimp only at h
          obtain ⟨command, after, hcommand, h₁⟩ := bind_eq_ok.1 h
          obtain ⟨⟨commands, span⟩, rest, hcommands, h₂⟩ := bind_eq_ok.1 h₁
          obtain ⟨rfl, rfl⟩ := pure_eq_ok.1 h₂
          obtain ⟨used, rfl, hused⟩ := hstatements hcommands
          obtain ⟨callee, args, as, called, mid', rfl, hts, hcalled, hargs, hend⟩ := call_reads hcommand
          obtain ⟨used', rfl, hline⟩ := lineEnds_of_endOfLine hend hused
          refine ⟨called ++ used', by rw [hts, List.append_assoc], ?_⟩
          have := Phrase.Spelled.call callee hargs hline hused
          simpa [hcalled] using this
      | _ => exact absurd h failHere_ne_ok

/-- All readers of commands, whatever bounds them. -/
theorem phrases_read (n : Nat) :
    Reads (branches n) (fun ks c => Phrase.Spelled ks (.arms c)) ∧
      Reads (block n) (fun ks p => Phrase.Spelled ks (.block p.1)) ∧
      ∀ opening, Reads (statements opening n) (fun ks p => Phrase.Spelled ks (.statements p.1)) := by
  induction n with
  | zero =>
      refine ⟨fun ts c rest h => ?_, fun ts p rest h => ?_, fun opening ts p rest h => ?_⟩
      all_goals cases h
  | succ n ih =>
      obtain ⟨harms, hblock, hstatements⟩ := ih
      exact ⟨branches_reads hblock harms, block_reads hstatements,
        fun opening => statements_reads (hstatements opening) harms⟩

/-! ### Definitions: what is read is spelled -/

theorem claimedBound_reads : Reads claimedBound BoundSpelled := by
  intro ts e rest h
  unfold claimedBound at h
  rw [peek?_bind] at h
  split at h
  · rename_i hfront
    obtain ⟨t, mid, rfl, ht⟩ := frontKind_eq_some.1 hfront
    rw [next_bind_cons] at h
    obtain ⟨u, mid, hu, h₁⟩ := bind_eq_ok.1 h
    rw [next_eq_ok] at hu
    subst hu
    cases hk : u.kind with
    | str text =>
        rw [hk] at h₁
        obtain ⟨rfl, rfl⟩ := pure_eq_ok.1 h₁
        exact ⟨[t, u], rfl, by simpa [ht, hk] using BoundSpelled.text text⟩
    | _ =>
        rw [hk] at h₁
        exact absurd h₁ fail_ne_ok
  · obtain ⟨rfl, rfl⟩ := pure_eq_ok.1 h
    exact ⟨[], rfl, .absent⟩

theorem make_eq_ok {name : String} {params : List String} {body : Command} {bound : Expr} {f : Function} :
    Function.make name params body bound = .ok f ↔
      f.name = name ∧ f.params = params ∧ f.body = body ∧ f.bound = bound := by
  unfold Function.make
  split
  · rename_i stray hstray
    constructor
    · intro h
      cases h
    · intro h
      obtain ⟨rfl, rfl, rfl, rfl⟩ := h
      have hmem := List.mem_of_find?_eq_some hstray
      have hout := List.find?_some hstray
      simp [f.closed stray hmem] at hout
  · constructor
    · intro h
      cases h
      exact ⟨rfl, rfl, rfl, rfl⟩
    · intro h
      obtain ⟨rfl, rfl, rfl, rfl⟩ := h
      rfl

theorem definition_reads : Reads definition Function.Spelled := by
  intro ts f rest h
  unfold definition at h
  obtain ⟨start, mid, hstart, h₁⟩ := bind_eq_ok.1 h
  obtain ⟨rfl, hs⟩ := expect_eq_ok.1 hstart
  obtain ⟨⟨name, span⟩, mid, hname, h₂⟩ := bind_eq_ok.1 h₁
  obtain ⟨t, rfl, ht, -⟩ := ident_eq_ok.1 hname
  obtain ⟨opening, mid, hopening, h₃⟩ := bind_eq_ok.1 h₂
  obtain ⟨rfl, ho⟩ := expect_eq_ok.1 hopening
  obtain ⟨params, mid, hparams, h₄⟩ := bind_eq_ok.1 h₃
  obtain ⟨ps, rfl, hps, hnodup⟩ := parameters_reads hparams
  obtain ⟨closing, mid, hclosing, h₅⟩ := bind_eq_ok.1 h₄
  obtain ⟨rfl, hc⟩ := expect_eq_ok.1 hclosing
  obtain ⟨bound, mid, hbound, h₆⟩ := bind_eq_ok.1 h₅
  obtain ⟨bs, rfl, hbs⟩ := claimedBound_reads hbound
  obtain ⟨colon, mid, hcolon, h₇⟩ := bind_eq_ok.1 h₆
  obtain ⟨rfl, hcol⟩ := expect_eq_ok.1 hcolon
  obtain ⟨⟨body, bodySpan⟩, mid, hbody, h₈⟩ := bind_eq_ok.1 h₇
  rw [bounded_eq] at hbody
  obtain ⟨ys, rfl, hys⟩ := (phrases_read _).2.1 hbody
  dsimp only at h₈
  cases hmake : Function.make name params body bound with
  | ok g =>
      rw [hmake] at h₈
      obtain ⟨rfl, rfl⟩ := pure_eq_ok.1 h₈
      obtain ⟨rfl, rfl, rfl, rfl⟩ := make_eq_ok.1 hmake
      refine ⟨start :: t :: opening :: ps ++ closing :: bs ++ colon :: ys, by simp, ?_⟩
      simpa [hs, ht, ho, hc, hcol] using Function.Spelled.mk hps hnodup hbs hys
  | error e =>
      rw [hmake] at h₈
      exact absurd h₈ fail_ne_ok

theorem definitions_reads {n : Nat} {ts rest : List Token} {fs : List Function}
    (h : definitions n ts = .ok (fs, rest)) :
    ∃ used, ts = used ++ rest ∧ Definitions (kinds used) fs ∧ frontKind rest = some .eof := by
  induction n generalizing ts fs with
  | zero => cases h
  | succ n ih =>
      unfold definitions at h
      rw [peek?_bind] at h
      cases hk : frontKind ts with
      | none =>
          rw [hk] at h
          exact absurd h failHere_ne_ok
      | some k =>
          rw [hk] at h
          cases k with
          | newline =>
              obtain ⟨t, mid, rfl, ht⟩ := frontKind_eq_some.1 hk
              obtain ⟨used, rfl, hused, heof⟩ := ih h
              exact ⟨t :: used, rfl, by simpa [ht] using Definitions.blank hused, heof⟩
          | eof =>
              obtain ⟨rfl, rfl⟩ := pure_eq_ok.1 h
              exact ⟨[], rfl, .nil, hk⟩
          | kwDef =>
              obtain ⟨f, mid, hf, h₁⟩ := bind_eq_ok.1 h
              obtain ⟨fs, mid', hfs, h₂⟩ := bind_eq_ok.1 h₁
              obtain ⟨rfl, rfl⟩ := pure_eq_ok.1 h₂
              obtain ⟨used, rfl, hused⟩ := definition_reads hf
              obtain ⟨used', rfl, hused', heof⟩ := ih hfs
              exact ⟨used ++ used', by simp, by simpa using Definitions.cons hused hused', heof⟩
          | _ => exact absurd h failHere_ne_ok

end CostBound.TokenReader
