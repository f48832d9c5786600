import CostBound.Reading.Expr

/-!
# The steps of a reader

What the elementary readers do with the tokens before them. Each lemma serves both ways: to run a reader on tokens
that are known, and to learn the tokens from a reader that succeeded.

* `bind_eq_ok`, `bind_of_ok` — one reader after another.
* `next_eq_ok`, `expect_eq_ok`, `ident_eq_ok`, `endOfLine_eq_ok` — the readers that take tokens.
* `peek?_bind`, `skipNewlines_eq` — the readers that cannot fail.
-/

namespace CostBound.TokenReader

variable {α β : Type} {ts rest : List Token}

/-- The kinds of some tokens. -/
def kinds (ts : List Token) : List Token.Kind := ts.map (·.kind)

@[simp]
theorem kinds_nil : kinds [] = [] := rfl

@[simp]
theorem kinds_cons (t : Token) (ts : List Token) : kinds (t :: ts) = t.kind :: kinds ts := rfl

@[simp]
theorem kinds_append (ts us : List Token) : kinds (ts ++ us) = kinds ts ++ kinds us := List.map_append

@[simp]
theorem kinds_map_mk (ks : List Token.Kind) (span : Span) : kinds (ks.map (⟨·, span⟩)) = ks := by
  unfold kinds
  rw [List.map_map]
  exact List.map_id ks

@[simp]
theorem length_kinds (ts : List Token) : (kinds ts).length = ts.length := List.length_map _

/-- The kind at the front of some tokens. -/
abbrev frontKind (ts : List Token) : Option Token.Kind := ts.head?.map (·.kind)

theorem frontKind_cons (t : Token) (ts : List Token) : frontKind (t :: ts) = some t.kind := rfl

theorem frontKind_eq_some {k : Token.Kind} : frontKind ts = some k ↔ ∃ t mid, ts = t :: mid ∧ t.kind = k := by
  cases ts with
  | nil => simp
  | cons t ts => simp

theorem frontKind_append {k : Token.Kind} {ks : List Token.Kind} (h : kinds ts = k :: ks) :
    frontKind (ts ++ rest) = some k := by
  obtain ⟨t, us, rfl, rfl, -⟩ := List.map_eq_cons_iff.1 h
  rfl

theorem bind_eq_ok {r : TokenReader α} {f : α → TokenReader β} {b : β} :
    (r >>= f) ts = .ok (b, rest) ↔ ∃ a mid, r ts = .ok (a, mid) ∧ f a mid = .ok (b, rest) := by
  show (r ts >>= fun p => f p.1 p.2) = .ok (b, rest) ↔ _
  cases r ts with
  | error e =>
      constructor
      · intro h
        cases h
      · intro h
        obtain ⟨_, _, h, -⟩ := h
        cases h
  | ok p =>
      constructor
      · intro h
        exact ⟨p.1, p.2, rfl, h⟩
      · intro h
        obtain ⟨_, _, h, hf⟩ := h
        cases h
        exact hf

theorem bind_of_ok {r : TokenReader α} {f : α → TokenReader β} {a : α} {mid : List Token}
    (h : r ts = .ok (a, mid)) : (r >>= f) ts = f a mid := by
  show (r ts >>= fun p => f p.1 p.2) = f a mid
  rw [h]
  rfl

theorem pure_eq_ok {a b : α} : (pure a : TokenReader α) ts = .ok (b, rest) ↔ a = b ∧ ts = rest := by
  show (Except.ok (a, ts) : Except ParseError _) = .ok (b, rest) ↔ _
  rw [Except.ok.injEq, Prod.mk.injEq]

theorem fail_ne_ok {fault : ParseFault} {span : Span} {a : α} :
    (fail fault span : TokenReader α) ts ≠ .ok (a, rest) := by
  intro h
  cases h

theorem failHere_ne_ok {fault : ParseFault} {a : α} :
    (failHere fault : TokenReader α) ts ≠ .ok (a, rest) := by
  intro h
  cases ts with
  | nil => cases h
  | cons t ts => cases h

/-! ### Readers that take tokens -/

theorem next_eq_ok {t : Token} : next ts = .ok (t, rest) ↔ ts = t :: rest := by
  cases ts with
  | nil =>
      constructor
      · intro h
        cases h
      · intro h
        cases h
  | cons u us =>
      show (Except.ok (u, us) : Except ParseError _) = .ok (t, rest) ↔ _
      rw [Except.ok.injEq, Prod.mk.injEq, List.cons.injEq]

theorem next_bind_cons {f : Token → TokenReader β} {t : Token} : (next >>= f) (t :: ts) = f t ts := rfl

theorem expect_eq_ok {kind : Token.Kind} {t : Token} :
    expect kind ts = .ok (t, rest) ↔ ts = t :: rest ∧ t.kind = kind := by
  unfold expect
  rw [bind_eq_ok]
  constructor
  · intro h
    obtain ⟨u, mid, hu, h⟩ := h
    split at h
    · rename_i hk
      obtain ⟨rfl, rfl⟩ := pure_eq_ok.1 h
      exact ⟨next_eq_ok.1 hu, hk⟩
    · exact absurd h fail_ne_ok
  · intro h
    obtain ⟨hts, hk⟩ := h
    refine ⟨t, rest, next_eq_ok.2 hts, ?_⟩
    rw [if_pos hk]
    rfl

theorem expect_bind_cons {kind : Token.Kind} {f : Token → TokenReader β} {t : Token} (h : t.kind = kind) :
    (expect kind >>= f) (t :: ts) = f t ts :=
  bind_of_ok (expect_eq_ok.2 ⟨rfl, h⟩)

theorem ident_eq_ok {name : String} {span : Span} :
    ident ts = .ok ((name, span), rest) ↔ ∃ t, ts = t :: rest ∧ t.kind = .ident name ∧ t.span = span := by
  unfold ident
  rw [bind_eq_ok]
  constructor
  · intro h
    obtain ⟨t, mid, ht, h⟩ := h
    generalize hk : t.kind = kind at h
    cases kind with
    | ident name' =>
        obtain ⟨hp, rfl⟩ := pure_eq_ok.1 h
        cases hp
        exact ⟨t, next_eq_ok.1 ht, hk, rfl⟩
    | _ => exact absurd h fail_ne_ok
  · intro h
    obtain ⟨t, hts, hk, rfl⟩ := h
    refine ⟨t, rest, next_eq_ok.2 hts, ?_⟩
    rw [hk]
    rfl

/-- Where a line has ended: after its line end, or before the end of its block or of the text. -/
theorem endOfLine_eq_ok : endOfLine ts = .ok ((), rest) ↔
    (∃ t, ts = t :: rest ∧ t.kind = .newline) ∨
      (ts = rest ∧ (frontKind ts = some .dedent ∨ frontKind ts = some .eof)) := by
  cases ts with
  | nil =>
      constructor
      · intro h
        cases h
      · intro h
        obtain ⟨t, h, -⟩ | ⟨-, h | h⟩ := h <;> cases h
  | cons t ts =>
      simp only [endOfLine]
      by_cases hn : t.kind = .newline
      · rw [if_pos hn]
        constructor
        · intro h
          cases h
          exact .inl ⟨t, rfl, hn⟩
        · intro h
          obtain ⟨u, h, -⟩ | ⟨-, h | h⟩ := h
          · cases h
            rfl
          · simp [hn] at h
          · simp [hn] at h
      · rw [if_neg hn]
        by_cases hd : t.kind = .dedent ∨ t.kind = .eof
        · rw [if_pos hd]
          simp [hn, hd]
        · rw [if_neg hd]
          simp [hd, hn]

/-! ### Readers that cannot fail -/

theorem peek?_eq : peek? ts = .ok (frontKind ts, ts) := by
  cases ts <;> rfl

theorem peek?_bind {f : Option Token.Kind → TokenReader β} : (peek? >>= f) ts = f (frontKind ts) ts :=
  bind_of_ok peek?_eq

theorem skipNewlines_eq : skipNewlines ts = .ok ((), ts.dropWhile (·.kind = .newline)) := by
  induction ts with
  | nil => rfl
  | cons t ts ih =>
      unfold skipNewlines
      by_cases h : t.kind = .newline
      · rw [if_pos h, ih, List.dropWhile_cons_of_pos (by simpa using h)]
      · rw [if_neg h, List.dropWhile_cons_of_neg (by simpa using h)]

theorem bounded_eq {r : Nat → TokenReader α} : bounded r ts = r ts.length ts := rfl

end CostBound.TokenReader
