import CostBound.Expr.Typing

/-!
# Well-typed expressions

The type of a compound expression, read backwards: what its parts must be for it to have a type.

* `type?_unary_eq_ok`, `type?_binary_eq_ok`, `type?_cond_eq_ok` — one rule for each constructor.
* `expect_eq_ok` — asking for a type succeeds exactly on expressions of that type.
* `type?_subst` — replacing variables by integers changes no type and no fault.
-/

namespace CostBound

/-- A computation in two steps succeeds if both steps do. -/
theorem except_bind_eq_ok {ε α β : Type} {x : Except ε α} {f : α → Except ε β} {b : β} :
    (x >>= f) = .ok b ↔ ∃ a, x = .ok a ∧ f a = .ok b := by
  cases x with
  | error e => simp [bind, Except.bind]
  | ok a => simp [bind, Except.bind]

/-- It fails with the error of the first step that does. -/
theorem except_bind_eq_error {ε α β : Type} {x : Except ε α} {f : α → Except ε β} {e : ε} :
    (x >>= f) = .error e ↔ x = .error e ∨ ∃ a, x = .ok a ∧ f a = .error e := by
  cases x with
  | error e => simp [bind, Except.bind]
  | ok a => simp [bind, Except.bind]

section

variable {ε α β γ : Type} {x : Except ε α} {y : Except ε β} {g : α → β → γ}

/-- What is made from two results. -/
theorem bind₂_eq_ok {c : γ} :
    (do return g (← x) (← y)) = Except.ok c ↔ ∃ a b, x = .ok a ∧ y = .ok b ∧ c = g a b := by
  simp only [except_bind_eq_ok]
  constructor
  · intro h
    obtain ⟨a, ha, b, hb, hc⟩ := h
    cases hc
    exact ⟨a, b, ha, hb, rfl⟩
  · intro h
    obtain ⟨a, b, ha, hb, rfl⟩ := h
    exact ⟨a, ha, b, hb, rfl⟩

/-- It exists if both results do. -/
theorem exists_bind₂_eq_ok :
    (∃ c, (do return g (← x) (← y)) = Except.ok c) ↔ (∃ a, x = .ok a) ∧ ∃ b, y = .ok b := by
  simp only [bind₂_eq_ok]
  constructor
  · intro h
    obtain ⟨_, a, b, ha, hb, -⟩ := h
    exact ⟨⟨a, ha⟩, b, hb⟩
  · intro h
    obtain ⟨⟨a, ha⟩, b, hb⟩ := h
    exact ⟨g a b, a, b, ha, hb, rfl⟩

/-- The error of the second result shows if there is a first one. -/
theorem bind₂_eq_error {e : ε} :
    (do return g (← x) (← y)) = Except.error e ↔ x = .error e ∨ (∃ a, x = .ok a) ∧ y = .error e := by
  cases x with
  | error e => simp [bind, Except.bind]
  | ok a =>
      cases y with
      | error e => simp [bind, Except.bind]
      | ok b => exact iff_of_false (fun h => by cases h) (by simp)

end

theorem mapError_eq_ok {ε ε' α : Type} {g : ε → ε'} {x : Except ε α} {a : α} :
    x.mapError g = .ok a ↔ x = .ok a := by
  cases x with
  | error e => exact iff_of_false (fun h => by cases h) (fun h => by cases h)
  | ok b =>
      constructor
      · intro h
        cases h
        rfl
      · intro h
        cases h
        rfl

theorem mapError_eq_error {ε ε' α : Type} {g : ε → ε'} {x : Except ε α} {e' : ε'} :
    x.mapError g = .error e' ↔ ∃ e, x = .error e ∧ g e = e' := by
  cases x with
  | error e =>
      constructor
      · intro h
        cases h
        exact ⟨e, rfl, rfl⟩
      · rintro ⟨_, h, rfl⟩
        cases h
        rfl
  | ok b => exact iff_of_false (fun h => by cases h) (by simp)

theorem mapError_bind {ε ε' α β : Type} {g : ε → ε'} (x : Except ε α) (f : α → Except ε β) :
    (x >>= f).mapError g = x.mapError g >>= fun a => (f a).mapError g := by
  cases x with
  | error e => rfl
  | ok a => rfl

/-- The error after a replacement: the same fault, in the replaced expression. -/
def TypeError.subst (s : Substitution) (err : TypeError) : TypeError := ⟨err.expr.subst s, err.fault⟩

namespace Expr

theorem agree_eq_ok {e : Expr} {expected found : Ty} :
    agree e expected found = .ok () ↔ found = expected := by
  unfold agree
  split
  · rename_i h
    exact iff_of_true rfl h
  · rename_i h
    exact iff_of_false (by simp) h

theorem expect_eq_ok {e : Expr} {t : Ty} : e.expect t = .ok () ↔ e.type? = .ok t := by
  unfold expect
  rw [except_bind_eq_ok]
  constructor
  · rintro ⟨s, hs, ha⟩
    rw [hs, agree_eq_ok.1 ha]
  · intro h
    exact ⟨t, h, agree_eq_ok.2 rfl⟩

theorem type?_unary_eq_ok {op : UnaryOp} {e : Expr} {t : Ty} :
    (unary op e).type? = .ok t ↔ e.type? = .ok op.type ∧ t = op.type := by
  simp only [type?, except_bind_eq_ok]
  constructor
  · rintro ⟨s, hs, _, ha, ht⟩
    rw [agree_eq_ok.1 ha] at hs
    exact ⟨hs, (Except.ok.inj ht).symm⟩
  · rintro ⟨he, rfl⟩
    exact ⟨_, he, (), agree_eq_ok.2 rfl, rfl⟩

/-- Both operands have one type, which the operator may prescribe. -/
theorem type?_binary_eq_ok {op : BinaryOp} {l r : Expr} {t : Ty} :
    (binary op l r).type? = .ok t ↔
      ∃ s, l.type? = .ok s ∧ r.type? = .ok s ∧ (∀ s', op.operandType? = some s' → s = s')
        ∧ t = op.resultType := by
  cases hop : op.operandType? with
  | some s' =>
      simp only [type?, hop, except_bind_eq_ok]
      constructor
      · rintro ⟨sl, hl, _, hal, sr, hr, _, har, ht⟩
        rw [agree_eq_ok.1 hal] at hl
        rw [agree_eq_ok.1 har] at hr
        exact ⟨s', hl, hr, fun _ h => Option.some.inj h, (Except.ok.inj ht).symm⟩
      · rintro ⟨s, hl, hr, hs, rfl⟩
        cases hs s' rfl
        exact ⟨_, hl, (), agree_eq_ok.2 rfl, _, hr, (), agree_eq_ok.2 rfl, rfl⟩
  | none =>
      simp only [type?, hop, except_bind_eq_ok]
      constructor
      · rintro ⟨sl, hl, sr, hr, h⟩
        split at h
        · rename_i hs
          cases hs
          refine ⟨sl, hl, hr, ?_, (Except.ok.inj h).symm⟩
          intro s' hs'
          cases hs'
        · cases h
      · rintro ⟨s, hl, hr, _, rfl⟩
        exact ⟨s, hl, s, hr, by rw [if_pos rfl]; rfl⟩

theorem type?_arithmetic {op : BinaryOp} (hoperand : op.operandType? = some .int)
    (hresult : op.resultType = .int) {l r : Expr} :
    (binary op l r).type? = .ok .int ↔ l.type? = .ok .int ∧ r.type? = .ok .int := by
  rw [type?_binary_eq_ok, hoperand, hresult]
  constructor
  · intro h
    obtain ⟨t, hl, hr, ht, _⟩ := h
    cases ht .int rfl
    exact ⟨hl, hr⟩
  · intro h
    exact ⟨.int, h.1, h.2, fun _ ht => Option.some.inj ht, rfl⟩

theorem type?_cond_eq_ok {c t e : Expr} {τ : Ty} :
    (cond c t e).type? = .ok τ ↔ c.type? = .ok .bool ∧ t.type? = .ok τ ∧ e.type? = .ok τ := by
  simp only [type?, except_bind_eq_ok]
  constructor
  · rintro ⟨sc, hc, _, ha, st, ht, se, he, h⟩
    rw [agree_eq_ok.1 ha] at hc
    split at h
    · rename_i hs
      cases hs
      cases h
      exact ⟨hc, ht, he⟩
    · cases h
  · rintro ⟨hc, ht, he⟩
    exact ⟨_, hc, (), agree_eq_ok.2 rfl, τ, ht, τ, he, by rw [if_pos rfl]; rfl⟩

theorem agree_subst (s : Substitution) (e : Expr) (expected found : Ty) :
    agree (e.subst s) expected found = (agree e expected found).mapError (TypeError.subst s) := by
  unfold agree
  split
  · rfl
  · rfl

section

variable {e : Expr} {s : Substitution} (hs : ∀ x ∈ e.names, ((s x).getD (var x)).type? = .ok .int)

include hs

/-- Replacing variables by expressions that are integers changes neither the type nor the first fault. -/
theorem type?_subst : (e.subst s).type? = e.type?.mapError (TypeError.subst s) := by
  induction e with
  | var x => exact hs x (by simp [names])
  | lit l => cases l <;> rfl
  | unary op e ih =>
      simp only [subst, type?, ih hs, mapError_bind, agree_subst]
      rfl
  | binary op l r ihl ihr =>
      have hl := ihl fun x hx => hs x (by simp [names, hx])
      have hr := ihr fun x hx => hs x (by simp [names, hx])
      simp only [subst, type?, hl, hr]
      cases op.operandType? with
      | some t =>
          simp only [mapError_bind, agree_subst]
          rfl
      | none =>
          simp only [mapError_bind, apply_ite (Except.mapError (TypeError.subst s))]
          rfl
  | cond c a b ihc iha ihb =>
      have hc := ihc fun x hx => hs x (by simp [names, hx])
      have ha := iha fun x hx => hs x (by simp [names, hx])
      have hb := ihb fun x hx => hs x (by simp [names, hx])
      simp only [subst, type?, hc, ha, hb, mapError_bind, agree_subst, apply_ite (Except.mapError (TypeError.subst s))]
      rfl

/-- It neither makes nor mends an ill-typed expression. -/
theorem type?_subst_eq_ok {t : Ty} : (e.subst s).type? = .ok t ↔ e.type? = .ok t := by
  rw [type?_subst hs, mapError_eq_ok]

theorem type?_subst_eq_error {err : TypeError} (h : e.type? = .error err) :
    (e.subst s).type? = .error (err.subst s) := by
  rw [type?_subst hs, h]
  rfl

end

end Expr

end CostBound
