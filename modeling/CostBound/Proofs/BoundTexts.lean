import CostBound.Proofs.LockstepProgram
import CostBound.Proofs.ReadingSpelled

/-!
# The texts of bounds

The string after an arrow is scanned and read anew, inside the reading of a program. What comes of it is the bound of
one function; nothing else depends on what strings contain.

* `Token.Alike` — tokens that differ at most in the contents of a string; `Lockstep.byText` reads such tokens in step.
* `Program.unclaimed` — a program without its bounds.
* `Token.Kind.isMark`, `Unmarked` — what says where definitions and claims begin and the text ends, and tokens without
  it.
* `claimedTexts` — for each definition among some tokens, the string after its arrow.
* `TokenReader.bounds_of_program` — the bounds of a program are read from these strings alone.
* `TokenReader.program_ignores_texts` — two readings of tokens that differ in the contents of strings.
-/

namespace CostBound

open Token (Kind)
open TokenReader (program kinds)

/-! ### Reading in step -/

/-- Tokens at the same place that differ at most in the contents of a string. -/
structure Token.Alike (t u : Token) : Prop where
  kind : t.kind.Alike u.kind
  span_eq : t.span = u.span

/-- Tokens are read in step with tokens that differ in the contents of strings: errors are the same, and bounds may be
any. -/
def Lockstep.byText : Lockstep where
  Rel _ ts us := List.Forall₂ Token.Alike ts us
  Place := Eq
  Fails := Eq
  Bound _ _ := True
  front := by
    intro _ ts us h
    cases h with
    | nil => exact .inl ⟨rfl, rfl⟩
    | cons ht hts => exact .inr ⟨_, _, _, _, rfl, rfl, ht.kind, ht.span_eq⟩
  steady h _ := (List.forall₂_cons.1 h).2
  indent h _ := (List.forall₂_cons.1 h).2
  dedent h _ := (List.forall₂_cons.1 h).2
  str h _ _ := ⟨(List.forall₂_cons.1 h).2, trivial⟩
  default := trivial
  join hs hr := by rw [hs, hr]
  fault hs _ := by rw [hs]
  missing _ _ := rfl
  unterminated _ _ hs := by rw [hs]

/-- The program with the default bound for every function. -/
def Program.unclaimed (p : Program) : Program := p.mapBounds fun _ => Function.defaultBound

theorem Lockstep.unclaimed_eq {L : Lockstep} {p q : Program} (h : List.Forall₂ L.Twins p.functions q.functions) :
    p.unclaimed = q.unclaimed := by
  have hmap : p.functions.map (fun f => f.withBound Function.defaultBound)
      = q.functions.map (fun f => f.withBound Function.defaultBound) := by
    rw [← List.forall₂_eq_eq_eq, List.forall₂_map_left_iff, List.forall₂_map_right_iff]
    refine h.imp fun f f' htwins => ?_
    rw [htwins.eq_withBound]
    rfl
  exact congrArg Program.mk hmap

/-! ### Tokens inside a definition -/

/-- The kinds that say where a definition or its claim begins, and where the text ends. -/
def Token.Kind.isMark : Kind → Bool
  | kwDef | arrow | eof => true
  | _ => false

/-- None of the kinds is a mark. -/
def Unmarked (ks : List Kind) : Prop := ∀ k ∈ ks, k.isMark = false

section

variable {ks ks' : List Kind} {k : Kind}

theorem unmarked_append : Unmarked (ks ++ ks') ↔ Unmarked ks ∧ Unmarked ks' := List.forall_mem_append

theorem unmarked_cons : Unmarked (k :: ks) ↔ k.isMark = false ∧ Unmarked ks := List.forall_mem_cons

theorem unmarked_newlines (n : Nat) : Unmarked (List.replicate n .newline) := by
  intro k hk
  rw [List.eq_of_mem_replicate hk]
  rfl

theorem Expr.Spelled.unmarked {l : Nat} {e : Expr} (h : Spelled l ks e) : Unmarked ks := by
  intro k hk
  have hexpr := h.inExpr_eq k hk
  cases k with
  | kwDef | arrow | eof => cases hexpr
  | _ => rfl

theorem Items.unmarked {α : Type} {Item : List Kind → α → Prop} {as : List α} (h : Items Item ks as)
    (hitem : ∀ ks a, Item ks a → Unmarked ks) : Unmarked ks := by
  cases h with
  | none => exact List.forall_mem_nil _
  | some h =>
      induction h with
      | last h => exact hitem _ _ h
      | lastComma h => exact unmarked_append.2 ⟨hitem _ _ h, List.forall_mem_singleton.2 rfl⟩
      | more h _ ih => exact unmarked_append.2 ⟨hitem _ _ h, unmarked_cons.2 ⟨rfl, ih⟩⟩

theorem LineEnds.unmarked (h : LineEnds ks ks') (hks : Unmarked ks') : Unmarked ks := by
  obtain rfl | ⟨rfl, -⟩ := h
  · exact unmarked_cons.2 ⟨rfl, hks⟩
  · exact hks

/-- Blocks and branches have no marks. -/
theorem Phrase.Spelled.unmarked {p : Phrase} (h : Phrase.Spelled ks p) : Unmarked ks := by
  induction h with
  | ifOnly n hc _ ihy =>
      simp only [unmarked_append, unmarked_cons]
      exact ⟨⟨hc.unmarked, rfl, ihy⟩, unmarked_newlines n⟩
  | ifElif n hc _ _ ihy ihn =>
      simp only [unmarked_append, unmarked_cons]
      exact ⟨⟨⟨hc.unmarked, rfl, ihy⟩, unmarked_newlines n⟩, rfl, ihn⟩
  | ifElse n hc _ _ ihy ihn =>
      simp only [unmarked_append, unmarked_cons]
      exact ⟨⟨⟨hc.unmarked, rfl, ihy⟩, unmarked_newlines n⟩, rfl, rfl, ihn⟩
  | block _ ih => exact unmarked_cons.2 ⟨rfl, unmarked_cons.2 ⟨rfl, ih⟩⟩
  | done => exact List.forall_mem_singleton.2 rfl
  | blank _ ih => exact unmarked_cons.2 ⟨rfl, ih⟩
  | pass he _ ih => exact unmarked_cons.2 ⟨rfl, he.unmarked ih⟩
  | call callee ha he _ ih =>
      simp only [List.cons_append, unmarked_append, unmarked_cons]
      exact ⟨rfl, rfl, ha.unmarked fun _ _ h => h.unmarked, rfl, he.unmarked ih⟩
  | choose _ _ ihb ih => exact unmarked_cons.2 ⟨rfl, unmarked_append.2 ⟨ihb, ih⟩⟩

end

/-! ### The text of each claim -/

/-- The contents of a string. -/
def Token.Kind.text? : Kind → Option String
  | str text => some text
  | _ => none

/-- The string after the arrow of a definition, given the kinds after its `def`. An arrow after the next `def` is not
its own. -/
def ownText? : List Kind → Option String
  | [] => none
  | k :: ks =>
      if k = .arrow then ks.head?.bind Kind.text?
      else if k = .kwDef ∨ k = .eof then none
      else ownText? ks

/-- For each definition up to the end of the text, the string after its own arrow, if there is one. -/
def claimedTexts : List Kind → List (Option String)
  | [] => []
  | k :: ks =>
      if k = .eof then []
      else if k = .kwDef then ownText? ks :: claimedTexts ks
      else claimedTexts ks

/-- The bound that a definition claims by a string, or by none. -/
def Expr.ofClaim : Option String → Expr
  | none => Function.defaultBound
  | some text => .ofBoundText text

section

variable {ks rest : List Kind}

theorem ownText?_append (h : Unmarked ks) : ownText? (ks ++ rest) = ownText? rest := by
  induction ks with
  | nil => rfl
  | cons k ks ih =>
      obtain ⟨hk, hks⟩ := unmarked_cons.1 h
      have harrow : k ≠ .arrow := fun heq => by cases heq; cases hk
      have hend : ¬ (k = .kwDef ∨ k = .eof) := fun heq => by obtain rfl | rfl := heq <;> cases hk
      rw [List.cons_append, ownText?, if_neg harrow, if_neg hend, ih hks]

theorem claimedTexts_append (h : Unmarked ks) : claimedTexts (ks ++ rest) = claimedTexts rest := by
  induction ks with
  | nil => rfl
  | cons k ks ih =>
      obtain ⟨hk, hks⟩ := unmarked_cons.1 h
      have heof : k ≠ .eof := fun heq => by cases heq; cases hk
      have hdef : k ≠ .kwDef := fun heq => by cases heq; cases hk
      rw [List.cons_append, claimedTexts, if_neg heof, if_neg hdef, ih hks]

/-- What stands between the parameters and the body of a definition. -/
theorem BoundSpelled.ofClaim_ownText? {bound : Expr} (h : BoundSpelled ks bound) (hrest : ownText? rest = none) :
    Expr.ofClaim (ownText? (ks ++ rest)) = bound ∧ claimedTexts (ks ++ rest) = claimedTexts rest := by
  cases h with
  | absent => exact ⟨by rw [List.nil_append, hrest]; rfl, rfl⟩
  | text text => exact ⟨rfl, rfl⟩

/-- A definition before tokens that begin with no claim of their own. -/
theorem Function.Spelled.claimedTexts_eq {f : Function} (h : Function.Spelled ks f) (hrest : ownText? rest = none) :
    (claimedTexts (ks ++ rest)).map Expr.ofClaim = f.bound :: (claimedTexts rest).map Expr.ofClaim := by
  cases h with
  | @mk ps bs ys _ hp _ hb hy =>
      have hhead : Unmarked (.ident f.name :: .lparen :: ps ++ [.rparen]) := by
        simp only [List.cons_append, unmarked_append, unmarked_cons]
        exact ⟨rfl, rfl, hp.unmarked fun _ _ h => h ▸ List.forall_mem_singleton.2 rfl, rfl, List.forall_mem_nil _⟩
      have hbody : Unmarked (.colon :: ys) := unmarked_cons.2 ⟨rfl, hy.unmarked⟩
      have hafter : ownText? (.colon :: ys ++ rest) = none := by rw [ownText?_append hbody, hrest]
      obtain ⟨hbound, hclaim⟩ := hb.ofClaim_ownText? hafter
      have hsplit : .kwDef :: .ident f.name :: .lparen :: ps ++ .rparen :: bs ++ .colon :: ys ++ rest
          = .kwDef :: ((.ident f.name :: .lparen :: ps ++ [.rparen]) ++ (bs ++ (.colon :: ys ++ rest))) := by
        simp only [List.cons_append, List.append_assoc, List.nil_append]
      rw [hsplit, claimedTexts, if_neg (by decide), if_pos rfl, ownText?_append hhead, claimedTexts_append hhead,
        hclaim, claimedTexts_append hbody, List.map_cons, hbound]

theorem Definitions.ownText?_eq {fs : List Function} (h : Definitions ks fs) :
    ownText? (ks ++ .eof :: rest) = none := by
  induction h with
  | nil => rfl
  | blank _ ih => exact ih
  | cons h _ _ =>
      obtain ⟨ks', rfl⟩ := h.front
      rfl

/-- **Definitions and their claims.** -/
theorem Definitions.claimedTexts_eq {fs : List Function} (h : Definitions ks fs) :
    (claimedTexts (ks ++ .eof :: rest)).map Expr.ofClaim = fs.map (·.bound) := by
  induction h with
  | nil => rfl
  | blank _ ih => exact ih
  | cons h hs ih => rw [List.append_assoc, h.claimedTexts_eq hs.ownText?_eq, ih, List.map_cons]

end

namespace TokenReader

/-- The bounds of a program that is read, in the order of its functions. -/
theorem bounds_of_program {ts rest : List Token} {p : Program} (h : program ts = .ok (p, rest)) :
    p.functions.map (·.bound) = (claimedTexts (kinds ts)).map Expr.ofClaim := by
  obtain ⟨used, rfl, hused, hfront⟩ := program_eq_ok.1 h
  obtain ⟨eof, rest, rfl, heof⟩ := frontKind_eq_some.1 hfront
  rw [kinds_append, kinds_cons, heof, hused.claimedTexts_eq]

/-- **Texts of bounds do not influence reading.** Let two lists of tokens differ in the contents of strings only. Then
neither can be read, for the same reason and at the same place; or both are read, as programs that differ in their
bounds only. In this case the bound of each function is that of the string after its own arrow, or the default where
there is none. -/
theorem program_ignores_texts {ts us : List Token} (h : List.Forall₂ Token.Alike ts us) :
    (∃ e, program ts = .error e ∧ program us = .error e)
      ∨ ∃ p q rest rest', program ts = .ok (p, rest) ∧ program us = .ok (q, rest') ∧ p.unclaimed = q.unclaimed
        ∧ p.functions.map (·.bound) = (claimedTexts (kinds ts)).map Expr.ofClaim
        ∧ q.functions.map (·.bound) = (claimedTexts (kinds us)).map Expr.ofClaim := by
  have hmeets : Lockstep.byText.Meets 0 _ _ _ (program ts) (program us) :=
    Lockstep.program_meets ⟨h, Nat.le_refl _, Nat.le_refl _⟩
  generalize hx : program ts = x at hmeets
  generalize hy : program us = y at hmeets
  cases hmeets with
  | @ok p q rest rest' htwins _ =>
      exact .inr ⟨p, q, rest, rest', rfl, rfl, Lockstep.unclaimed_eq htwins, bounds_of_program hx, bounds_of_program hy⟩
  | @error e e' he => exact .inl ⟨e, rfl, congrArg Except.error he.symm⟩

/-- The tokens of two definitions, the first of which claims a given text. -/
def claiming (text : String) : List Token :=
  List.map (Token.mk · .origin) [.kwDef, .ident "f", .lparen, .ident "n", .rparen, .arrow]
    ++ ⟨.str text, .origin⟩ :: List.map (Token.mk · .origin)
      [.colon, .newline, .indent, .kwPass, .newline, .dedent, .kwDef, .ident "g", .lparen, .rparen, .arrow, .str "2",
        .colon, .newline, .indent, .ident "f", .lparen, .int 3, .rparen, .newline, .dedent, .eof]

/-- One text is an expression and the other is none: only the first bound tells. -/
theorem program_ignores_texts_claiming :
    ∃ p q rest rest', program (claiming "n + 1") = .ok (p, rest) ∧ program (claiming "n +") = .ok (q, rest')
      ∧ p.unclaimed = q.unclaimed ∧ p.functions.map (·.bound) = [.binary .add (.var "n") (.int 1), .int 2]
      ∧ q.functions.map (·.bound) = [.int 1, .int 2] := by
  have hsame : ∀ ts : List Token, List.Forall₂ Token.Alike ts ts :=
    fun ts => List.forall₂_same.2 fun t _ => ⟨.same t.kind, rfl⟩
  have halike : List.Forall₂ Token.Alike (claiming "n + 1") (claiming "n +") :=
    List.rel_append (hsame _) (.cons ⟨.strings _ _, rfl⟩ (hsame _))
  have hread : (program (claiming "n +")).toBool = true := by decide +kernel
  obtain ⟨e, -, he⟩ | ⟨p, q, rest, rest', hp, hq, hrest, hbounds, hbounds'⟩ := program_ignores_texts halike
  · rw [he] at hread
    cases hread
  · refine ⟨p, q, rest, rest', hp, hq, hrest, hbounds.trans ?_, hbounds'.trans ?_⟩
    · decide +kernel
    · decide +kernel

end TokenReader

end CostBound
