import CostBound.Reading.Program

/-!
# The grammar

Which kinds of tokens spell which expressions, commands and functions, said without a reader.

* `Expr.Spelled` — expressions. Each operator has a level; its operands are spelled at the same level or a
  tighter one, and brackets lead back to the loosest level.
* `Listed`, `Items` — items with commas between them.
* `Phrase.Spelled` — blocks, their statements, and what follows `if`.
* `Function.Spelled`, `Definitions`, `Program.Spelled` — definitions, and whole programs.
-/

namespace CostBound

open Token (Kind)

/-! ### Expressions -/

/-- The sign of an operator. -/
def UnaryOp.kind : UnaryOp → Kind
  | .neg => .minus
  | .not => .kwNot

/-- The sign of an operator. -/
def BinaryOp.kind : BinaryOp → Kind
  | .add => .plus
  | .sub => .minus
  | .mul => .star
  | .mod => .percent
  | .le => .le
  | .lt => .lt
  | .ge => .ge
  | .gt => .gt
  | .eq => .eqEq
  | .ne => .neq
  | .and => .kwAnd
  | .or => .kwOr

/-- The level of the left operand: comparisons do not chain, all others nest to the left. -/
def BinaryOp.leftLevel (op : BinaryOp) : Nat := if op.isComparison then op.level + 1 else op.level

/-- The word for a truth value. -/
def Token.Kind.ofBool : Bool → Kind
  | true => .kwTrue
  | false => .kwFalse

/-- `Spelled l ks e`: at level `l` and tighter ones, the kinds `ks` spell `e`. -/
inductive Expr.Spelled : Nat → List Kind → Expr → Prop
  | var (name : String) : Spelled 7 [.ident name] (.var name)
  | int {n : Nat} (h : n < Int64.size / 2) : Spelled 7 [.int n] (.int (.ofNat n))
  | bool (b : Bool) : Spelled 7 [.ofBool b] (.bool b)
  | brackets {ks : List Kind} {e : Expr} (h : Spelled 0 ks e) :
      Spelled 7 (.lparen :: ks ++ [.rparen]) e
  | unary (op : UnaryOp) {ks : List Kind} {e : Expr} (h : Spelled op.level ks e) :
      Spelled op.level (op.kind :: ks) (.unary op e)
  | binary (op : BinaryOp) {ks ks' : List Kind} {l r : Expr} (hl : Spelled op.leftLevel ks l)
      (hr : Spelled (op.level + 1) ks' r) :
      Spelled op.level (ks ++ op.kind :: ks') (.binary op l r)
  | tighter {n : Nat} {ks : List Kind} {e : Expr} (h : Spelled (n + 1) ks e) : Spelled n ks e

namespace BinaryOp

theorem kind_inj {op op' : BinaryOp} (h : op.kind = op'.kind) : op = op' := by
  cases op <;> cases op' <;> cases h <;> rfl

theorem isComparison_iff {op : BinaryOp} : op.isComparison = true ↔ op.level = 3 := by
  cases op <;> decide

theorem leftLevel_of_ne {op : BinaryOp} (h : op.level ≠ 3) : op.leftLevel = op.level := by
  unfold leftLevel
  rw [if_neg (fun hc => h (isComparison_iff.1 hc))]

theorem leftLevel_of_eq {op : BinaryOp} (h : op.level = 3) : op.leftLevel = 4 := by
  unfold leftLevel
  rw [if_pos (isComparison_iff.2 h), h]

theorem level_le_leftLevel (op : BinaryOp) : op.level ≤ op.leftLevel := by
  cases op <;> decide

end BinaryOp

theorem Expr.Spelled.mono {l l' : Nat} {ks : List Kind} {e : Expr} (h : Spelled l ks e) (hl : l' ≤ l) :
    Spelled l' ks e := by
  induction l with
  | zero =>
      obtain rfl : l' = 0 := by omega
      exact h
  | succ l ih =>
      by_cases he : l' = l + 1
      · rw [he]
        exact h
      · exact ih h.tighter (by omega)

/-- A spelling begins with a token that closes nothing. A sign there belongs to an operator of its level or a
tighter one. -/
theorem Expr.Spelled.front {l : Nat} {ks : List Kind} {e : Expr} (h : Spelled l ks e) :
    ∃ k ks', ks = k :: ks' ∧ k ≠ .rparen ∧ ∀ op : UnaryOp, k = op.kind → l ≤ op.level := by
  induction h with
  | var name => exact ⟨_, _, rfl, by simp, fun op h => by cases op <;> cases h⟩
  | int h => exact ⟨_, _, rfl, by simp, fun op h => by cases op <;> cases h⟩
  | bool b => exact ⟨_, _, rfl, by cases b <;> decide, fun op h => by cases b <;> cases op <;> cases h⟩
  | brackets h ih => exact ⟨_, _, rfl, by decide, fun op h => by cases op <;> cases h⟩
  | unary op h ih =>
      refine ⟨_, _, rfl, by cases op <;> decide, fun op' hop => ?_⟩
      cases op <;> cases op' <;> cases hop <;> exact Nat.le_refl _
  | binary op hl hr ihl ihr =>
      obtain ⟨k, ks', rfl, hk, hlevel⟩ := ihl
      exact ⟨k, _, rfl, hk, fun op' hop => Nat.le_trans op.level_le_leftLevel (hlevel op' hop)⟩
  | tighter h ih =>
      obtain ⟨k, ks', hks, hk, hlevel⟩ := ih
      exact ⟨k, ks', hks, hk, fun op hop => Nat.le_of_succ_le (hlevel op hop)⟩

/-- The kinds that occur in expressions. -/
def Token.Kind.inExpr : Kind → Bool
  | kwAnd | kwOr | kwNot | kwTrue | kwFalse | eqEq | neq | lt | gt | le | ge | plus | minus | star | percent | lparen
  | rparen | ident _ | int _ => true
  | _ => false

theorem Expr.Spelled.inExpr_eq {l : Nat} {ks : List Kind} {e : Expr} (h : Spelled l ks e) :
    ∀ k ∈ ks, k.inExpr = true := by
  induction h with
  | var name => exact List.forall_mem_singleton.2 rfl
  | int h => exact List.forall_mem_singleton.2 rfl
  | bool b => cases b <;> exact List.forall_mem_singleton.2 rfl
  | brackets h ih => exact List.forall_mem_append.2 ⟨List.forall_mem_cons.2 ⟨rfl, ih⟩, List.forall_mem_singleton.2 rfl⟩
  | unary op h ih => exact List.forall_mem_cons.2 ⟨by cases op <;> rfl, ih⟩
  | binary op hl hr ihl ihr =>
      exact List.forall_mem_append.2 ⟨ihl, List.forall_mem_cons.2 ⟨by cases op <;> rfl, ihr⟩⟩
  | tighter h ih => exact ih

theorem Expr.Spelled.isLayout_eq {l : Nat} {ks : List Kind} {e : Expr} (h : Spelled l ks e) :
    ∀ k ∈ ks, k.isLayout = false := by
  intro k hk
  have hexpr := h.inExpr_eq k hk
  cases k with
  | newline | indent | dedent | eof => cases hexpr
  | _ => rfl

/-! ### Lists in brackets -/

/-- One or more items with commas between them; a comma may stand after the last one. -/
inductive Listed {α : Type} (Item : List Kind → α → Prop) : List Kind → List α → Prop
  | last {ks : List Kind} {a : α} (h : Item ks a) : Listed Item ks [a]
  | lastComma {ks : List Kind} {a : α} (h : Item ks a) : Listed Item (ks ++ [.comma]) [a]
  | more {ks ks' : List Kind} {a : α} {as : List α} (h : Item ks a) (hs : Listed Item ks' as) :
      Listed Item (ks ++ .comma :: ks') (a :: as)

theorem Listed.front {α : Type} {Item : List Kind → α → Prop} {ks : List Kind} {as : List α}
    (h : Listed Item ks as) (hitem : ∀ ks a, Item ks a → ∃ k ks', ks = k :: ks' ∧ k ≠ .rparen) :
    ∃ k ks', ks = k :: ks' ∧ k ≠ .rparen := by
  cases h with
  | last h => exact hitem _ _ h
  | lastComma h | more h hs =>
      obtain ⟨k, ks', rfl, hk⟩ := hitem _ _ h
      exact ⟨k, _, rfl, hk⟩

/-- What stands in the brackets of a definition or a call: any number of items. -/
inductive Items {α : Type} (Item : List Kind → α → Prop) : List Kind → List α → Prop
  | none : Items Item [] []
  | some {ks : List Kind} {as : List α} (h : Listed Item ks as) : Items Item ks as

/-- The spelling of a name. -/
def NameSpelled (ks : List Kind) (name : String) : Prop := ks = [.ident name]

theorem Listed.front_names {ks : List Kind} {names : List String} (h : Listed NameSpelled ks names) :
    ∃ k ks', ks = k :: ks' ∧ k ≠ .rparen :=
  h.front (fun _ _ h => ⟨_, _, h, by simp⟩)

theorem Listed.front_exprs {ks : List Kind} {es : List Expr} (h : Listed (Expr.Spelled 0) ks es) :
    ∃ k ks', ks = k :: ks' ∧ k ≠ .rparen := by
  refine h.front (fun _ _ h => ?_)
  obtain ⟨k, ks', hks, hk, -⟩ := h.front
  exact ⟨k, ks', hks, hk⟩

/-! ### Commands -/

/-- What some tokens stand for: what follows `if`, a block, or the rest of a block with its end. -/
inductive Phrase where
  | arms (command : Command)
  | block (command : Command)
  | statements (commands : List Command)

/-- A statement ends with its line or before the end of its block; `ks'` is what follows it. -/
def LineEnds (ks ks' : List Kind) : Prop := ks = .newline :: ks' ∨ ks = ks' ∧ ks.head? = some .dedent

inductive Phrase.Spelled : List Kind → Phrase → Prop
  | ifOnly {cs ys : List Kind} {test : Expr} {yes : Command} (n : Nat) (hc : Expr.Spelled 0 cs test)
      (hy : Spelled ys (.block yes)) :
      Spelled (cs ++ .colon :: ys ++ List.replicate n .newline) (.arms (.choose test yes .pass))
  | ifElif {cs ys zs : List Kind} {test : Expr} {yes no : Command} (n : Nat) (hc : Expr.Spelled 0 cs test)
      (hy : Spelled ys (.block yes)) (hn : Spelled zs (.arms no)) :
      Spelled (cs ++ .colon :: ys ++ List.replicate n .newline ++ .kwElif :: zs)
        (.arms (.choose test yes no))
  | ifElse {cs ys zs : List Kind} {test : Expr} {yes no : Command} (n : Nat) (hc : Expr.Spelled 0 cs test)
      (hy : Spelled ys (.block yes)) (hn : Spelled zs (.block no)) :
      Spelled (cs ++ .colon :: ys ++ List.replicate n .newline ++ .kwElse :: .colon :: zs)
        (.arms (.choose test yes no))
  | block {ks : List Kind} {commands : List Command} (h : Spelled ks (.statements commands)) :
      Spelled (.newline :: .indent :: ks) (.block (.seq commands))
  | done : Spelled [.dedent] (.statements [])
  | blank {ks : List Kind} {commands : List Command} (h : Spelled ks (.statements commands)) :
      Spelled (.newline :: ks) (.statements commands)
  | pass {ks ks' : List Kind} {commands : List Command} (he : LineEnds ks ks')
      (h : Spelled ks' (.statements commands)) :
      Spelled (.kwPass :: ks) (.statements (.pass :: commands))
  | call {as ks ks' : List Kind} (callee : String) {args : List Expr} {commands : List Command}
      (ha : Items (Expr.Spelled 0) as args) (he : LineEnds ks ks')
      (h : Spelled ks' (.statements commands)) :
      Spelled (.ident callee :: .lparen :: as ++ .rparen :: ks) (.statements (.call callee args :: commands))
  | choose {bs ks : List Kind} {command : Command} {commands : List Command}
      (hb : Spelled bs (.arms command)) (h : Spelled ks (.statements commands)) :
      Spelled (.kwIf :: bs ++ ks) (.statements (command :: commands))

theorem Phrase.Spelled.ne_nil {ks : List Kind} {p : Phrase} (h : Phrase.Spelled ks p) : ks ≠ [] := by
  cases h <;> simp

/-- The rest of a block begins with a token, which neither ends the text nor goes on with an `if`. -/
theorem Phrase.Spelled.front {ks : List Kind} {commands : List Command}
    (h : Phrase.Spelled ks (.statements commands)) :
    ∃ k ks', ks = k :: ks' ∧ k ≠ .eof ∧ k ≠ .kwElif ∧ k ≠ .kwElse := by
  cases h with
  | done => exact ⟨_, _, rfl, by simp⟩
  | blank h => exact ⟨_, _, rfl, by simp⟩
  | pass he h => exact ⟨_, _, rfl, by simp⟩
  | call callee ha he h => exact ⟨_, _, rfl, by simp⟩
  | choose hb h => exact ⟨_, _, rfl, by simp⟩

theorem Phrase.Spelled.of_blank {ks : List Kind} {commands : List Command}
    (h : Phrase.Spelled (.newline :: ks) (.statements commands)) : Phrase.Spelled ks (.statements commands) := by
  generalize hks : Kind.newline :: ks = ks' at h
  cases h with
  | blank h =>
      cases hks
      exact h
  | done | pass | call | choose => cases hks

/-! ### Definitions -/

/-- The bound that a definition claims, if it has an arrow. -/
inductive BoundSpelled : List Kind → Expr → Prop
  | absent : BoundSpelled [] Function.defaultBound
  | text (text : String) : BoundSpelled [.arrow, .str text] (.ofBoundText text)

/-- A definition. The parameters are distinct; that the body uses no other names is part of the function. -/
inductive Function.Spelled : List Kind → Function → Prop
  | mk {ps bs ys : List Kind} {f : Function} (hp : Items NameSpelled ps f.params) (hd : f.params.Nodup)
      (hb : BoundSpelled bs f.bound) (hy : Phrase.Spelled ys (.block f.body)) :
      Spelled (.kwDef :: .ident f.name :: .lparen :: ps ++ .rparen :: bs ++ .colon :: ys) f

theorem Function.Spelled.front {ks : List Kind} {f : Function} (h : Function.Spelled ks f) :
    ∃ ks', ks = .kwDef :: ks' := by
  cases h
  exact ⟨_, rfl⟩

/-- Definitions with line ends between them. -/
inductive Definitions : List Kind → List Function → Prop
  | nil : Definitions [] []
  | blank {ks : List Kind} {fs : List Function} (h : Definitions ks fs) : Definitions (.newline :: ks) fs
  | cons {ks ks' : List Kind} {f : Function} {fs : List Function} (h : Function.Spelled ks f)
      (hs : Definitions ks' fs) : Definitions (ks ++ ks') (f :: fs)

/-- A whole program: its definitions and the end of the text. -/
inductive Program.Spelled : List Kind → Program → Prop
  | mk {ks : List Kind} {p : Program} (h : Definitions ks p.functions) : Spelled (ks ++ [.eof]) p

end CostBound
