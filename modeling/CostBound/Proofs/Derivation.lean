import CostBound.Proofs.ReadingExpr

/-!
# Derivations

The productions of expressions, and the trees that they allow. A level of the grammar is a nonterminal:

    level 0   or      := and ('or' and)*
    level 1   and     := not ('and' not)*
    level 2   not     := 'not' not | cmp
    level 3   cmp     := sum [cmpop sum]
    level 4   sum     := term (('+' | '-') term)*
    level 5   term    := unary (('*' | '%') unary)*
    level 6   unary   := '-' unary | primary
    level 7   primary := INT | 'True' | 'False' | IDENT | '(' or ')'

Texts that are printed may also have `'(' or 'if' or 'else' or ')'` for `primary`, and larger numbers.

* `Dialect` — which of these languages is meant.
* `Derivation`, `Tail` — derivation trees; `kinds` has the tokens of a tree and `expr` the expression, nested to the
  left.
* `Derivation.unique` — tokens have one derivation, whatever follows that does not go on with it.
* `Derives` — some tree has given tokens and a given expression; `derives_source_iff` says that this is the grammar that
  the readers are compared with.
* `TokenReader.exprToEnd_accepts` — an expression that ends its text is read by its only derivation.
-/

namespace CostBound

open Token (Kind)

/-! ### Trees -/

/-- What the grammar leaves open: which numbers there are, and whether there are conditionals. -/
structure Dialect where
  number : Nat → Prop
  conditional : Prop

/-- The language that is read. -/
def Dialect.source : Dialect := ⟨(· < Int64.size / 2), False⟩

/-- The language that is printed. -/
def Dialect.printed : Dialect := ⟨fun _ => True, True⟩

/-- The tokens that are expressions by themselves. -/
inductive Leaf (G : Dialect) where
  | ident (name : String)
  | int (n : Nat) (h : G.number n)
  | bool (b : Bool)

mutual

/-- The derivation trees of a level. -/
inductive Derivation (G : Dialect) : Nat → Type
  /-- Operands of the next level with operators between them. -/
  | chain {l : Nat} (hl : l ∈ [0, 1, 4, 5]) (first : Derivation G (l + 1)) (more : Tail G l) : Derivation G l
  | signed {l : Nat} (op : UnaryOp) (hl : op.level = l) (operand : Derivation G l) : Derivation G l
  | unsigned {l : Nat} (hl : l ∈ [2, 6]) (operand : Derivation G (l + 1)) : Derivation G l
  | alone (operand : Derivation G 4) : Derivation G 3
  | compared (op : BinaryOp) (hop : op.level = 3) (left right : Derivation G 4) : Derivation G 3
  | leaf (a : Leaf G) : Derivation G 7
  | brackets (inner : Derivation G 0) : Derivation G 7
  | cond (h : G.conditional) (yes test no : Derivation G 0) : Derivation G 7

/-- What follows the first operand of a chain. -/
inductive Tail (G : Dialect) : Nat → Type
  | done {l : Nat} : Tail G l
  | more {l : Nat} (op : BinaryOp) (hl : op.level = l) (operand : Derivation G (l + 1)) (rest : Tail G l) : Tail G l

end

variable {G : Dialect} {l : Nat}

/-- The kind of the token. -/
def Leaf.kind : Leaf G → Kind
  | .ident name => .ident name
  | .int n _ => .int n
  | .bool b => .ofBool b

/-- The expression that the token is. -/
def Leaf.expr : Leaf G → Expr
  | .ident name => .var name
  | .int n _ => .int (.ofNat n)
  | .bool b => .bool b

mutual

/-- The kinds of the tokens of a tree. -/
def Derivation.kinds {l : Nat} : Derivation G l → List Kind
  | .chain _ first more => first.kinds ++ more.kinds
  | .signed op _ operand => op.kind :: operand.kinds
  | .unsigned _ operand => operand.kinds
  | .alone operand => operand.kinds
  | .compared op _ left right => left.kinds ++ op.kind :: right.kinds
  | .leaf a => [a.kind]
  | .brackets inner => .lparen :: inner.kinds ++ [.rparen]
  | .cond _ yes test no => .lparen :: yes.kinds ++ .kwIf :: test.kinds ++ .kwElse :: no.kinds ++ [.rparen]

/-- The kinds of the tokens after the first operand. -/
def Tail.kinds {l : Nat} : Tail G l → List Kind
  | .done => []
  | .more op _ operand rest => op.kind :: operand.kinds ++ rest.kinds

end

mutual

/-- The expression of a tree. -/
def Derivation.expr {l : Nat} : Derivation G l → Expr
  | .chain _ first more => more.expr first.expr
  | .signed op _ operand => .unary op operand.expr
  | .unsigned _ operand => operand.expr
  | .alone operand => operand.expr
  | .compared op _ left right => .binary op left.expr right.expr
  | .leaf a => a.expr
  | .brackets inner => inner.expr
  | .cond _ yes test no => .cond test.expr yes.expr no.expr

/-- The expression of a chain whose operands so far are `left`. -/
def Tail.expr {l : Nat} (left : Expr) : Tail G l → Expr
  | .done => left
  | .more op _ operand rest => rest.expr (.binary op left operand.expr)

end

/-! ### Which trees a level has -/

theorem UnaryOp.level_inj {op op' : UnaryOp} (h : op.level = op'.level) : op = op' := by
  cases op <;> cases op' <;> cases h <;> rfl

theorem UnaryOp.level_mem (op : UnaryOp) : op.level ∈ [2, 6] := by
  cases op <;> decide

theorem BinaryOp.level_mem {op : BinaryOp} (h : op.level ≠ 3) : op.level ∈ [0, 1, 4, 5] := by
  cases op with
  | or | and | add | sub | mul | mod => decide
  | le | lt | ge | gt | eq | ne => exact absurd rfl h

theorem not_mem_of_mem_chained (h : l ∈ [0, 1, 4, 5]) : l ∉ [2, 6] ∧ l ≠ 3 ∧ l ≠ 7 := by
  simp only [List.mem_cons, List.not_mem_nil, or_false] at h ⊢
  omega

namespace Leaf

theorem kind_inj {a b : Leaf G} (h : a.kind = b.kind) : a = b := by
  cases a with
  | ident name =>
      cases b with
      | ident name' =>
          cases h
          rfl
      | int n hn => cases h
      | bool b => cases b <;> cases h
  | int n hn =>
      cases b with
      | ident name => cases h
      | int n' hn' =>
          cases h
          rfl
      | bool b => cases b <;> cases h
  | bool a =>
      cases b with
      | ident | int => cases a <;> cases h
      | bool b => cases a <;> cases b <;> cases h <;> rfl

theorem kind_ne_lparen (a : Leaf G) : a.kind ≠ .lparen := by
  cases a with
  | ident | int => exact fun h => by cases h
  | bool b => cases b <;> exact fun h => by cases h

theorem kind_ne_sign (a : Leaf G) (op : UnaryOp) : a.kind ≠ op.kind := by
  cases a with
  | ident | int => cases op <;> exact fun h => by cases h
  | bool b => cases b <;> cases op <;> exact fun h => by cases h

end Leaf

namespace Derivation

theorem eq_chain (hl : l ∈ [0, 1, 4, 5]) (d : Derivation G l) : ∃ first more, d = .chain hl first more := by
  obtain ⟨hsigned, hthree, hseven⟩ := not_mem_of_mem_chained hl
  cases d with
  | chain _ first more => exact ⟨first, more, rfl⟩
  | signed op hop _ => exact absurd (hop ▸ op.level_mem) hsigned
  | unsigned hl' _ => exact absurd hl' hsigned
  | alone | compared => exact absurd rfl hthree
  | leaf | brackets | cond => exact absurd rfl hseven

theorem eq_signed_or_unsigned {op : UnaryOp} (hop : op.level = l) (hl : l ∈ [2, 6]) (d : Derivation G l) :
    (∃ operand, d = .signed op hop operand) ∨ ∃ operand, d = .unsigned hl operand := by
  cases d with
  | chain hl' _ _ => exact absurd hl (not_mem_of_mem_chained hl').1
  | signed op' hop' operand =>
      obtain rfl : op' = op := UnaryOp.level_inj (hop'.trans hop.symm)
      exact .inl ⟨operand, rfl⟩
  | unsigned _ operand => exact .inr ⟨operand, rfl⟩
  | alone | compared | leaf | brackets | cond => exact absurd hl (by decide)

theorem eq_alone_or_compared (d : Derivation G 3) :
    (∃ operand, d = .alone operand) ∨ ∃ op hop left right, d = .compared op hop left right := by
  cases d with
  | chain hl _ _ => exact absurd hl (by decide)
  | signed op hop _ => exact absurd (hop ▸ op.level_mem) (by decide)
  | unsigned hl _ => exact absurd hl (by decide)
  | alone operand => exact .inl ⟨operand, rfl⟩
  | compared op hop left right => exact .inr ⟨op, hop, left, right, rfl⟩

theorem eq_leaf_or_brackets_or_cond (d : Derivation G 7) :
    (∃ a, d = .leaf a) ∨ (∃ inner, d = .brackets inner) ∨ ∃ h yes test no, d = .cond h yes test no := by
  cases d with
  | chain hl _ _ => exact absurd hl (by decide)
  | signed op hop _ => exact absurd (hop ▸ op.level_mem) (by decide)
  | unsigned hl _ => exact absurd hl (by decide)
  | leaf a => exact .inl ⟨a, rfl⟩
  | brackets inner => exact .inr (.inl ⟨inner, rfl⟩)
  | cond h yes test no => exact .inr (.inr ⟨h, yes, test, no, rfl⟩)

theorem level_le (d : Derivation G l) : l ≤ 7 := by
  cases d with
  | chain hl _ _ =>
      simp only [List.mem_cons, List.not_mem_nil, or_false] at hl
      omega
  | signed op hop _ =>
      subst hop
      cases op <;> decide
  | unsigned hl _ =>
      simp only [List.mem_cons, List.not_mem_nil, or_false] at hl
      omega
  | alone | compared | leaf | brackets | cond => decide

/-- A tree has a first token. If this is a sign, the sign belongs to the level of the tree or a tighter one. -/
theorem front {l : Nat} : (d : Derivation G l) → ∃ k ks, d.kinds = k :: ks ∧ ∀ op : UnaryOp, k = op.kind → l ≤ op.level
  | .chain _ first more => by
      obtain ⟨k, ks, hks, hk⟩ := first.front
      exact ⟨k, ks ++ more.kinds, by rw [kinds, hks]; rfl, fun op hop => Nat.le_of_succ_le (hk op hop)⟩
  | .signed op hl operand => by
      refine ⟨op.kind, operand.kinds, by rw [kinds], fun op' hop => ?_⟩
      subst hl
      cases op <;> cases op' <;> cases hop <;> exact Nat.le_refl _
  | .unsigned _ operand => by
      obtain ⟨k, ks, hks, hk⟩ := operand.front
      exact ⟨k, ks, by rw [kinds, hks], fun op hop => Nat.le_of_succ_le (hk op hop)⟩
  | .alone operand => by
      obtain ⟨k, ks, hks, hk⟩ := operand.front
      exact ⟨k, ks, by rw [kinds, hks], fun op hop => Nat.le_of_succ_le (hk op hop)⟩
  | .compared op _ left right => by
      obtain ⟨k, ks, hks, hk⟩ := left.front
      exact ⟨k, ks ++ op.kind :: right.kinds, by rw [kinds, hks]; rfl, fun op hop => Nat.le_of_succ_le (hk op hop)⟩
  | .leaf a => ⟨_, _, by rw [kinds], fun op h => absurd h (a.kind_ne_sign op)⟩
  | .brackets inner => ⟨_, _, by rw [kinds]; rfl, fun op h => by cases op <;> cases h⟩
  | .cond _ yes test no => ⟨_, _, by rw [kinds]; rfl, fun op h => by cases op <;> cases h⟩

end Derivation

/-! ### Unique derivations -/

/-- Some tokens do not go on with a tree of level `l`. -/
def Follows (l : Nat) (ks : List Kind) : Prop := ∀ op : BinaryOp, ks.head? = some op.kind → op.level < l

namespace Follows

variable {ks : List Kind}

theorem mono {l' : Nat} (h : Follows l ks) (hl : l ≤ l') : Follows l' ks :=
  fun op hop => Nat.lt_of_lt_of_le (h op hop) hl

theorem operator {op : BinaryOp} (h : op.level < l) : Follows l (op.kind :: ks) := by
  intro op' hop
  rw [← BinaryOp.kind_inj (Option.some.inj hop)]
  exact h

/-- What stands after an expression in brackets, or at the end of a text. -/
theorem ending {k : Kind} (hk : k ∈ [.rparen, .kwIf, .kwElse, .newline, .eof]) : Follows l (k :: ks) := by
  have hop : ∀ op : BinaryOp, op.kind ∉ [.rparen, .kwIf, .kwElse, .newline, .eof] := by
    intro op
    cases op <;> decide
  intro op h
  exact absurd (Option.some.inj h ▸ hk) (hop op)

theorem tail {t : Tail G l} (h : Follows l ks) : Follows (l + 1) (t.kinds ++ ks) := by
  cases t with
  | done => exact h.mono (Nat.le_succ l)
  | more op hop operand rest =>
      rw [Tail.kinds]
      exact operator (by omega)

end Follows

mutual

/-- **Unique derivations.** If two trees of a level have the same tokens before what does not go on with them, they are
the same tree. -/
theorem Derivation.unique {l : Nat} {ks ks' : List Kind} (hks : Follows l ks) (hks' : Follows l ks') :
    (d d' : Derivation G l) → d.kinds ++ ks = d'.kinds ++ ks' → d = d' ∧ ks = ks'
  | .chain hl first more, d', h => by
      obtain ⟨first', more', rfl⟩ := d'.eq_chain hl
      rw [Derivation.kinds, Derivation.kinds, List.append_assoc, List.append_assoc] at h
      obtain ⟨rfl, htail⟩ := first.unique hks.tail hks'.tail first' h
      obtain ⟨rfl, rfl⟩ := more.unique hks hks' more' htail
      exact ⟨rfl, rfl⟩
  | .signed op hop operand, d', h => by
      obtain ⟨operand', rfl⟩ | ⟨operand', rfl⟩ := d'.eq_signed_or_unsigned hop (hop ▸ op.level_mem)
      · rw [Derivation.kinds, Derivation.kinds, List.cons_append, List.cons_append] at h
        obtain ⟨rfl, rfl⟩ := operand.unique hks hks' operand' (List.cons.inj h).2
        exact ⟨rfl, rfl⟩
      · -- the sign would stand at the front of a tree of the next level
        obtain ⟨k, rest, hfront, hk⟩ := operand'.front
        rw [Derivation.kinds, Derivation.kinds, hfront] at h
        have := hk op (List.cons.inj h).1.symm
        omega
  | .unsigned hl operand, d', h => by
      cases d' with
      | unsigned hl' operand' =>
          rw [Derivation.kinds, Derivation.kinds] at h
          obtain ⟨rfl, rfl⟩ := operand.unique (hks.mono (Nat.le_succ l)) (hks'.mono (Nat.le_succ l)) operand' h
          exact ⟨rfl, rfl⟩
      | signed op hop operand' =>
          obtain ⟨k, rest, hfront, hk⟩ := operand.front
          rw [Derivation.kinds, Derivation.kinds, hfront] at h
          have := hk op (List.cons.inj h).1
          omega
      | chain hl' _ _ => exact absurd hl (not_mem_of_mem_chained hl').1
      | alone | compared | leaf | brackets | cond => exact absurd hl (by decide)
  | .alone operand, d', h => by
      obtain ⟨operand', rfl⟩ | ⟨op, hop, left, right, rfl⟩ := d'.eq_alone_or_compared
      · rw [Derivation.kinds, Derivation.kinds] at h
        obtain ⟨rfl, rfl⟩ := operand.unique (hks.mono (by omega)) (hks'.mono (by omega)) operand' h
        exact ⟨rfl, rfl⟩
      · rw [Derivation.kinds, Derivation.kinds, List.append_assoc] at h
        obtain ⟨-, rfl⟩ := operand.unique (hks.mono (by omega)) (.operator (by omega)) left h
        have := hks op rfl
        omega
  | .compared op hop left right, d', h => by
      obtain ⟨operand, rfl⟩ | ⟨op', hop', left', right', rfl⟩ := d'.eq_alone_or_compared
      · rw [Derivation.kinds, Derivation.kinds, List.append_assoc] at h
        obtain ⟨-, rfl⟩ := left.unique (.operator (by omega)) (hks'.mono (by omega)) operand h
        have := hks' op rfl
        omega
      · rw [Derivation.kinds, Derivation.kinds, List.append_assoc, List.append_assoc] at h
        obtain ⟨rfl, htail⟩ := left.unique (.operator (by omega)) (.operator (by omega)) left' h
        obtain ⟨hkind, hright⟩ := List.cons.inj htail
        obtain rfl := BinaryOp.kind_inj hkind
        obtain ⟨rfl, rfl⟩ := right.unique (hks.mono (by omega)) (hks'.mono (by omega)) right' hright
        exact ⟨rfl, rfl⟩
  | .leaf a, d', h => by
      obtain ⟨a', rfl⟩ | ⟨inner, rfl⟩ | ⟨hc, yes, test, no, rfl⟩ := d'.eq_leaf_or_brackets_or_cond
      all_goals rw [Derivation.kinds, Derivation.kinds] at h
      · obtain ⟨hkind, htail⟩ := List.cons.inj h
        obtain rfl := Leaf.kind_inj hkind
        exact ⟨rfl, htail⟩
      · exact absurd (List.cons.inj h).1 a.kind_ne_lparen
      · exact absurd (List.cons.inj h).1 a.kind_ne_lparen
  | .brackets inner, d', h => by
      obtain ⟨a, rfl⟩ | ⟨inner', rfl⟩ | ⟨hc, yes, test, no, rfl⟩ := d'.eq_leaf_or_brackets_or_cond
      all_goals rw [Derivation.kinds, Derivation.kinds] at h
      · exact absurd (List.cons.inj h).1.symm a.kind_ne_lparen
      · simp only [List.cons_append, List.append_assoc, List.cons.injEq, true_and] at h
        obtain ⟨rfl, htail⟩ := inner.unique (.ending (by decide)) (.ending (by decide)) inner' h
        exact ⟨rfl, (List.cons.inj htail).2⟩
      · -- after the same tree there is a bracket in one case and an `if` in the other
        simp only [List.cons_append, List.append_assoc, List.cons.injEq, true_and] at h
        obtain ⟨-, htail⟩ := inner.unique (.ending (by decide)) (.ending (by decide)) yes h
        cases htail
  | .cond hc yes test no, d', h => by
      obtain ⟨a, rfl⟩ | ⟨inner, rfl⟩ | ⟨hc', yes', test', no', rfl⟩ := d'.eq_leaf_or_brackets_or_cond
      all_goals rw [Derivation.kinds, Derivation.kinds] at h
      · exact absurd (List.cons.inj h).1.symm a.kind_ne_lparen
      · simp only [List.cons_append, List.append_assoc, List.cons.injEq, true_and] at h
        obtain ⟨-, htail⟩ := yes.unique (.ending (by decide)) (.ending (by decide)) inner h
        cases htail
      · simp only [List.cons_append, List.append_assoc, List.cons.injEq, true_and] at h
        obtain ⟨rfl, htest⟩ := yes.unique (.ending (by decide)) (.ending (by decide)) yes' h
        obtain ⟨rfl, hno⟩ := test.unique (.ending (by decide)) (.ending (by decide)) test' (List.cons.inj htest).2
        obtain ⟨rfl, htail⟩ := no.unique (.ending (by decide)) (.ending (by decide)) no' (List.cons.inj hno).2
        exact ⟨rfl, (List.cons.inj htail).2⟩

/-- The same for what follows the first operand of a chain. -/
theorem Tail.unique {l : Nat} {ks ks' : List Kind} (hks : Follows l ks) (hks' : Follows l ks') :
    (t t' : Tail G l) → t.kinds ++ ks = t'.kinds ++ ks' → t = t' ∧ ks = ks'
  | .done, .done, h => ⟨rfl, h⟩
  | .done, .more op hop operand rest, h => by
      rw [Tail.kinds, Tail.kinds, List.nil_append] at h
      have := hks op (by rw [h]; rfl)
      omega
  | .more op hop operand rest, .done, h => by
      rw [Tail.kinds, Tail.kinds, List.nil_append] at h
      have := hks' op (by rw [← h]; rfl)
      omega
  | .more op hop operand rest, .more op' hop' operand' rest', h => by
      rw [Tail.kinds, Tail.kinds, List.append_assoc, List.append_assoc] at h
      obtain ⟨hkind, htail⟩ := List.cons.inj h
      obtain rfl := BinaryOp.kind_inj hkind
      obtain ⟨rfl, hrest⟩ := operand.unique hks.tail hks'.tail operand' htail
      obtain ⟨rfl, rfl⟩ := rest.unique hks hks' rest' hrest
      exact ⟨rfl, rfl⟩

end

/-! ### Tokens and expressions of trees -/

/-- `Derives G l ks e`: some tree of level `l` has the tokens `ks` and the expression `e`. -/
def Derives (G : Dialect) (l : Nat) (ks : List Kind) (e : Expr) : Prop :=
  ∃ d : Derivation G l, d.kinds = ks ∧ d.expr = e

/-- One more operator and operand at the end of a chain. -/
def Tail.snoc {l : Nat} (op : BinaryOp) (hop : op.level = l) (last : Derivation G (l + 1)) : Tail G l → Tail G l
  | .done => .more op hop last .done
  | .more op' hop' operand rest => .more op' hop' operand (rest.snoc op hop last)

namespace Tail

variable {op : BinaryOp} {hop : op.level = l} {last : Derivation G (l + 1)}

theorem kinds_snoc : (t : Tail G l) → (t.snoc op hop last).kinds = t.kinds ++ op.kind :: last.kinds
  | .done => by simp [snoc, kinds]
  | .more op' hop' operand rest => by simp [snoc, kinds, kinds_snoc rest]

theorem expr_snoc (left : Expr) : (t : Tail G l) → (t.snoc op hop last).expr left = .binary op (t.expr left) last.expr
  | .done => by simp [snoc, expr]
  | .more op' hop' operand rest => by simp [snoc, expr, expr_snoc _ rest]

end Tail

namespace Derives

variable {ks ks' : List Kind} {e : Expr}

theorem leaf (a : Leaf G) : Derives G 7 [a.kind] a.expr := ⟨.leaf a, by rw [Derivation.kinds], by rw [Derivation.expr]⟩

theorem brackets (h : Derives G 0 ks e) : Derives G 7 (.lparen :: ks ++ [.rparen]) e := by
  obtain ⟨d, rfl, rfl⟩ := h
  exact ⟨.brackets d, by rw [Derivation.kinds], by rw [Derivation.expr]⟩

theorem cond {ks'' : List Kind} {test yes no : Expr} (h : G.conditional) (hyes : Derives G 0 ks yes)
    (htest : Derives G 0 ks' test) (hno : Derives G 0 ks'' no) :
    Derives G 7 (.lparen :: ks ++ .kwIf :: ks' ++ .kwElse :: ks'' ++ [.rparen]) (.cond test yes no) := by
  obtain ⟨dyes, rfl, rfl⟩ := hyes
  obtain ⟨dtest, rfl, rfl⟩ := htest
  obtain ⟨dno, rfl, rfl⟩ := hno
  exact ⟨.cond h dyes dtest dno, by rw [Derivation.kinds], by rw [Derivation.expr]⟩

theorem unary (op : UnaryOp) (h : Derives G op.level ks e) : Derives G op.level (op.kind :: ks) (.unary op e) := by
  obtain ⟨d, rfl, rfl⟩ := h
  exact ⟨.signed op rfl d, by rw [Derivation.kinds], by rw [Derivation.expr]⟩

theorem binary (op : BinaryOp) {left right : Expr} (hleft : Derives G op.leftLevel ks left)
    (hright : Derives G (op.level + 1) ks' right) :
    Derives G op.level (ks ++ op.kind :: ks') (.binary op left right) := by
  by_cases hop : op.level = 3
  · rw [BinaryOp.leftLevel_of_eq hop] at hleft
    rw [hop] at hright ⊢
    obtain ⟨d, rfl, rfl⟩ := hleft
    obtain ⟨d', rfl, rfl⟩ := hright
    exact ⟨.compared op hop d d', by rw [Derivation.kinds], by rw [Derivation.expr]⟩
  · -- the left operand is a chain, which goes on
    rw [BinaryOp.leftLevel_of_ne hop] at hleft
    have hl := BinaryOp.level_mem hop
    obtain ⟨d, rfl, rfl⟩ := hleft
    obtain ⟨d', rfl, rfl⟩ := hright
    obtain ⟨first, more, rfl⟩ := d.eq_chain hl
    refine ⟨.chain hl first (more.snoc op rfl d'), ?_, ?_⟩
    · rw [Derivation.kinds, Derivation.kinds, Tail.kinds_snoc, List.append_assoc]
    · rw [Derivation.expr, Derivation.expr, Tail.expr_snoc]

theorem tighter (h : Derives G (l + 1) ks e) : Derives G l ks e := by
  obtain ⟨d, rfl, rfl⟩ := h
  have hl := d.level_le
  by_cases hchain : l ∈ [0, 1, 4, 5]
  · refine ⟨.chain hchain d .done, ?_, ?_⟩
    · rw [Derivation.kinds, Tail.kinds, List.append_nil]
    · rw [Derivation.expr, Tail.expr]
  · by_cases hsigned : l ∈ [2, 6]
    · exact ⟨.unsigned hsigned d, by rw [Derivation.kinds], by rw [Derivation.expr]⟩
    · obtain rfl : l = 3 := by
        simp only [List.mem_cons, List.not_mem_nil, or_false] at hchain hsigned
        omega
      exact ⟨.alone d, by rw [Derivation.kinds], by rw [Derivation.expr]⟩

theorem mono {l' : Nat} (h : Derives G l ks e) (hl : l' ≤ l) : Derives G l' ks e := by
  induction l with
  | zero =>
      obtain rfl : l' = 0 := by omega
      exact h
  | succ l ih =>
      by_cases he : l' = l + 1
      · rw [he]
        exact h
      · exact ih h.tighter (by omega)

end Derives

mutual

/-- What is derived is spelled. -/
theorem Derivation.spelled {l : Nat} : (d : Derivation .source l) → Expr.Spelled l d.kinds d.expr
  | .chain hl first more => by
      rw [Derivation.kinds, Derivation.expr]
      exact more.spelled (not_mem_of_mem_chained hl).2.1 first.spelled.tighter
  | .signed op hop operand => by
      have hoperand := operand.spelled
      subst hop
      rw [Derivation.kinds, Derivation.expr]
      exact .unary op hoperand
  | .unsigned _ operand => by
      rw [Derivation.kinds, Derivation.expr]
      exact operand.spelled.tighter
  | .alone operand => by
      rw [Derivation.kinds, Derivation.expr]
      exact operand.spelled.tighter
  | .compared op hop left right => by
      rw [Derivation.kinds, Derivation.expr, ← hop]
      refine .binary op ?_ ?_
      · rw [BinaryOp.leftLevel_of_eq hop]
        exact left.spelled
      · rw [hop]
        exact right.spelled
  | .leaf a => by
      rw [Derivation.kinds, Derivation.expr]
      cases a with
      | ident name => exact .var name
      | int n hn => exact .int hn
      | bool b => exact .bool b
  | .brackets inner => by
      rw [Derivation.kinds, Derivation.expr]
      exact .brackets inner.spelled
  | .cond h _ _ _ => h.elim

/-- A chain goes on: what spells its left part, and the tokens after it, spell the whole. -/
theorem Tail.spelled {l : Nat} (hl : l ≠ 3) {ks : List Kind} {left : Expr} (h : Expr.Spelled l ks left) :
    (t : Tail .source l) → Expr.Spelled l (ks ++ t.kinds) (t.expr left)
  | .done => by
      rw [Tail.kinds, Tail.expr, List.append_nil]
      exact h
  | .more op hop operand rest => by
      have hbinary : Expr.Spelled l (ks ++ op.kind :: operand.kinds) (.binary op left operand.expr) := by
        have hoperand := operand.spelled
        subst hop
        rw [← BinaryOp.leftLevel_of_ne hl] at h
        exact .binary op h hoperand
      have hrest := rest.spelled hl hbinary
      rw [List.append_assoc] at hrest
      rw [Tail.kinds, Tail.expr]
      exact hrest

end

/-- **Two forms of the grammar.** -/
theorem derives_source_iff {ks : List Kind} {e : Expr} : Derives .source l ks e ↔ Expr.Spelled l ks e := by
  constructor
  · rintro ⟨d, rfl, rfl⟩
    exact d.spelled
  · intro h
    induction h with
    | var name => exact .leaf (.ident name)
    | int h => exact .leaf (.int _ h)
    | bool b => exact .leaf (.bool b)
    | brackets _ ih => exact ih.brackets
    | unary op _ ih => exact ih.unary op
    | binary op _ _ ihl ihr => exact .binary op ihl ihr
    | tighter _ ih => exact ih.tighter

/-! ### Reading -/

/-- The tokens are those of the tree, then line ends, the end of the text, and anything. -/
def Derivation.Covers (d : Derivation .source 0) (ts : List Token) : Prop :=
  ∃ used newlines eof rest, ts = used ++ newlines ++ eof :: rest ∧ TokenReader.kinds used = d.kinds
    ∧ (∀ t ∈ newlines, t.kind = .newline) ∧ eof.kind = .eof

theorem follows_line_end {newlines rest : List Token} {eof : Token} (hn : ∀ t ∈ newlines, t.kind = .newline)
    (heof : eof.kind = .eof) : Follows l (TokenReader.kinds (newlines ++ eof :: rest)) := by
  cases newlines with
  | nil =>
      rw [List.nil_append, TokenReader.kinds_cons, heof]
      exact .ending (by decide)
  | cons t newlines =>
      rw [List.cons_append, TokenReader.kinds_cons, hn t List.mem_cons_self]
      exact .ending (by decide)

theorem Derivation.eq_of_covers {d d' : Derivation .source 0} {ts : List Token} (h : d.Covers ts) (h' : d'.Covers ts) :
    d = d' := by
  obtain ⟨used, newlines, eof, rest, rfl, hused, hn, heof⟩ := h
  obtain ⟨used', newlines', eof', rest', hts, hused', hn', heof'⟩ := h'
  have hkinds := congrArg TokenReader.kinds hts
  rw [List.append_assoc, List.append_assoc, TokenReader.kinds_append, TokenReader.kinds_append used', hused, hused']
    at hkinds
  exact (d.unique (follows_line_end hn heof) (follows_line_end hn' heof') d' hkinds).1

theorem Derivation.kinds_inj {d d' : Derivation G l} (h : d.kinds = d'.kinds) : d = d' := by
  have hend : Follows l [] := fun op hop => by cases hop
  exact (d.unique hend hend d' (by rw [h])).1

namespace TokenReader

/-- **The reader of expressions accepts its grammar.** It gives an expression if the tokens are those of a derivation
with that expression, then line ends, the end of the text and anything, and only then. At most one derivation is at the
front of the tokens in this way, and no tokens have two. -/
theorem exprToEnd_accepts (ts : List Token) :
    (∀ e, (∃ rest, exprToEnd ts = .ok (e, rest)) ↔ ∃ d : Derivation .source 0, d.Covers ts ∧ d.expr = e)
      ∧ (∀ d d' : Derivation .source 0, d.Covers ts → d'.Covers ts → d = d')
      ∧ ∀ d d' : Derivation .source 0, d.kinds = d'.kinds → d = d' := by
  refine ⟨fun e => ⟨fun h => ?_, fun h => ?_⟩, fun _ _ => Derivation.eq_of_covers, fun _ _ => Derivation.kinds_inj⟩
  · obtain ⟨_, hread⟩ := h
    obtain ⟨used, gap, rfl, hused, hgap, hfront⟩ := exprToEnd_eq_ok.1 hread
    obtain ⟨eof, rest, rfl, heof⟩ := frontKind_eq_some.1 hfront
    obtain ⟨d, hkinds, hexpr⟩ := derives_source_iff.2 hused
    exact ⟨d, ⟨used, gap, eof, rest, rfl, hkinds.symm, hgap, heof⟩, hexpr⟩
  · obtain ⟨d, ⟨used, newlines, eof, rest, rfl, hused, hn, heof⟩, rfl⟩ := h
    have hspelled : Expr.Spelled 0 (kinds used) d.expr := by
      rw [hused]
      exact d.spelled
    exact ⟨eof :: rest, exprToEnd_eq_ok.2 ⟨used, newlines, rfl, hspelled, hn, congrArg some heof⟩⟩

end TokenReader

end CostBound
