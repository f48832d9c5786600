import Mathlib.Logic.Basic
import CostBound.Proofs.Grammar

/-!
# The tokens of a program's text

The kinds of tokens that the text of a program consists of, and what they spell: the program itself, up to its
normal form. In the normal form a negative literal is the negation of a positive one, and blocks nest to the right.

* `Printable` — names are words that are no keywords, there are no conditionals, and the least integer, whose
  negation is none, does not occur; `Expr.WellNamed` — the first of these alone.
* `Expr.kinds`, `Command.kinds`, `Function.kinds` — the kinds of tokens in a text.
* `Expr.normal`, `Command.normal`, `Function.normal` — normal forms.
* `Expr.spelled_kinds`, `Command.spelled_kinds`, `Function.spelled_kinds` — the kinds spell the normal form.
-/

namespace CostBound

open Token (Kind)

def IsWord (x : String) : Prop :=
  ∃ c cs, x.toList = c :: cs ∧ Lexeme.isWordStart c = true ∧ ∀ d ∈ cs, Lexeme.isWordPart d = true

theorem IsWord.of_all {x : String} {c : Char} {cs : List Char} (hx : x.toList = c :: cs)
    (hc : Lexeme.isWordStart c = true) (hcs : cs.all Lexeme.isWordPart = true) : IsWord x :=
  ⟨c, cs, hx, hc, List.all_eq_true.1 hcs⟩

theorem isWord_iff {x : String} :
    IsWord x ↔ x.toList.head?.any Lexeme.isWordStart = true ∧ x.toList.tail.all Lexeme.isWordPart = true := by
  unfold IsWord
  cases x.toList with
  | nil => simp
  | cons c cs => simp [and_assoc]

instance (x : String) : Decidable (IsWord x) := decidable_of_iff _ isWord_iff.symm

/-- A word that is no keyword. -/
def IsName (x : String) : Prop := IsWord x ∧ Kind.ofWord x = .ident x

instance (x : String) : Decidable (IsName x) := inferInstanceAs (Decidable (_ ∧ _))

/-! ### Expressions -/

namespace Expr

def Printable : Expr → Prop
  | var name => IsName name
  | lit (.int n) => n ≠ Int64.minValue
  | lit (.bool _) => True
  | unary _ e => e.Printable
  | binary _ l r => l.Printable ∧ r.Printable
  | cond _ _ _ => False

instance decidablePrintable : (e : Expr) → Decidable e.Printable
  | var name => inferInstanceAs (Decidable (IsName name))
  | lit (.int n) => inferInstanceAs (Decidable (n ≠ Int64.minValue))
  | lit (.bool _) => inferInstanceAs (Decidable True)
  | unary _ e => e.decidablePrintable
  | binary _ l r => @instDecidableAnd _ _ l.decidablePrintable r.decidablePrintable
  | cond _ _ _ => inferInstanceAs (Decidable False)

/-- All names are words that are no keywords. -/
def WellNamed (e : Expr) : Prop := ∀ x ∈ e.names, IsName x

instance (e : Expr) : Decidable e.WellNamed := inferInstanceAs (Decidable (∀ x ∈ e.names, IsName x))

theorem wellNamed_var {x : String} : (var x).WellNamed ↔ IsName x := List.forall_mem_singleton

theorem wellNamed_binary {op : BinaryOp} {l r : Expr} : (binary op l r).WellNamed ↔ l.WellNamed ∧ r.WellNamed := by
  simp only [WellNamed, names, Names.mem_union, or_imp, forall_and]

theorem wellNamed_cond {c t e : Expr} : (cond c t e).WellNamed ↔ c.WellNamed ∧ t.WellNamed ∧ e.WellNamed := by
  simp only [WellNamed, names, Names.mem_union, or_imp, forall_and]

theorem Printable.wellNamed {e : Expr} (h : e.Printable) : e.WellNamed := by
  induction e with
  | var name => exact wellNamed_var.2 h
  | lit l => exact List.forall_mem_nil _
  | unary op e ih => exact ih h
  | binary op l r ihl ihr => exact wellNamed_binary.2 ⟨ihl h.1, ihr h.2⟩
  | cond c t e => exact h.elim

/-- Negative literals as negations. -/
def normal : Expr → Expr
  | var name => var name
  | lit (.int n) => if n < 0 then unary .neg (int (-n)) else lit (.int n)
  | lit (.bool b) => lit (.bool b)
  | unary op e => unary op e.normal
  | binary op l r => binary op l.normal r.normal
  | cond c t e => cond c.normal t.normal e.normal

@[simp]
theorem mem_names_normal {x : String} {e : Expr} : x ∈ e.normal.names ↔ x ∈ e.names := by
  induction e with
  | var name => rfl
  | lit l =>
      cases l with
      | int n =>
          unfold normal
          split <;> rfl
      | bool b => rfl
  | unary op e ih => exact ih
  | binary op l r ihl ihr => simp [normal, names, ihl, ihr]
  | cond c t e ihc iht ihe => simp [normal, names, ihc, iht, ihe]

/-- Brackets around some tokens if need be. -/
def bracketKinds (needed : Bool) (ks : List Kind) : List Kind :=
  if needed then .lparen :: ks ++ [.rparen] else ks

/-- The kinds of the tokens in the text of an expression. -/
def kinds : Expr → List Kind
  | var name => [.ident name]
  | lit (.int n) => if n < 0 then [.minus, .int n.toInt.natAbs] else [.int n.toInt.natAbs]
  | lit (.bool b) => [.ofBool b]
  | unary op e => op.kind :: bracketKinds (e.level < op.level) e.kinds
  | binary op l r =>
      bracketKinds (l.level < op.level || l.level == op.level && op.isComparison) l.kinds
        ++ op.kind :: bracketKinds (r.level ≤ op.level) r.kinds
  | cond c t e => .lparen :: t.kinds ++ .kwIf :: c.kinds ++ .kwElse :: e.kinds ++ [.rparen]

/-- Left operands are bracketed if they bind less tightly than they have to. -/
theorem bracketed_left_iff {op : BinaryOp} {l : Nat} :
    (decide (l < op.level) || l == op.level && op.isComparison) = true ↔ l < op.leftLevel := by
  by_cases hop : op.level = 3
  · simp [BinaryOp.leftLevel_of_eq hop, BinaryOp.isComparison_iff.2 hop, hop]
    omega
  · simp [BinaryOp.leftLevel_of_ne hop, BinaryOp.isComparison_iff, hop]

theorem bracketed_right_iff {op : BinaryOp} {l : Nat} : decide (l ≤ op.level) = true ↔ l < op.level + 1 :=
  decide_eq_true_iff.trans Nat.lt_succ_iff.symm

theorem spelled_bracketKinds {e : Expr} {l l' : Nat} {ks : List Kind} {needed : Bool} (h : Spelled l ks e)
    (hl : l' ≤ 7) (hn : needed = true ↔ l < l') : Spelled l' (bracketKinds needed ks) e := by
  unfold bracketKinds
  by_cases hneeded : needed = true
  · rw [if_pos hneeded]
    exact (Spelled.brackets (h.mono (Nat.zero_le l))).mono hl
  · rw [if_neg hneeded]
    exact h.mono (by rw [hn] at hneeded; omega)

theorem toInt_zero : (0 : Int64).toInt = 0 := rfl

theorem ofNat_natAbs {n : Int64} (h : ¬ n < 0) : Int64.ofNat n.toInt.natAbs = n := by
  rw [Int64.lt_iff_toInt_lt, toInt_zero] at h
  have hlt := n.toInt_lt
  rw [← Int64.toInt_inj, Int64.toInt_ofNat_of_lt (by omega)]
  omega

theorem ofNat_natAbs_neg {n : Int64} (h : n < 0) (hmin : n ≠ Int64.minValue) :
    n.toInt.natAbs < Int64.size / 2 ∧ Int64.ofNat n.toInt.natAbs = -n := by
  rw [Int64.lt_iff_toInt_lt, toInt_zero] at h
  have hge := n.le_toInt
  have hne : n.toInt ≠ -2 ^ 63 := by
    rw [← Int64.toInt_minValue]
    exact fun heq => hmin (Int64.toInt_inj.1 heq)
  have hsize : Int64.size / 2 = 2 ^ 63 := rfl
  have hbound : n.toInt.natAbs < Int64.size / 2 := by omega
  refine ⟨hbound, ?_⟩
  rw [← Int64.toInt_inj, Int64.toInt_ofNat_of_lt hbound, Int64.toInt_neg,
    Int.bmod_eq_of_le (by omega) (by omega)]
  omega

theorem spelled_kinds {e : Expr} (h : e.Printable) : Spelled e.level e.kinds e.normal := by
  induction e with
  | var name => exact .var name
  | lit l =>
      cases l with
      | int n =>
          simp only [level, kinds, normal]
          by_cases hn : n < 0
          · rw [if_pos hn, if_pos hn, if_pos hn]
            obtain ⟨hbound, heq⟩ := ofNat_natAbs_neg hn h
            rw [← heq]
            exact .unary .neg (Spelled.int hbound).tighter
          · rw [if_neg hn, if_neg hn, if_neg hn]
            have hbound : n.toInt.natAbs < Int64.size / 2 := by
              have hlt := n.toInt_lt
              have hsize : Int64.size / 2 = 2 ^ 63 := rfl
              rw [Int64.lt_iff_toInt_lt, toInt_zero] at hn
              omega
            have hspelled := Spelled.int hbound
            rw [ofNat_natAbs hn] at hspelled
            exact hspelled
      | bool b => exact .bool b
  | unary op e ih =>
      refine .unary op (spelled_bracketKinds (ih h) ?_ (by simp))
      cases op <;> decide
  | binary op l r ihl ihr =>
      refine .binary op (spelled_bracketKinds (ihl h.1) ?_ ?_) (spelled_bracketKinds (ihr h.2) ?_ ?_)
      · cases op <;> decide
      · exact bracketed_left_iff
      · cases op <;> decide
      · exact bracketed_right_iff
  | cond c t e => exact h.elim

end Expr

/-! ### Lists in brackets -/

/-- Items with commas between them are listed. -/
theorem listed_intercalate {α β : Type} {Item : List Kind → β → Prop} {f : α → List Kind} {g : α → β} {a : α}
    {as : List α} (h : ∀ b ∈ a :: as, Item (f b) (g b)) :
    Listed Item ([.comma].intercalate ((a :: as).map f)) ((a :: as).map g) := by
  induction as generalizing a with
  | nil =>
      rw [List.map_singleton, List.map_singleton, List.intercalate_singleton]
      exact .last (h a List.mem_cons_self)
  | cons b bs ih =>
      show Listed Item ([.comma].intercalate (f a :: f b :: bs.map f)) (g a :: (b :: bs).map g)
      rw [List.intercalate_cons_cons, List.append_assoc]
      exact .more (h a List.mem_cons_self) (ih (fun c hc => h c (List.mem_cons_of_mem a hc)))

theorem items_intercalate {α β : Type} {Item : List Kind → β → Prop} {f : α → List Kind} {g : α → β}
    {as : List α} (h : ∀ a ∈ as, Item (f a) (g a)) :
    Items Item ([.comma].intercalate (as.map f)) (as.map g) := by
  cases as with
  | nil => exact .none
  | cons a as => exact .some (listed_intercalate h)

/-! ### Commands -/

namespace Command

def Printable : Command → Prop
  | pass => True
  | call callee args => IsName callee ∧ ∀ e ∈ args, e.Printable
  | block a b => a.Printable ∧ b.Printable
  | choose test yes no => test.Printable ∧ yes.Printable ∧ no.Printable

instance decidablePrintable : (c : Command) → Decidable c.Printable
  | pass => inferInstanceAs (Decidable True)
  | call callee args => inferInstanceAs (Decidable (IsName callee ∧ ∀ e ∈ args, e.Printable))
  | block a b => @instDecidableAnd _ _ a.decidablePrintable b.decidablePrintable
  | choose test a b =>
      @instDecidableAnd _ _ test.decidablePrintable
        (@instDecidableAnd _ _ a.decidablePrintable b.decidablePrintable)

/-- The statements of a command, each in normal form. -/
def statements : Command → List Command
  | pass => [pass]
  | call callee args => [call callee (args.map Expr.normal)]
  | block a b => a.statements ++ b.statements
  | choose test yes no => [choose test.normal (seq yes.statements) (seq no.statements)]

/-- Blocks nested to the right. -/
def normal (c : Command) : Command := seq c.statements

theorem mem_names_seq {x : String} {commands : List Command} :
    x ∈ (seq commands).names ↔ ∃ c ∈ commands, x ∈ c.names := by
  induction commands using seq.induct with
  | case1 => simp [seq, names]
  | case2 c => simp [seq]
  | case3 c cs hne ih =>
      rw [seq.eq_3 c cs hne]
      simp [names, ih]

theorem mem_names_statements {x : String} {c : Command} :
    (∃ s ∈ c.statements, x ∈ s.names) ↔ x ∈ c.names := by
  induction c with
  | pass => simp [statements]
  | call callee args => simp [statements, names]
  | block a b iha ihb => simp [statements, names, or_and_right, exists_or, iha, ihb]
  | choose test yes no ihyes ihno => simp [statements, names, mem_names_seq, ihyes, ihno]

@[simp]
theorem mem_names_normal {x : String} {c : Command} : x ∈ c.normal.names ↔ x ∈ c.names := by
  unfold normal
  rw [mem_names_seq, mem_names_statements]

/-- The kinds of the tokens in the text of a command, with the layout of its lines. -/
def kinds : Command → List Kind
  | pass => [.kwPass, .newline]
  | call callee args =>
      .ident callee :: .lparen :: [.comma].intercalate (args.map Expr.kinds) ++ [.rparen, .newline]
  | block a b => a.kinds ++ b.kinds
  | choose test yes no =>
      .kwIf :: test.kinds ++ .colon :: .newline :: .indent :: yes.kinds ++ .dedent
        :: (if no = pass then [] else .kwElse :: .colon :: .newline :: .indent :: no.kinds ++ [.dedent])

theorem spelled_block {ks : List Kind} {commands : List Command}
    (h : Phrase.Spelled (ks ++ [.dedent]) (.statements (commands ++ []))) :
    Phrase.Spelled (.newline :: .indent :: ks ++ [.dedent]) (.block (seq commands)) := by
  rw [List.append_nil] at h
  exact .block h

/-- The tokens of a command, put before the rest of a block, spell its statements and the others. -/
theorem spelled_kinds {c : Command} (h : c.Printable) {ks : List Kind} {commands : List Command}
    (hs : Phrase.Spelled ks (.statements commands)) :
    Phrase.Spelled (c.kinds ++ ks) (.statements (c.statements ++ commands)) := by
  induction c generalizing ks commands with
  | pass => exact .pass (.inl rfl) hs
  | call callee args =>
      have hargs : Items (Expr.Spelled 0) ([.comma].intercalate (args.map Expr.kinds)) (args.map Expr.normal) :=
        items_intercalate (fun e he => (Expr.spelled_kinds (h.2 e he)).mono (Nat.zero_le _))
      have hline : LineEnds (.newline :: ks) ks := .inl rfl
      simpa [kinds, statements] using Phrase.Spelled.call callee hargs hline hs
  | block a b iha ihb =>
      have := iha h.1 (ihb h.2 hs)
      simpa [kinds, statements] using this
  | choose test yes no ihyes ihno =>
      have htest := (Expr.spelled_kinds h.1).mono (Nat.zero_le _)
      have hyes := spelled_block (ihyes h.2.1 .done)
      have hno := spelled_block (ihno h.2.2 .done)
      by_cases hpass : no = pass
      · subst hpass
        have := Phrase.Spelled.choose (Phrase.Spelled.ifOnly 0 htest hyes) hs
        simpa [kinds, statements, seq] using this
      · have := Phrase.Spelled.choose (Phrase.Spelled.ifElse 0 htest hyes hno) hs
        simpa [kinds, statements, hpass] using this

end Command

/-! ### Functions -/

namespace Function

structure Printable (f : Function) : Prop where
  name : IsName f.name
  params : ∀ x ∈ f.params, IsName x
  distinct : f.params.Nodup
  body : f.body.Printable
  bound : f.bound.Printable

theorem printable_iff {f : Function} :
    f.Printable ↔ IsName f.name ∧ (∀ x ∈ f.params, IsName x) ∧ f.params.Nodup ∧ f.body.Printable ∧ f.bound.Printable :=
  ⟨fun h => ⟨h.name, h.params, h.distinct, h.body, h.bound⟩, fun ⟨hn, hp, hd, hb, hc⟩ => ⟨hn, hp, hd, hb, hc⟩⟩

instance (f : Function) : Decidable f.Printable := decidable_of_iff _ printable_iff.symm

/-- Body and bound in normal form. -/
def normal (f : Function) : Function where
  name := f.name
  params := f.params
  body := f.body.normal
  bound := f.bound.normal
  closed := fun x hx => f.closed x (Command.mem_names_normal.1 hx)

/-- The kinds of the tokens in the text of a function, with the layout of its lines. -/
def kinds (f : Function) : List Kind :=
  .kwDef :: .ident f.name :: .lparen :: [.comma].intercalate (f.params.map fun x => [.ident x])
    ++ .rparen :: [.arrow, .str f.bound.text]
    ++ .colon :: .newline :: .indent :: f.body.kinds ++ [.dedent]

theorem spelled_kinds {f : Function} (h : f.Printable) (hb : Expr.ofBoundText f.bound.text = f.bound.normal) :
    Spelled f.kinds f.normal := by
  have hparams : Items NameSpelled ([.comma].intercalate (f.params.map fun x => [Kind.ident x]))
      f.normal.params := by
    have hnames : ∀ x ∈ f.params, NameSpelled [.ident x] (id x) := fun _ _ => rfl
    have := items_intercalate hnames
    rw [List.map_id] at this
    exact this
  have hbound : BoundSpelled [.arrow, .str f.bound.text] f.normal.bound := by
    have := BoundSpelled.text f.bound.text
    rw [hb] at this
    exact this
  have hbody : Phrase.Spelled (.newline :: .indent :: f.body.kinds ++ [.dedent]) (.block f.normal.body) :=
    Command.spelled_block (Command.spelled_kinds h.body .done)
  have := Spelled.mk hparams h.distinct hbound hbody
  simpa [kinds, normal] using this

end Function

end CostBound
