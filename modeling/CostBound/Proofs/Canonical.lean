import Mathlib.Control.Monad.Basic
import CostBound.Proofs.FreshNames
import CostBound.Proofs.ReadingProgram
import CostBound.Proofs.RoundTrip

/-!
# Programs that come from a text

What is read from a text is canonical: it can be printed, and it is its own normal form. A canonical program is
recovered from its own text, so printing a program that was read loses nothing.

* `Token.scan_named` — the names among the tokens of a text are words and no keywords.
* `Expr.Spelled.canonical`, `Phrase.Spelled.canonical`, `Function.Spelled.canonical` — what tokens with such names
  spell is canonical.
* `Program.canonical_of_ofSource`, `Program.ofSource_text_of_canonical` — the two halves of the round trip.
* `Program.canonical_scaled` — unknowns in the bounds keep a program canonical.
-/

namespace CostBound

open Token (Kind)

/-! ### Names among tokens -/

/-- All names among some kinds are words and no keywords. -/
def Named (ks : List Kind) : Prop := ∀ x, Kind.ident x ∈ ks → IsName x

theorem named_nil : Named [] := fun _ hx => absurd hx List.not_mem_nil

theorem named_cons {k : Kind} {ks : List Kind} : Named (k :: ks) ↔ (∀ x, k = .ident x → IsName x) ∧ Named ks := by
  simp only [Named, List.mem_cons, or_imp, forall_and, eq_comm]

theorem named_append {ks ks' : List Kind} : Named (ks ++ ks') ↔ Named ks ∧ Named ks' := by
  simp only [Named, List.mem_append, or_imp, forall_and]

theorem named_replicate {n : Nat} {k : Kind} (h : ∀ x, k ≠ .ident x) : Named (List.replicate n k) := by
  intro x hx
  exact absurd (List.eq_of_mem_replicate hx).symm (h x)

theorem isName_of_ofWord {w x : String} (hw : IsWord w) (h : Kind.ofWord w = .ident x) : IsName x := by
  have hword : Kind.ofWord w = .ident x := h
  unfold Kind.ofWord at h
  cases hk : Kind.keywords.lookup w with
  | none =>
      rw [hk] at h
      cases h
      exact ⟨hw, hword⟩
  | some k =>
      rw [hk] at h
      obtain ⟨before, after, hkeywords, -⟩ := List.lookup_eq_some_iff.1 hk
      have hmem : (w, k) ∈ Kind.keywords := hkeywords ▸ List.mem_append_right before List.mem_cons_self
      cases (h : k = .ident x)
      simp [Kind.keywords] at hmem

namespace Lexeme

theorem sign?_ne_ident (c : Char) (x : String) : sign? c ≠ some (.ident x) := by
  intro h
  unfold sign? at h
  split at h <;> cases h

theorem sign₂?_ne_ident (c d : Char) (x : String) : sign₂? c d ≠ some (.ident x) := by
  intro h
  unfold sign₂? at h
  split at h <;> cases h

theorem single_ne_ident (c : Char) (cs : List Char) (x : String) : (single c cs).meaning ≠ .token (.ident x) := by
  intro h
  unfold single at h
  split at h
  · rename_i kind hkind
    cases h
    exact sign?_ne_ident c x hkind
  · cases h

theorem sign_ne_ident (c : Char) (cs : List Char) (x : String) : (sign c cs).meaning ≠ .token (.ident x) := by
  intro h
  unfold sign at h
  split at h
  · split at h
    · rename_i kind hkind
      cases h
      exact sign₂?_ne_ident c _ x hkind
    · exact single_ne_ident c _ x h
  · exact single_ne_ident c [] x h

theorem quoted_ne_ident (quote : Char) (cs : List Char) (x : String) :
    (quoted quote cs).meaning ≠ .token (.ident x) := by
  intro h
  unfold quoted at h
  split at h
  · split at h
    · split at h <;> cases h
    · cases h
  · cases h

theorem numeral_ne_ident (cs : List Char) (x : String) : (numeral cs).meaning ≠ .token (.ident x) := by
  intro h
  unfold numeral at h
  dsimp only at h
  split at h <;> cases h

/-- Only words are names. -/
theorem isName_of_first {c : Char} {cs : List Char} {x : String} (h : (first c cs).meaning = .token (.ident x)) :
    IsName x := by
  unfold first at h
  split at h
  · cases h
  · split at h
    · rename_i hc
      refine isName_of_ofWord ⟨c, cs.takeWhile isWordPart, String.toList_ofList, hc, ?_⟩ (Meaning.token.inj h)
      exact fun d hd => List.all_eq_true.1 List.all_takeWhile d hd
    · split at h
      · exact absurd h (numeral_ne_ident _ x)
      · split at h
        · exact absurd h (quoted_ne_ident c cs x)
        · exact absurd h (sign_ne_ident c cs x)

theorem isName_of_mem_allWithin {n : Nat} {cs : List Char} {l : Lexeme} {x : String} (hl : l ∈ allWithin n cs)
    (h : l.meaning = .token (.ident x)) : IsName x := by
  fun_induction allWithin n cs with
  | case1 n c cs ih =>
      rcases List.mem_cons.1 hl with rfl | hl
      · exact isName_of_first h
      · exact ih hl
  | case2 => cases hl

end Lexeme

namespace Scan

theorem place_named {offset : Nat} {ls : List Lexeme} {ts : List Token}
    (hl : ∀ l ∈ ls, ∀ x, l.meaning = .token (.ident x) → IsName x) (h : place offset ls = .ok ts) :
    Named (TokenReader.kinds ts) := by
  induction ls generalizing offset ts with
  | nil =>
      cases h
      exact named_nil
  | cons l ls ih =>
      have hls := fun l' hl' => hl l' (List.mem_cons_of_mem l hl')
      rw [place_cons] at h
      split at h
      · exact ih hls h
      · rename_i kind hkind
        obtain ⟨ts', hts', h⟩ := except_bind_eq_ok.1 h
        cases h
        exact named_cons.2 ⟨fun x hx => hl l List.mem_cons_self x (hx ▸ hkind), ih hls hts'⟩
      · cases h

theorem indentation_named {opened opened' : List Nat} {width : Nat} {layout : List Kind}
    (h : indentation opened width = some (layout, opened')) : Named layout := by
  unfold indentation at h
  dsimp only at h
  split at h
  · cases h
    exact named_replicate (by simp)
  · split at h
    · cases h
      exact named_cons.2 ⟨by simp, named_nil⟩
    · cases h

theorem line_named {offset : Nat} {opened opened' : List Nat} {text : List Char} {ts : List Token}
    (h : line offset opened text = .ok (ts, opened')) : Named (TokenReader.kinds ts) := by
  rw [line_eq] at h
  split at h
  · cases h
  · split at h
    · cases h
    · rename_i layout opened'' hlayout
      obtain ⟨tokens, htokens, h⟩ := except_bind_eq_ok.1 h
      cases h
      rw [TokenReader.kinds_append, TokenReader.kinds_append, TokenReader.kinds_map_mk, named_append, named_append]
      refine ⟨⟨indentation_named hlayout, place_named ?_ htokens⟩, named_cons.2 ⟨by simp, named_nil⟩⟩
      exact fun l hl x hx => Lexeme.isName_of_mem_allWithin hl hx

theorem fromLines_named {offset : Nat} {opened : List Nat} {ls : List (List Char)} {ts : List Token}
    (h : fromLines offset opened ls = .ok ts) : Named (TokenReader.kinds ts) := by
  induction ls generalizing offset opened ts with
  | nil =>
      cases h
      intro x hx
      simp [TokenReader.kinds] at hx
  | cons text rest ih =>
      rw [fromLines_cons] at h
      split at h
      · exact ih h
      · obtain ⟨⟨tokens, opened'⟩, hline, h₁⟩ := except_bind_eq_ok.1 h
        obtain ⟨others, hrest, h₂⟩ := except_bind_eq_ok.1 h₁
        cases h₂
        rw [TokenReader.kinds_append, named_append]
        exact ⟨line_named hline, ih hrest⟩

end Scan

theorem Token.scan_named {source : String} {ts : List Token} (h : Token.scan source = .ok ts) :
    Named (TokenReader.kinds ts) :=
  Scan.fromLines_named h

/-! ### Expressions -/

/-- An expression that can be printed and is its own normal form. -/
structure Expr.Canonical (e : Expr) : Prop where
  printable : e.Printable
  normal_eq : e.normal = e

namespace Expr

theorem canonical_ofNat {n : Nat} (h : n < Int64.size / 2) : (int (.ofNat n)).Canonical := by
  have hn : (Int64.ofNat n).toInt = n := Int64.toInt_ofNat_of_lt h
  constructor
  · show Int64.ofNat n ≠ Int64.minValue
    rw [Ne, ← Int64.toInt_inj, hn, Int64.toInt_minValue]
    omega
  · have hnonneg : ¬ Int64.ofNat n < 0 := by
      rw [Int64.lt_iff_toInt_lt, hn, toInt_zero]
      omega
    exact if_neg hnonneg

theorem Canonical.binary {op : BinaryOp} {l r : Expr} (hl : l.Canonical) (hr : r.Canonical) :
    (Expr.binary op l r).Canonical := by
  refine ⟨⟨hl.printable, hr.printable⟩, ?_⟩
  rw [normal, hl.normal_eq, hr.normal_eq]

theorem Spelled.canonical {l : Nat} {ks : List Kind} {e : Expr} (h : Spelled l ks e) (hn : Named ks) :
    e.Canonical := by
  induction h with
  | var name => exact ⟨hn name List.mem_cons_self, rfl⟩
  | int h => exact canonical_ofNat h
  | bool b => exact ⟨trivial, rfl⟩
  | brackets h ih =>
      rw [List.cons_append, named_cons, named_append] at hn
      exact ih hn.2.1
  | unary op h ih =>
      have he := ih (named_cons.1 hn).2
      refine ⟨he.printable, ?_⟩
      rw [normal, he.normal_eq]
  | binary op hl hr ihl ihr =>
      rw [named_append, named_cons] at hn
      exact (ihl hn.1).binary (ihr hn.2.2)
  | tighter h ih => exact ih hn

theorem canonical_of_ofSource {source : String} {e : Expr} (h : Expr.ofSource source = .ok e) : e.Canonical := by
  obtain ⟨ts, rest, hts, hread⟩ := TokenReader.runOn_eq_ok.1 h
  obtain ⟨used, gap, rfl, hspelled, -⟩ := TokenReader.exprToEnd_eq_ok.1 hread
  have hnamed := Token.scan_named hts
  rw [TokenReader.kinds_append, TokenReader.kinds_append, named_append, named_append] at hnamed
  exact hspelled.canonical hnamed.1.1

theorem canonical_defaultBound : Function.defaultBound.Canonical := canonical_ofNat (n := 1) (by decide)

theorem canonical_ofBoundText (text : String) : (ofBoundText text).Canonical := by
  unfold ofBoundText
  cases h : ofSource text with
  | ok e => exact canonical_of_ofSource h
  | error _ => exact canonical_defaultBound

end Expr

/-! ### Lists in brackets -/

theorem Listed.forall_of_named {α : Type} {Item : List Kind → α → Prop} {P : α → Prop} {ks : List Kind}
    {as : List α} (h : Listed Item ks as) (hn : Named ks) (hitem : ∀ ks a, Item ks a → Named ks → P a) :
    ∀ a ∈ as, P a := by
  induction h with
  | last h => exact List.forall_mem_singleton.2 (hitem _ _ h hn)
  | lastComma h => exact List.forall_mem_singleton.2 (hitem _ _ h (named_append.1 hn).1)
  | more h hs ih =>
      rw [named_append, named_cons] at hn
      exact List.forall_mem_cons.2 ⟨hitem _ _ h hn.1, ih hn.2.2⟩

theorem Items.forall_of_named {α : Type} {Item : List Kind → α → Prop} {P : α → Prop} {ks : List Kind}
    {as : List α} (h : Items Item ks as) (hn : Named ks) (hitem : ∀ ks a, Item ks a → Named ks → P a) :
    ∀ a ∈ as, P a := by
  cases h with
  | none => exact List.forall_mem_nil P
  | some h => exact h.forall_of_named hn hitem

/-! ### Commands -/

namespace Command

/-- A command that can be printed and has its blocks nested to the right. -/
structure Canonical (c : Command) : Prop where
  printable : c.Printable
  normal_eq : c.normal = c

/-- One canonical statement: anything but a block. -/
structure Statement (c : Command) : Prop where
  printable : c.Printable
  statements_eq : c.statements = [c]

theorem canonical_pass : pass.Canonical := ⟨trivial, rfl⟩

theorem statement_call {callee : String} {args : List Expr} (hc : IsName callee) (ha : ∀ e ∈ args, e.Canonical) :
    (call callee args).Statement := by
  refine ⟨⟨hc, fun e he => (ha e he).printable⟩, ?_⟩
  have hargs : args.map Expr.normal = args := by
    rw [List.map_congr_left (fun e he => (ha e he).normal_eq)]
    exact List.map_id args
  rw [statements, hargs]

theorem statement_choose {test : Expr} {yes no : Command} (ht : test.Canonical) (hy : yes.Canonical)
    (hn : no.Canonical) : (choose test yes no).Statement := by
  refine ⟨⟨ht.printable, hy.printable, hn.printable⟩, ?_⟩
  show [choose test.normal yes.normal no.normal] = _
  rw [ht.normal_eq, hy.normal_eq, hn.normal_eq]

theorem Statement.canonical {c : Command} (h : c.Statement) : c.Canonical := by
  refine ⟨h.printable, ?_⟩
  unfold normal
  rw [h.statements_eq]
  rfl

theorem statements_block {a b : Command} : (block a b).statements = a.statements ++ b.statements := rfl

/-- The statements that a block is made of are those it is taken apart into. -/
theorem statements_seq {c : Command} {cs : List Command} (h : ∀ d ∈ c :: cs, d.Statement) :
    (seq (c :: cs)).statements = c :: cs := by
  induction cs generalizing c with
  | nil => exact (h c List.mem_cons_self).statements_eq
  | cons d cs ih =>
      rw [seq.eq_3 c (d :: cs) (List.cons_ne_nil d cs), statements_block,
        (h c List.mem_cons_self).statements_eq, ih (fun e he => h e (List.mem_cons_of_mem c he))]
      rfl

theorem printable_seq {cs : List Command} (h : ∀ c ∈ cs, c.Printable) : (seq cs).Printable := by
  induction cs using seq.induct with
  | case1 => trivial
  | case2 c => exact h c List.mem_cons_self
  | case3 c cs hne ih =>
      rw [seq.eq_3 c cs hne]
      exact ⟨h c List.mem_cons_self, ih (fun d hd => h d (List.mem_cons_of_mem c hd))⟩

theorem canonical_seq {cs : List Command} (h : ∀ c ∈ cs, c.Statement) : (seq cs).Canonical := by
  refine ⟨printable_seq (fun c hc => (h c hc).printable), ?_⟩
  cases cs with
  | nil => rfl -- an empty block is a `pass`, which is one statement
  | cons c cs =>
      unfold normal
      rw [statements_seq h]

end Command

/-- What the commands of a phrase are. -/
def Phrase.Canonical : Phrase → Prop
  | arms command => command.Statement
  | block command => command.Canonical
  | statements commands => ∀ c ∈ commands, c.Statement

theorem LineEnds.named {ks ks' : List Kind} (h : LineEnds ks ks') (hn : Named ks) : Named ks' := by
  obtain rfl | ⟨rfl, -⟩ := h
  · exact (named_cons.1 hn).2
  · exact hn

theorem Phrase.Spelled.canonical {ks : List Kind} {p : Phrase} (h : Phrase.Spelled ks p) (hn : Named ks) :
    p.Canonical := by
  induction h with
  | ifOnly n hc hy ihy =>
      simp only [named_append, named_cons] at hn
      exact Command.statement_choose (hc.canonical hn.1.1) (ihy hn.1.2.2) Command.canonical_pass
  | ifElif n hc hy hno ihy ihno =>
      simp only [named_append, named_cons] at hn
      exact Command.statement_choose (hc.canonical hn.1.1.1) (ihy hn.1.1.2.2) (ihno hn.2.2).canonical
  | ifElse n hc hy hno ihy ihno =>
      simp only [named_append, named_cons] at hn
      exact Command.statement_choose (hc.canonical hn.1.1.1) (ihy hn.1.1.2.2) (ihno hn.2.2.2)
  | block h ih =>
      simp only [named_cons] at hn
      exact Command.canonical_seq (ih hn.2.2)
  | done => exact List.forall_mem_nil _
  | blank h ih => exact ih (named_cons.1 hn).2
  | pass he h ih =>
      exact List.forall_mem_cons.2 ⟨⟨trivial, rfl⟩, ih (he.named (named_cons.1 hn).2)⟩
  | call callee ha he h ih =>
      simp only [List.cons_append, named_append, named_cons] at hn
      have hargs := ha.forall_of_named hn.2.2.1 (fun ks e he hks => he.canonical hks)
      exact List.forall_mem_cons.2 ⟨Command.statement_call (hn.1 callee rfl) hargs, ih (he.named hn.2.2.2.2)⟩
  | choose hb h ihb ih =>
      simp only [List.cons_append, named_append, named_cons] at hn
      exact List.forall_mem_cons.2 ⟨ihb hn.2.1, ih hn.2.2⟩

/-! ### Functions and programs -/

namespace Function

/-- A function whose names can be printed, with a canonical body and bound. -/
structure Canonical (f : Function) : Prop where
  name : IsName f.name
  params : ∀ x ∈ f.params, IsName x
  distinct : f.params.Nodup
  body : f.body.Canonical
  bound : f.bound.Canonical

theorem Canonical.printable {f : Function} (h : f.Canonical) : f.Printable :=
  ⟨h.name, h.params, h.distinct, h.body.printable, h.bound.printable⟩

theorem Canonical.normal_eq {f : Function} (h : f.Canonical) : f.normal = f := by
  obtain ⟨-, -, -, hbody, hbound⟩ := h
  cases f
  simp only [normal, mk.injEq, true_and]
  exact ⟨hbody.normal_eq, hbound.normal_eq⟩

theorem Canonical.withBound {f : Function} {bound : Expr} (h : f.Canonical) (hb : bound.Canonical) :
    (f.withBound bound).Canonical :=
  ⟨h.name, h.params, h.distinct, h.body, hb⟩

theorem Spelled.canonical {ks : List Kind} {f : Function} (h : Spelled ks f) (hn : Named ks) : f.Canonical := by
  cases h with
  | mk hp hd hb hy =>
      simp only [List.cons_append, List.append_assoc, named_append, named_cons] at hn
      obtain ⟨-, hname, -, hps, -, -, -, hys⟩ := hn
      have hparams : ∀ x ∈ f.params, IsName x :=
        hp.forall_of_named hps (fun ks x hx hks => hks x (hx ▸ List.mem_cons_self))
      -- the text of a bound is scanned anew, so its names are those of another text
      have hbound : f.bound.Canonical := by
        generalize f.bound = bound at hb
        cases hb with
        | absent => exact Expr.canonical_defaultBound
        | text text => exact Expr.canonical_ofBoundText text
      exact ⟨hname f.name rfl, hparams, hd, hy.canonical hys, hbound⟩

end Function

theorem Definitions.canonical {ks : List Kind} {fs : List Function} (h : Definitions ks fs)
    (hn : Named ks) : ∀ f ∈ fs, f.Canonical := by
  induction h with
  | nil => exact List.forall_mem_nil _
  | blank h ih => exact ih (named_cons.1 hn).2
  | cons h hs ih =>
      rw [named_append] at hn
      exact List.forall_mem_cons.2 ⟨h.canonical hn.1, ih hn.2⟩

namespace Program

def Canonical (p : Program) : Prop := ∀ f ∈ p.functions, f.Canonical

/-- **What is read is canonical.** -/
theorem canonical_of_ofSource {source : String} {p : Program} (h : ofSource source = .ok p) : p.Canonical := by
  obtain ⟨ts, rest, hts, hread⟩ := TokenReader.runOn_eq_ok.1 h
  obtain ⟨used, rfl, hdefinitions, -⟩ := TokenReader.program_eq_ok.1 hread
  have hnamed := Token.scan_named hts
  rw [TokenReader.kinds_append, named_append] at hnamed
  exact hdefinitions.canonical hnamed.1

/-- **What is canonical is read back.** -/
theorem ofSource_text_of_canonical {p : Program} (h : p.Canonical) : ofSource p.text = .ok p := by
  have hnormal : p.functions.map Function.normal = p.functions := by
    rw [List.map_congr_left (fun f hf => (h f hf).normal_eq)]
    exact List.map_id p.functions
  rw [ofSource_text (fun f hf => (h f hf).printable), normal, hnormal]

end Program

/-! ### Unknowns in bounds -/

/-- No keyword begins as the unknowns do. -/
theorem isName_of_front {x : String} {cs : List Char} (hx : x.toList = 'c' :: cs)
    (hcs : ∀ d ∈ cs, Lexeme.isWordPart d = true) : IsName x := by
  refine ⟨⟨'c', cs, hx, by decide, hcs⟩, ?_⟩
  have hnone : Kind.keywords.lookup x = none := by
    rw [List.lookup_eq_none_iff]
    have hfront : ∀ p ∈ Kind.keywords, p.1.toList.head? ≠ some 'c' := by decide
    intro p hp
    rw [bne_iff_ne]
    intro heq
    exact hfront p hp (by rw [← heq, hx]; rfl)
  unfold Kind.ofWord
  rw [hnone]
  rfl

namespace Supply

theorem isName_freshUnknown (s : Supply) (kind : Unknown.Kind) : IsName (s.freshUnknown kind).1 := by
  have hdigits : ∀ d ∈ (toString (s.given + 1)).toList, Lexeme.isWordPart d = true := by
    intro d hd
    have hdigit : d.isDigit = true := by
      rw [Unknown.toList_toString] at hd
      exact Nat.isDigit_of_mem_toDigits (by decide) (by decide) hd
    simp [Lexeme.isWordPart, Char.isAlphanum, hdigit]
  have hparts : ∀ c : Char, Lexeme.isWordPart c = true →
      ∀ d ∈ c :: '_' :: '_' :: (toString (s.given + 1)).toList, Lexeme.isWordPart d = true := by
    intro c hc
    exact List.forall_mem_cons.2 ⟨hc, List.forall_mem_cons.2 ⟨rfl, List.forall_mem_cons.2 ⟨rfl, hdigits⟩⟩⟩
  unfold freshUnknown fresh
  cases kind with
  | scale => exact isName_of_front (by simp [Unknown.Kind.base]) (hparts '0' rfl)
  | offset => exact isName_of_front (by simp [Unknown.Kind.base]) (hparts '1' rfl)

theorem canonical_scale (s : Supply) {bound : Expr} (h : bound.Canonical) : (s.scale bound).1.Canonical := by
  have hvar : ∀ (s : Supply) kind, (Expr.var (s.freshUnknown kind).1).Canonical :=
    fun s kind => ⟨s.isName_freshUnknown kind, rfl⟩
  exact ((hvar _ _).binary h).binary (hvar _ _)

theorem canonical_scaleAll (s : Supply) {fs : List Function} (h : ∀ f ∈ fs, f.Canonical) :
    ∀ f ∈ (s.scaleAll fs).1, f.Canonical := by
  induction fs generalizing s with
  | nil => exact List.forall_mem_nil _
  | cons f fs ih =>
      have hf := h f List.mem_cons_self
      exact List.forall_mem_cons.2
        ⟨hf.withBound (s.canonical_scale hf.bound), ih _ (fun g hg => h g (List.mem_cons_of_mem f hg))⟩

end Supply

namespace Program

theorem canonical_scaled {p : Program} (h : p.Canonical) (s : Supply) : (p.scaled s).1.Canonical :=
  s.canonical_scaleAll h

/-- **Printing keeps programs.** -/
theorem text_keeps_program {source : String} {p : Program} (h : ofSource source = .ok p) (s : Supply) :
    ofSource p.text = .ok p ∧ (ofSource p.text).map text = .ok p.text
      ∧ ofSource (p.scaled s).1.text = .ok (p.scaled s).1 := by
  have hcanonical := canonical_of_ofSource h
  have hread := ofSource_text_of_canonical hcanonical
  refine ⟨hread, ?_, ofSource_text_of_canonical (canonical_scaled hcanonical s)⟩
  rw [hread]
  rfl

/-- Two functions with a comment, blank lines, uneven margins and an `elif`. -/
def loose : String :=
  "# loose\ndef f(n, m,) -> '(n*2)+ m':\n  if n>0:\n      f(n-1, -m)\n\n  elif not m <= 0 :\n    g()\n  pass\n"
    ++ "def g():\n\n pass"

/-- The program of that text. -/
def tight : Program :=
  ⟨[⟨"f", ["n", "m"],
      .block
        (.choose (.binary .gt (.var "n") (.int 0))
          (.call "f" [.binary .sub (.var "n") (.int 1), .unary .neg (.var "m")])
          (.choose (.unary .not (.binary .le (.var "m") (.int 0))) (.call "g" []) .pass))
        .pass,
      .binary .add (.binary .mul (.var "n") (.int 2)) (.var "m"), by decide⟩,
    ⟨"g", [], .pass, .int 1, by decide⟩]⟩

theorem text_keeps_program_loose :
    ofSource loose = .ok tight ∧ tight.text ≠ loose ∧ ofSource tight.text = .ok tight
      ∧ (ofSource tight.text).map text = .ok tight.text
      ∧ ofSource (tight.scaled ⟨7⟩).1.text = .ok (tight.scaled ⟨7⟩).1 := by
  have hread : ofSource loose = .ok tight := by decide +kernel
  exact ⟨hread, by decide +kernel, text_keeps_program hread ⟨7⟩⟩

end Program

end CostBound
