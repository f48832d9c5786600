import CostBound.Proofs.Layout

/-!
# The text of a program, scanned

* `prints_intercalate` — texts with commas between them.
* `Command.stands_text` — the lines of a command, at any depth and before any text that goes back to it.
* `Function.closes_text`, `Program.closes_text` — the lines of functions.
-/

namespace CostBound

open Token (Kind)
open Lexeme (Lexes Prints Inked Opened Breaks)
open Scan (Line Yields Closes Stands blanks)

/-! ### Lines -/

namespace Scan

theorem isInline_of_isInk {c : Char} (h : Lexeme.isInk c = true) : isInline c = true := by
  have hfeed : c ≠ '\n' := Lexeme.ne_of_test h rfl
  have htab : c ≠ '\t' := Lexeme.ne_of_test h rfl
  have hreturn : c ≠ '\r' := Lexeme.ne_of_test h rfl
  have hhash : c ≠ '#' := Lexeme.ne_of_test h rfl
  simp [isInline, hfeed, htab, hreturn, hhash]

/-- A text without line ends, tabs and comments. -/
abbrev Inline (text : String) : Prop := Lexeme.Consists isInline text

theorem toNat_of_opens {c : Char} (h : Lexeme.opens c = true) : 33 ≤ c.toNat ∧ c.toNat ≤ 122 := by
  simp only [Lexeme.opens, Lexeme.isWordStart, Bool.or_eq_true, decide_eq_true_eq, Lexeme.isAlpha_iff,
    Lexeme.isDigit_iff] at h
  obtain (((h | rfl) | h) | rfl) | rfl := h
  · omega
  · decide
  · have hge : 48 ≤ c.toNat := UInt32.le_iff_toNat_le.1 h.1
    have hle : c.toNat ≤ 57 := UInt32.le_iff_toNat_le.1 h.2
    omega
  · decide
  · decide

theorem isBlank_of_opens {c : Char} (h : Lexeme.opens c = true) : Text.isBlank c = false := by
  have := toNat_of_opens h
  simp [Text.isBlank, Text.blankRanges]
  omega

theorem breaks_nil : Breaks [] := by
  intro c hc
  cases hc

/-- A line that begins as an expression does. -/
theorem line_of_lexes {text : String} {ks : List Kind} (h : Lexes text.toList ks)
    (hi : Inline text) (ho : Opened text) : Line text.toList ks where
  lexes := h
  chars := hi
  front := by
    obtain ⟨c, cs, htext, hc⟩ := ho
    exact ⟨c, cs, htext, isBlank_of_opens hc⟩

end Scan

namespace Lexeme

theorem lexes_colon : Lexes [':'] [.colon] := by
  refine lexes_sign rfl rfl (fun d hd => ?_) .nil
  cases hd

theorem prints_intercalate {α : Type} {f : α → String} {g : α → List Kind} {as : List α}
    (h : ∀ a ∈ as, Prints (f a) (g a)) :
    Prints (", ".intercalate (as.map f)) ([.comma].intercalate (as.map g)) := by
  intro rest ks hr hs
  rw [String.toList_intercalate]
  induction as with
  | nil => exact hs
  | cons a as ih =>
      have hrest := ih (fun b hb => h b (List.mem_cons_of_mem a hb))
      cases as with
      | nil => simpa using h a List.mem_cons_self hr hs
      | cons b bs =>
          have hcomma := lexes_sign (c := ',') rfl rfl (fun _ _ => rfl) (lexes_blank hrest)
          have := h a List.mem_cons_self (breaks_cons rfl) hcomma
          simpa [List.intercalate_cons_cons] using this

theorem inked_intercalate {α : Type} {f : α → String} {as : List α} (h : ∀ a ∈ as, Inked (f a)) :
    Inked (", ".intercalate (as.map f)) := by
  intro c hc
  rw [String.toList_intercalate] at hc
  induction as with
  | nil => cases hc
  | cons a as ih =>
      cases as with
      | nil => exact h a List.mem_cons_self c (by simpa using hc)
      | cons b bs =>
          have hsep : Inked ", " := .of_all rfl
          simp only [List.map_cons, List.intercalate_cons_cons, List.mem_append] at hc
          obtain (hc | hc) | hc := hc
          · exact h a List.mem_cons_self c hc
          · exact hsep c hc
          · exact ih (fun d hd => h d (List.mem_cons_of_mem a hd)) hc

theorem Inked.inline {text : String} (h : Inked text) : Scan.Inline text :=
  fun c hc => Scan.isInline_of_isInk (h c hc)

end Lexeme

theorem IsName.opened {x : String} (h : IsName x) : Opened x := Expr.opened_text (Expr.wellNamed_var.2 h)

open Lexeme

/-! ### Commands -/

namespace Command

theorem toList_margin (d : Nat) : (margin d).toList = blanks (4 * d) := String.toList_ofList

theorem line_pass : Line "pass".toList [.kwPass] := by
  refine Scan.line_of_lexes ?_ (.of_all rfl) ⟨'p', _, rfl, rfl⟩
  have := lexes_word (x := "pass") (.of_all rfl rfl rfl) Scan.breaks_nil .nil
  rw [show Kind.ofWord "pass" = .kwPass from rfl] at this
  simpa using this

theorem line_else : Line "else:".toList [.kwElse, .colon] := by
  refine Scan.line_of_lexes ?_ (.of_all rfl) ⟨'e', _, rfl, rfl⟩
  exact lexes_word (x := "else") (.of_all rfl rfl rfl) (breaks_cons rfl) lexes_colon

theorem line_if {test : Expr} (h : test.Printable) :
    Line ("if " ++ test.text ++ ":").toList (.kwIf :: test.kinds ++ [.colon]) := by
  have hif : Inked "if " := .of_all rfl
  have hcolon : Inked ":" := .of_all rfl
  refine Scan.line_of_lexes ?_ (Inked.inline ((hif.append (inked_text h)).append hcolon))
    (Opened.append (Opened.append ⟨'i', _, rfl, rfl⟩ _) _)
  have htest := Expr.prints_text h.wellNamed (breaks_cons rfl) lexes_colon
  have := lexes_word (x := "if") (.of_all rfl rfl rfl) breaks_blank (lexes_blank htest)
  rw [show Kind.ofWord "if" = .kwIf from rfl] at this
  simpa using this

theorem line_call {callee : String} {args : List Expr} (hc : IsName callee) (ha : ∀ e ∈ args, e.Printable) :
    Line (callee ++ "(" ++ ", ".intercalate (args.map Expr.text) ++ ")").toList
      (.ident callee :: .lparen :: [.comma].intercalate (args.map Expr.kinds) ++ [.rparen]) := by
  have hopen : Inked "(" := .of_all rfl
  have hclose : Inked ")" := .of_all rfl
  have hargs : Inked (", ".intercalate (args.map Expr.text)) := inked_intercalate (fun e he => inked_text (ha e he))
  refine Scan.line_of_lexes ?_ (Inked.inline (((hc.inked.append hopen).append hargs).append hclose))
    (((hc.opened.append _).append _).append _)
  have hrest := prints_intercalate (fun e he => Expr.prints_text (ha e he).wellNamed) (breaks_cons rfl)
    (lexes_rparen .nil)
  have := hc.prints (breaks_cons rfl) (lexes_lparen hrest)
  simpa using this

/-- The lines of a command at depth `d`, before a text that goes back to it. -/
theorem stands_text {c : Command} (h : c.Printable) {d : Nat} {rest : List Char} {ks : List Kind}
    (hs : Closes d rest ks) : Stands d ((c.text d).toList ++ rest) (c.kinds ++ ks) := by
  -- the text that follows varies along the induction: it is where inner blocks are closed
  induction c generalizing d rest ks with
  | pass =>
      have := Stands.line line_pass hs.yields
      simpa [text, toList_margin, kinds] using this
  | call callee args =>
      have := Stands.line (line_call h.1 h.2) hs.yields
      simpa [text, toList_margin, kinds] using this
  | block a b iha ihb =>
      have := iha h.1 (ihb h.2 hs).closes
      simpa [text, kinds] using this
  | choose test yes no ihyes ihno =>
      -- what follows the first block, with the alternative if there is one
      have hrest : Closes d
          ((if no = pass then "" else margin d ++ "else:\n" ++ no.text (d + 1)).toList ++ rest)
          ((if no = pass then []
            else .kwElse :: .colon :: .newline :: .indent :: no.kinds ++ [.dedent]) ++ ks) := by
        by_cases hpass : no = pass
        · rw [if_pos hpass, if_pos hpass]
          exact hs
        · rw [if_neg hpass, if_neg hpass]
          have := (Stands.line line_else ((ihno h.2.2 hs.dedent).opens d rfl)).closes
          simpa [toList_margin] using this
      have := Stands.line (line_if h.1) ((ihyes h.2.1 hrest.dedent).opens d rfl)
      simpa [text, toList_margin, kinds] using this

end Command

/-! ### Functions -/

namespace Function

theorem line_def {f : Function} (h : f.Printable) :
    Line ("def " ++ f.name ++ "(" ++ ", ".intercalate f.params ++ ") -> \"" ++ f.bound.text ++ "\":").toList
      (.kwDef :: .ident f.name :: .lparen :: [.comma].intercalate (f.params.map fun x => [.ident x])
        ++ .rparen :: [.arrow, .str f.bound.text, .colon]) := by
  have hparams : Inked (", ".intercalate f.params) := by
    have := inked_intercalate (f := id) (fun x hx => (h.params x hx).inked)
    rw [List.map_id] at this
    exact this
  have hbound := inked_text h.bound
  have hdef : Scan.Inline "def " := .of_all rfl
  have hopen : Scan.Inline "(" := .of_all rfl
  have harrow : Scan.Inline ") -> \"" := .of_all rfl
  have hend : Scan.Inline "\":" := .of_all rfl
  refine Scan.line_of_lexes ?_ ?_ ?_
  · -- from the end of the line to its front
    have hplain : ∀ c ∈ f.bound.text.toList, c ≠ '"' ∧ c ≠ '\\' :=
      fun c hc => ⟨ne_of_test (hbound c hc) rfl, ne_of_test (hbound c hc) rfl⟩
    have hstring := lexes_quoted hplain lexes_colon
    rw [String.ofList_toList] at hstring
    have harrow := lexes_sign₂ (c := '-') (d := '>') rfl rfl (lexes_blank hstring)
    have hclose := lexes_rparen (lexes_blank harrow)
    have hnames := prints_intercalate (f := id) (fun x hx => (h.params x hx).prints) (breaks_cons rfl) hclose
    rw [List.map_id] at hnames
    have hname := h.name.prints (breaks_cons rfl) (lexes_lparen hnames)
    have := lexes_word (x := "def") (.of_all rfl rfl rfl) breaks_blank (lexes_blank hname)
    rw [show Kind.ofWord "def" = .kwDef from rfl] at this
    simpa using this
  · exact (((((hdef.append h.name.inked.inline).append hopen).append hparams.inline).append harrow).append
      hbound.inline).append hend
  · exact (((((Opened.append ⟨'d', _, rfl, rfl⟩ _).append _).append _).append _).append _).append _

theorem closes_text {f : Function} (h : f.Printable) {rest : List Char} {ks : List Kind}
    (hs : Closes 0 rest ks) : Closes 0 (f.text.toList ++ rest) (f.kinds ++ ks) := by
  have hbody := (Command.stands_text h.body hs.dedent).opens 0 rfl
  have := (Stands.line (line_def h) hbody).closes
  simpa [text, kinds, blanks] using this

end Function

theorem Program.closes_text {p : Program} (h : ∀ f ∈ p.functions, f.Printable) :
    Closes 0 p.text.toList (p.functions.flatMap Function.kinds ++ [.eof]) := by
  obtain ⟨fs⟩ := p
  show Closes 0 ("\n".intercalate (fs.map Function.text)).toList _
  rw [String.toList_intercalate]
  induction fs with
  | nil => exact Scan.closes_nil 0
  | cons f fs ih =>
      have hrest := ih (fun g hg => h g (List.mem_cons_of_mem f hg))
      cases fs with
      | nil =>
          have := Function.closes_text (h f List.mem_cons_self) (Scan.closes_nil 0)
          simpa using this
      | cons g gs =>
          have := Function.closes_text (h f List.mem_cons_self) hrest.blank
          simpa [List.intercalate_cons_cons] using this

end CostBound
