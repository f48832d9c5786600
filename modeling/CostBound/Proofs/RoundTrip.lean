import CostBound.Proofs.Printing
import CostBound.Proofs.Typing
import CostBound.Proofs.ReadingSpelled

/-!
# Reading back what was printed

The text of an expression or a program is read as its normal form.

* `Expr.ofSource_text`, `Expr.ofBoundText_text` — expressions and bounds.
* `Program.ofSource_text` — programs.
-/

namespace CostBound

theorem TokenReader.runOn_eq_ok {α : Type} {reader : TokenReader α} {source : String} {a : α} :
    reader.runOn source = .ok a ↔ ∃ ts rest, Token.scan source = .ok ts ∧ reader ts = .ok (a, rest) := by
  unfold TokenReader.runOn
  rw [except_bind_eq_ok]
  constructor
  · intro h
    obtain ⟨ts, hts, h⟩ := h
    obtain ⟨⟨b, rest⟩, hread, h⟩ := except_bind_eq_ok.1 h
    cases h
    exact ⟨ts, rest, mapError_eq_ok.1 hts, mapError_eq_ok.1 hread⟩
  · intro h
    obtain ⟨ts, rest, hts, hread⟩ := h
    exact ⟨ts, mapError_eq_ok.2 hts, except_bind_eq_ok.2 ⟨(a, rest), mapError_eq_ok.2 hread, rfl⟩⟩

/-! ### Expressions -/

namespace Expr

theorem lexes_text {e : Expr} (h : e.WellNamed) : Lexeme.Lexes e.text.toList e.kinds := by
  have hlexes := prints_text h Scan.breaks_nil .nil
  rw [List.append_nil, List.append_nil] at hlexes
  exact hlexes

open Lexeme Scan in
/-- An expression alone on the only line of a text. -/
theorem scan_text {e : Expr} (h : e.Printable) :
    ∃ ts, Token.scan e.text = .ok ts ∧ TokenReader.kinds ts = e.kinds ++ [.newline, .eof] := by
  have hline := line_of_lexes (lexes_text h.wellNamed) (inked_text h).inline (opened_text h.wellNamed)
  have hlines : lines e.text.toList = [e.text.toList] := by
    obtain ⟨c, cs, hfront, -⟩ := hline.front
    exact lines_of_not_mem (hline.not_mem rfl) (by rw [hfront]; exact List.cons_ne_nil c cs)
  have hcontent : content e.text.toList = blanks 0 ++ e.text.toList := hline.content_eq (n := 0)
  obtain ⟨ts, hts, hks⟩ := hline.scan hcontent (indentation_margins (Nat.le_refl 0)) 0
  refine ⟨ts ++ [⟨.eof, ⟨0 + utf8Length e.text.toList, 0⟩⟩], ?_, by simp [hks]⟩
  show fromLines 0 (margins 0) (lines e.text.toList) = _
  rw [hlines, fromLines_cons, hline.isEmptyLine_eq hcontent]
  refine except_bind_eq_ok.2 ⟨_, hts, ?_⟩
  rw [fromLines_nil]
  rfl

theorem ofSource_text {e : Expr} (h : e.Printable) : Expr.ofSource e.text = .ok e.normal := by
  obtain ⟨ts, hts, hks⟩ := scan_text h
  obtain ⟨used, tail, rfl, hused, htail⟩ := List.map_eq_append_iff.1 hks
  obtain ⟨t, tail, rfl, ht, htail⟩ := List.map_eq_cons_iff.1 htail
  obtain ⟨u, rfl, hu⟩ := List.map_eq_singleton_iff.1 htail
  have hspelled : Spelled 0 (TokenReader.kinds used) e.normal := by
    rw [TokenReader.kinds, hused]
    exact (spelled_kinds h).mono (Nat.zero_le _)
  have hgap : TokenReader.Gap [t] := by
    intro t' ht'
    rw [List.mem_singleton.1 ht']
    exact ht
  have hread : TokenReader.exprToEnd (used ++ [t, u]) = .ok (e.normal, [u]) :=
    TokenReader.exprToEnd_eq_ok.2 ⟨used, [t], by simp, hspelled, hgap, congrArg some hu⟩
  exact TokenReader.runOn_eq_ok.2 ⟨_, _, hts, hread⟩

theorem ofBoundText_text {e : Expr} (h : e.Printable) : ofBoundText e.text = e.normal := by
  unfold ofBoundText
  rw [ofSource_text h]

end Expr

/-! ### Programs -/

namespace Program

/-- Every function in normal form. -/
def normal (p : Program) : Program := ⟨p.functions.map Function.normal⟩

theorem definitions_kinds {fs : List Function} (h : ∀ f ∈ fs, f.Printable) :
    Definitions (fs.flatMap Function.kinds) (fs.map Function.normal) := by
  induction fs with
  | nil => exact .nil
  | cons f fs ih =>
      have hf := h f List.mem_cons_self
      exact .cons (Function.spelled_kinds hf (Expr.ofBoundText_text hf.bound))
        (ih (fun g hg => h g (List.mem_cons_of_mem f hg)))

theorem ofSource_text {p : Program} (h : ∀ f ∈ p.functions, f.Printable) :
    Program.ofSource p.text = .ok p.normal := by
  obtain ⟨ts, hts, hks⟩ := (closes_text h).yields 0
  obtain ⟨used, tail, rfl, hused, htail⟩ := List.map_eq_append_iff.1 hks
  obtain ⟨t, rfl, ht⟩ := List.map_eq_singleton_iff.1 htail
  have hspelled : Definitions (TokenReader.kinds used) p.normal.functions := by
    rw [TokenReader.kinds, hused]
    exact definitions_kinds h
  have hread : TokenReader.program (used ++ [t]) = .ok (p.normal, [t]) :=
    TokenReader.program_eq_ok.2 ⟨used, rfl, hspelled, congrArg some ht⟩
  exact TokenReader.runOn_eq_ok.2 ⟨_, [t], hts, hread⟩

end Program

end CostBound
