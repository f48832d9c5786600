import Mathlib.Order.Monotone.Basic
import CostBound.Proofs.Unplaced

/-!
# Only the order of widths matters

A text keeps its tokens if its lines are moved to other widths, as long as deeper lines stay deeper and the outermost
ones stay where they are.

* `Scan.reindentLine`, `Token.reindent` — a line, and a text, with other widths.
* `Scan.indentation_map` — the layout tokens before a line follow the order of widths only.
* `Scan.enter_reindentLine`, `Scan.kindsFrom_reindent` — one line, and all lines.
* `Token.scan_reindent` — the tokens of the text, and the program that is read from them.
-/

namespace CostBound

open Token (Kind)
open TokenReader (kinds)

/-- The line with `f k` blanks before it in the place of `k`. -/
def Scan.reindentLine (f : Nat → Nat) (text : List Char) : List Char :=
  blanks (f (width text)) ++ text.drop (width text)

/-- The text with `f k` blanks before each line in the place of `k`. -/
def Token.reindent (f : Nat → Nat) (source : String) : String :=
  String.ofList ((Scan.lines source.toList).flatMap (Scan.reindentLine f))

namespace Scan

/-! ### Widths -/

section

variable {f : Nat → Nat} (hf : StrictMono f) (h0 : f 0 = 0)

include hf h0

/-- **Indentation looks at the order of widths only.** -/
theorem indentation_map (opened : List Nat) (w : Nat) :
    indentation (opened.map f) (f w) = (indentation opened w).map fun r => (r.1, r.2.map f) := by
  have htest : (fun v => decide (f w < v)) ∘ f = fun v => decide (w < v) := by
    funext v
    exact decide_eq_decide.2 hf.lt_iff_lt
  have htop : ∀ kept : List Nat, (kept.map f).headD 0 = f (kept.headD 0) := by
    intro kept
    cases kept with
    | nil => exact h0.symm
    | cons v kept => rfl
  unfold indentation
  simp only [List.takeWhile_map, List.dropWhile_map, htest, htop, hf.injective.eq_iff, List.length_map,
    List.isEmpty_map]
  split
  · rfl
  · split <;> rfl

theorem isLine_reindentLine {text rest rest' : List Char} (h : IsLine text rest) (hrest : rest = [] → rest' = []) :
    IsLine (reindentLine f text) rest' := by
  cases h with
  | ended body rest h =>
      have hwidth : width (body ++ ['\n']) = width body := width_append (by decide)
      unfold reindentLine
      rw [hwidth, drop_width_append, ← List.append_assoc]
      exact .ended _ _ (not_mem_blanks_append (by decide) fun hmem => h (List.mem_of_mem_drop hmem))
  | last h hne =>
      rw [hrest rfl]
      refine .last (not_mem_blanks_append (by decide) fun hmem => h (List.mem_of_mem_drop hmem)) ?_
      -- a line of blanks keeps at least one of them
      intro hnil
      obtain ⟨hblanks, hdrop⟩ := List.append_eq_nil_iff.1 hnil
      have hzero : f (width text) = f 0 := by
        rw [h0]
        exact (List.replicate_eq_nil_iff ' ').1 hblanks
      rw [hf.injective hzero] at hdrop
      exact hne hdrop

/-- **One line.** Moved to its new width, inside the new open widths, it has the tokens that it had. -/
theorem enter_reindentLine (opened : List Nat) (text : List Char) :
    enter (opened.map f) (reindentLine f text) = (enter opened text).map fun r => (r.1, r.2.map f) := by
  have hhead := head?_drop_width text
  have htext := blanks_append_drop text
  have hleading : leading (reindentLine f text) = f (leading text) :=
    calc leading (reindentLine f text) = f (width text) := leading_blanks_append hhead
      _ = f (leading (blanks (width text) ++ text.drop (width text))) := by rw [leading_blanks_append hhead]
      _ = f (leading text) := by rw [← htext]
  have hcode : codeOf (reindentLine f text) = codeOf text :=
    calc codeOf (reindentLine f text) = code (content (text.drop (width text))) := codeOf_blanks_append hhead
      _ = codeOf (blanks (width text) ++ text.drop (width text)) := (codeOf_blanks_append hhead).symm
      _ = codeOf text := by rw [← htext]
  have htab : '\t' ∈ content (reindentLine f text) ↔ '\t' ∈ content text := by
    have hmem : ∀ n, '\t' ∈ content (blanks n ++ text.drop (width text)) ↔ '\t' ∈ content (text.drop (width text)) := by
      intro n
      rw [content_blanks_append, List.mem_append]
      exact or_iff_right fun h => absurd (List.eq_of_mem_replicate h) (by decide)
    rw [reindentLine, hmem, ← hmem (width text), ← htext]
  have hempty : isEmptyLine (reindentLine f text) = isEmptyLine text := congrArg (·.all Text.isBlank) hcode
  unfold enter
  rw [hempty, hleading, hcode, indentation_map hf h0]
  simp only [htab]
  split
  · rfl
  · split
    · rfl
    · cases indentation opened (leading text) with
      | none => rfl
      | some r =>
          dsimp only [Option.map_some]
          cases Lexeme.tokenKinds (Lexeme.all (codeOf text)) <;> rfl

/-- **All lines.** The open widths of the two texts correspond after each line. -/
theorem kindsFrom_reindent (opened : List Nat) (ls : List (List Char)) :
    kindsFrom (opened.map f) (ls.map (reindentLine f)) = kindsFrom opened ls := by
  induction ls generalizing opened with
  | nil => simp only [List.map_nil, kindsFrom, List.length_map]
  | cons text ls ih =>
      rw [List.map_cons, kindsFrom, kindsFrom, enter_reindentLine hf h0]
      cases enter opened text with
      | error fault => rfl
      | ok r =>
          show (kindsFrom (r.2.map f) (ls.map (reindentLine f)) >>= _) = (kindsFrom r.2 ls >>= _)
          rw [ih]

theorem unplaced_scan_reindent (source : String) :
    ScanError.unplaced kinds (Token.scan (Token.reindent f source))
      = ScanError.unplaced kinds (Token.scan source) := by
  rw [Token.unplaced_scan, Token.unplaced_scan, Token.reindent, String.toList_ofList,
    lines_flatMap (isLine_reindentLine hf h0)]
  exact kindsFrom_reindent hf h0 [] _

end

end Scan

/-- **Only the order of widths matters.** Let `f` be strictly increasing and leave zero alone. With `f k` blanks in the
place of `k` before each line, a text has tokens of the same kinds or, if it has none, the same message; so it is the
same program, or cannot be read with the same message. -/
theorem Token.scan_reindent {f : Nat → Nat} (hf : StrictMono f) (h0 : f 0 = 0) (source : String) :
    ((Token.scan (reindent f source)).map kinds).mapError (·.message)
        = ((Token.scan source).map kinds).mapError (·.message)
      ∧ (Program.ofSource (reindent f source)).mapError (·.message)
        = (Program.ofSource source).mapError (·.message) := by
  have hsame := Scan.unplaced_scan_reindent hf h0 source
  refine ⟨?_, Program.ofSource_eq_of_unplaced hsame⟩
  obtain ⟨ts, us, hts, hus, hkinds⟩ | ⟨e, e', he, he', hfault⟩ := outcomes_of_mapError_map_eq hsame
  · rw [hts, hus]
    exact congrArg Except.ok hkinds
  · rw [he, he']
    show Except.error ("lex error: " ++ e.fault.message) = Except.error ("lex error: " ++ e'.fault.message)
    rw [hfault]

/-- A program with blocks of widths `2`, `5` and `3`, and a comment between two of them. -/
def Token.unevenText : String := "def f(n):\n  if n > 0:\n     pass\n # aside\n  else:\n   f(n - 1)\n"

/-- The same program with blocks of widths `4`, `25` and `9`. -/
def Token.squaredText : String :=
  "def f(n):\n    if n > 0:\n                         pass\n # aside\n    else:\n         f(n - 1)\n"

theorem Token.scan_reindent_squares :
    StrictMono (fun k : Nat => k * k) ∧ 0 * 0 = 0 ∧ reindent (fun k => k * k) unevenText = squaredText
      ∧ ((Token.scan squaredText).map kinds).mapError (·.message)
        = ((Token.scan unevenText).map kinds).mapError (·.message)
      ∧ (Program.ofSource squaredText).mapError (·.message) = (Program.ofSource unevenText).mapError (·.message) := by
  have hsquare : StrictMono (fun k : Nat => k * k) := fun _ _ h => Nat.mul_self_lt_mul_self h
  have hmoved : reindent (fun k => k * k) unevenText = squaredText := by decide
  have hsame := scan_reindent hsquare rfl unevenText
  rw [hmoved] at hsame
  exact ⟨hsquare, rfl, hmoved, hsame⟩

end CostBound
