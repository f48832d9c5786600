import CostBound.Proofs.Lexing

/-!
# Lines and their indentation

* `Line` — a line without its margin: its tokens, its characters and how it begins.
* `indentation_margins`, `indentation_deeper` — the layout tokens before a line, when the open widths are those of
  the depths `1` to `d`.
* `Yields` — scanning a text at a depth gives tokens of given kinds.
* `Closes`, `Stands` — the same for a text that goes back to a depth, and for one that begins at it.
* `Stands.line` — a line before such a text.
-/

namespace CostBound.Scan

open Token (Kind)
open Lexeme (Lexes)

/-! ### Lines -/

/-- What a line may not have outside of its end. -/
def isInline (c : Char) : Bool := c ≠ '\n' && c ≠ '\t' && c ≠ '\r' && c ≠ '#'

/-- A line without its margin and its end: the tokens it has, no comment, and something to see at its front. -/
structure Line (body : List Char) (ks : List Kind) : Prop where
  lexes : Lexes body ks
  chars : ∀ c ∈ body, isInline c = true
  front : ∃ c cs, body = c :: cs ∧ Text.isBlank c = false

theorem lines_append {l : List Char} (h : '\n' ∉ l) (cs : List Char) :
    lines (l ++ '\n' :: cs) = (l ++ ['\n']) :: lines cs := by
  induction l with
  | nil => simp [lines]
  | cons c l ih =>
      have hc : c ≠ '\n' := fun heq => h (heq ▸ List.mem_cons_self)
      rw [List.cons_append, lines, if_neg hc, ih (fun hmem => h (List.mem_cons_of_mem c hmem))]
      rfl

theorem lines_of_not_mem {l : List Char} (h : '\n' ∉ l) (hne : l ≠ []) : lines l = [l] := by
  induction l with
  | nil => exact absurd rfl hne
  | cons c l ih =>
      have hc : c ≠ '\n' := fun heq => h (heq ▸ List.mem_cons_self)
      rw [lines, if_neg hc]
      cases l with
      | nil => rfl
      | cons d l => rw [ih (fun hmem => h (List.mem_cons_of_mem c hmem)) (List.cons_ne_nil d l)]

theorem dropLastIf_of_not_mem {c : Char} {cs : List Char} (h : c ∉ cs) : dropLastIf c cs = cs := by
  unfold dropLastIf
  rw [if_neg (fun hlast => h (List.mem_of_getLast? hlast))]

theorem dropLastIf_append (c : Char) (cs : List Char) : dropLastIf c (cs ++ [c]) = cs := by
  simp [dropLastIf]

theorem codeIn_of_not_mem {quote : Option Char} {cs : List Char} (h : '#' ∉ cs) : codeIn quote cs = cs := by
  fun_induction codeIn quote cs with
  | case1 => rfl
  | case2 cs => exact absurd List.mem_cons_self h
  | case3 c cs hc ih => rw [ih (fun hmem => h (List.mem_cons_of_mem c hmem))]
  | case4 quote c cs ih =>
      rw [ih (fun hmem => h (List.mem_cons_of_mem _ (List.mem_cons_of_mem c hmem)))]
  | case5 quote c cs hne ih => rw [ih (fun hmem => h (List.mem_cons_of_mem c hmem))]

/-- The margin of a line, and the line itself. -/
def blanks (n : Nat) : List Char := List.replicate n ' '

theorem not_mem_blanks_append {c : Char} {n : Nat} {body : List Char} (hc : c ≠ ' ') (h : c ∉ body) :
    c ∉ blanks n ++ body := by
  rw [List.mem_append]
  intro hmem
  obtain hmem | hmem := hmem
  · exact hc (List.eq_of_mem_replicate hmem)
  · exact h hmem

theorem width_replicate (n : Nat) : width (blanks n) = n := by
  unfold width blanks
  rw [List.takeWhile_replicate, if_pos (decide_eq_true rfl), List.length_replicate]

/-- What does not begin with a blank leaves the margin before it as it is. -/
theorem width_append {cs rest : List Char} (h : rest.head? ≠ some ' ') : width (cs ++ rest) = width cs := by
  have hstop : ∀ c ∈ rest.head?, decide (c = ' ') = false := fun c hc =>
    decide_eq_false fun heq => h (heq ▸ hc)
  exact congrArg List.length (Lexeme.takeWhile_append_of_stop hstop cs)

theorem width_blanks {n : Nat} {c : Char} {cs : List Char} (hc : c ≠ ' ') : width (blanks n ++ c :: cs) = n := by
  rw [width_append (by simpa using hc), width_replicate]

theorem width_le_length (cs : List Char) : width cs ≤ cs.length := (List.takeWhile_sublist _).length_le

theorem drop_width_append (cs rest : List Char) : (cs ++ rest).drop (width cs) = cs.drop (width cs) ++ rest :=
  List.drop_append_of_le_length (width_le_length cs)

section Line

variable {body : List Char} {ks : List Kind} {n : Nat}

theorem Line.not_mem {c : Char} (h : Line body ks) (hc : isInline c = false) : c ∉ body := by
  intro hmem
  rw [h.chars c hmem] at hc
  cases hc

theorem Line.content_newline (h : Line body ks) :
    content (blanks n ++ body ++ ['\n']) = blanks n ++ body := by
  unfold content
  rw [dropLastIf_append, dropLastIf_of_not_mem (not_mem_blanks_append (by decide) (h.not_mem rfl))]

theorem Line.content_eq (h : Line body ks) : content (blanks n ++ body) = blanks n ++ body := by
  unfold content
  rw [dropLastIf_of_not_mem (not_mem_blanks_append (by decide) (h.not_mem rfl)),
    dropLastIf_of_not_mem (not_mem_blanks_append (by decide) (h.not_mem rfl))]

theorem Line.width_eq (h : Line body ks) : width (blanks n ++ body) = n := by
  obtain ⟨c, cs, rfl, hc⟩ := h.front
  refine width_blanks (fun heq => ?_)
  rw [heq] at hc
  cases hc

theorem Line.code_eq (h : Line body ks) : code ((blanks n ++ body).drop n) = body := by
  have hdrop : (blanks n ++ body).drop n = body := List.drop_left' List.length_replicate
  rw [hdrop]
  exact codeIn_of_not_mem (h.not_mem rfl)

theorem Line.isEmptyLine_eq {text : List Char} (h : Line body ks) (ht : content text = blanks n ++ body) :
    isEmptyLine text = false := by
  unfold isEmptyLine
  simp only [ht, h.width_eq, h.code_eq]
  obtain ⟨c, cs, rfl, hc⟩ := h.front
  simp [hc]

/-- A line is scanned into the layout before it, its own tokens and its end. -/
theorem Line.scan {text : List Char} {opened opened' : List Nat} {layout : List Kind} (h : Line body ks)
    (ht : content text = blanks n ++ body) (hi : indentation opened n = some (layout, opened'))
    (offset : Nat) :
    ∃ ts, line offset opened text = .ok (ts, opened') ∧ TokenReader.kinds ts = layout ++ ks ++ [.newline] := by
  have htab : (blanks n ++ body).contains '\t' = false := by
    rw [List.contains_eq_mem, decide_eq_false_iff_not]
    exact not_mem_blanks_append (by decide) (h.not_mem rfl)
  obtain ⟨ts, hts, hks⟩ := h.lexes.place (Nat.le_refl _) (offset + n)
  refine ⟨layout.map (⟨·, ⟨offset, n⟩⟩) ++ ts ++ [⟨.newline, ⟨offset + utf8Length text, 0⟩⟩], ?_, ?_⟩
  · rw [line_eq]
    simp only [ht, htab, h.width_eq, hi, h.code_eq]
    exact except_bind_eq_ok.2 ⟨ts, hts, rfl⟩
  · simp [hks]

end Line

/-! ### Indentation -/

/-- The open widths at a depth. -/
def margins : Nat → List Nat
  | 0 => []
  | d + 1 => 4 * (d + 1) :: margins d

theorem headD_margins (d : Nat) : (margins d).headD 0 = 4 * d := by
  cases d <;> rfl

theorem takeWhile_margins {d w : Nat} (h : w ≤ d) :
    ((margins d).takeWhile (4 * w < ·)).length = d - w ∧ (margins d).dropWhile (4 * w < ·) = margins w := by
  induction d with
  | zero =>
      obtain rfl : w = 0 := by omega
      exact ⟨rfl, rfl⟩
  | succ d ih =>
      rw [show margins (d + 1) = 4 * (d + 1) :: margins d from rfl]
      by_cases hw : w = d + 1
      · subst hw
        simp [margins]
      · have hlt : 4 * w < 4 * (d + 1) := by omega
        obtain ⟨htake, hdrop⟩ := ih (by omega)
        rw [List.takeWhile_cons_of_pos (by simpa using hlt), List.dropWhile_cons_of_pos (by simpa using hlt),
          List.length_cons, htake]
        exact ⟨by omega, hdrop⟩

theorem indentation_margins {d w : Nat} (h : w ≤ d) :
    indentation (margins d) (4 * w) = some (List.replicate (d - w) .dedent, margins w) := by
  obtain ⟨htake, hdrop⟩ := takeWhile_margins h
  unfold indentation
  simp only [hdrop, headD_margins, htake, if_true]

theorem indentation_deeper (d : Nat) :
    indentation (margins d) (4 * (d + 1)) = some ([.indent], margins (d + 1)) := by
  have htake : (margins d).takeWhile (4 * (d + 1) < ·) = [] ∧
      (margins d).dropWhile (4 * (d + 1) < ·) = margins d := by
    cases d with
    | zero => exact ⟨rfl, rfl⟩
    | succ d =>
        unfold margins
        rw [List.takeWhile_cons_of_neg (by simp), List.dropWhile_cons_of_neg (by simp)]
        exact ⟨rfl, rfl⟩
  unfold indentation
  simp only [htake.1, htake.2, headD_margins]
  rw [if_neg (by omega)]
  rfl

/-! ### Texts -/

/-- At depth `d`, a text is scanned into tokens of the kinds `ks`. -/
def Yields (d : Nat) (cs : List Char) (ks : List Kind) : Prop :=
  ∀ offset, ∃ ts, fromLines offset (margins d) (lines cs) = .ok ts ∧ TokenReader.kinds ts = ks

theorem yields_nil (d : Nat) : Yields d [] (List.replicate d .dedent ++ [.eof]) := by
  intro offset
  have hlength : (margins d).length = d := by
    induction d with
    | zero => rfl
    | succ d ih => rw [margins, List.length_cons, ih]
  refine ⟨_, rfl, ?_⟩
  rw [TokenReader.kinds_append, TokenReader.kinds, List.map_map]
  show List.map (fun _ => Kind.dedent) (margins d) ++ [.eof] = _
  rw [List.map_const', hlength]

theorem Yields.blank {d : Nat} {cs : List Char} {ks : List Kind} (h : Yields d cs ks) :
    Yields d ('\n' :: cs) ks := by
  intro offset
  obtain ⟨ts, hts, hks⟩ := h (offset + utf8Length ['\n'])
  have hempty : isEmptyLine ['\n'] = true := rfl
  refine ⟨ts, ?_, hks⟩
  rw [lines, if_pos rfl, fromLines_cons, if_pos hempty]
  exact hts

theorem Yields.line {d d' n : Nat} {body cs : List Char} {bs ks layout : List Kind} (h : Yields d' cs ks)
    (hb : Line body bs) (hi : indentation (margins d) n = some (layout, margins d')) :
    Yields d (blanks n ++ body ++ '\n' :: cs) (layout ++ bs ++ .newline :: ks) := by
  intro offset
  have hlines : lines (blanks n ++ body ++ '\n' :: cs) = (blanks n ++ body ++ ['\n']) :: lines cs :=
    lines_append (not_mem_blanks_append (by decide) (hb.not_mem rfl)) cs
  obtain ⟨ts, hts, hbs⟩ := hb.scan hb.content_newline hi offset
  obtain ⟨us, hus, hks⟩ := h (offset + utf8Length (blanks n ++ body ++ ['\n']))
  refine ⟨ts ++ us, ?_, by simp [hbs, hks]⟩
  rw [hlines, fromLines_cons, hb.isEmptyLine_eq hb.content_newline]
  exact except_bind_eq_ok.2 ⟨_, hts, except_bind_eq_ok.2 ⟨us, hus, rfl⟩⟩

/-- A text that goes back to depth `d`: whatever is open beyond it is closed first. -/
def Closes (d : Nat) (cs : List Char) (ks : List Kind) : Prop :=
  ∀ j, Yields (d + j) cs (List.replicate j .dedent ++ ks)

/-- A text whose first line stands at depth `d`, which it may open. -/
structure Stands (d : Nat) (cs : List Char) (ks : List Kind) : Prop where
  closes : Closes d cs ks
  opens : ∀ d', d = d' + 1 → Yields d' cs (.indent :: ks)

theorem Closes.yields {d : Nat} {cs : List Char} {ks : List Kind} (h : Closes d cs ks) : Yields d cs ks := h 0

theorem Closes.dedent {d : Nat} {cs : List Char} {ks : List Kind} (h : Closes d cs ks) :
    Closes (d + 1) cs (.dedent :: ks) := by
  intro j
  have := h (j + 1)
  rw [List.replicate_succ', List.append_assoc] at this
  rw [Nat.add_right_comm]
  exact this

theorem closes_nil (d : Nat) : Closes d [] (List.replicate d .dedent ++ [.eof]) := by
  intro j
  rw [← List.append_assoc, List.replicate_append_replicate, Nat.add_comm j d]
  exact yields_nil (d + j)

theorem Closes.blank {d : Nat} {cs : List Char} {ks : List Kind} (h : Closes d cs ks) :
    Closes d ('\n' :: cs) ks := fun j => (h j).blank

theorem Stands.line {d : Nat} {body cs : List Char} {bs ks : List Kind} (hb : Line body bs)
    (h : Yields d cs ks) : Stands d (blanks (4 * d) ++ body ++ '\n' :: cs) (bs ++ .newline :: ks) where
  closes := by
    intro j
    have := h.line hb (indentation_margins (d := d + j) (Nat.le_add_right d j))
    rw [Nat.add_sub_cancel_left] at this
    rw [← List.append_assoc (List.replicate j _)]
    exact this
  opens := by
    intro d' hd
    subst hd
    exact h.line hb (indentation_deeper d')

end CostBound.Scan
