import CostBound.Proofs.Layout
import CostBound.Proofs.Lexemes

/-!
# Scanning, line by line

* `Scan.IsLine` — the first line of a text; `Scan.lines_flatMap` says what a change of lines makes of a text.
* `Scan.leading`, `Scan.codeOf` — the margin of a line and what it has apart from margin, comment and end;
  `Scan.leading_blanks_append` and `Scan.codeOf_blanks_append` say that each can be changed without the other.
* `Scan.Scanned` — what scanning a text can give; `Scan.fromLines_eq_ok` says that it is all of it.
* `Scan.Cut.isLayout_eq`, `Scan.Cut.ne_nil` — a line that is not blank has tokens of its own, which are no layout.
-/

namespace CostBound.Scan

open Token (Kind)

/-! ### Lines and the text -/

/-- `IsLine text rest`: the first line of `text ++ rest` is `text`. It ends with a line feed, or it is the last one. -/
inductive IsLine : List Char → List Char → Prop
  | ended (body rest : List Char) (h : '\n' ∉ body) : IsLine (body ++ ['\n']) rest
  | last {body : List Char} (h : '\n' ∉ body) (hne : body ≠ []) : IsLine body []

theorem IsLine.lines_append {text rest : List Char} (h : IsLine text rest) :
    lines (text ++ rest) = text :: lines rest := by
  cases h with
  | ended body rest h =>
      rw [List.append_assoc, List.singleton_append]
      exact Scan.lines_append h rest
  | last h hne =>
      rw [List.append_nil]
      exact lines_of_not_mem h hne

/-- A text is empty or has a first line. -/
theorem eq_nil_or_isLine (cs : List Char) : cs = [] ∨ ∃ text rest, cs = text ++ rest ∧ IsLine text rest := by
  induction cs with
  | nil => exact .inl rfl
  | cons c cs ih =>
      right
      by_cases hc : c = '\n'
      · subst hc
        exact ⟨['\n'], cs, rfl, .ended [] cs List.not_mem_nil⟩
      · have hnew : ∀ {body : List Char}, '\n' ∉ body → '\n' ∉ c :: body := by
          intro body hbody hmem
          rcases List.mem_cons.1 hmem with heq | hmem
          · exact hc heq.symm
          · exact hbody hmem
        rcases ih with rfl | ⟨text, rest, rfl, hline⟩
        · exact ⟨[c], [], rfl, .last (hnew List.not_mem_nil) (List.cons_ne_nil c [])⟩
        · refine ⟨c :: text, rest, rfl, ?_⟩
          cases hline with
          | ended body rest h => exact .ended (c :: body) rest (hnew h)
          | last h hne => exact .last (hnew h) (List.cons_ne_nil c _)

theorem flatten_lines (cs : List Char) : (lines cs).flatten = cs := by
  induction cs with
  | nil => rfl
  | cons c cs ih =>
      rw [lines]
      split
      · rw [List.flatten_cons, ih]
        rfl
      · cases hls : lines cs with
        | nil =>
            rw [hls] at ih
            rw [← ih]
            rfl
        | cons line rest =>
            rw [hls] at ih
            rw [← ih]
            rfl

/-- A change of lines that leaves each of them a line can be seen in the lines of the changed text. -/
theorem lines_flatMap {g : List Char → List Char}
    (hg : ∀ {text rest rest'}, IsLine text rest → (rest = [] → rest' = []) → IsLine (g text) rest') (cs : List Char) :
    lines ((lines cs).flatMap g) = (lines cs).map g := by
  generalize hls : lines cs = ls
  induction ls generalizing cs with
  | nil => rfl
  | cons text ls ih =>
      rcases eq_nil_or_isLine cs with rfl | ⟨text', rest, rfl, hline⟩
      · cases hls
      rw [hline.lines_append] at hls
      cases hls
      have hlast : rest = [] → (lines rest).flatMap g = [] := by
        rintro rfl
        rfl
      rw [List.flatMap_cons, (hg hline hlast).lines_append, ih rest rfl, List.map_cons]

/-! ### Margins -/

/-- The number of blanks before a line. -/
def leading (text : List Char) : Nat := width (content text)

/-- A line without its margin, its comment and its end. -/
def codeOf (text : List Char) : List Char := code ((content text).drop (leading text))

theorem dropLastIf_append_end (c : Char) (cs : List Char) :
    ∃ last, cs = dropLastIf c cs ++ last ∧ (last = [] ∨ last = [c]) := by
  unfold dropLastIf
  by_cases h : cs.getLast? = some c
  · rw [if_pos h]
    obtain ⟨init, rfl⟩ := List.getLast?_eq_some_iff.1 h
    exact ⟨[c], by rw [List.dropLast_concat], .inr rfl⟩
  · rw [if_neg h]
    exact ⟨[], (List.append_nil cs).symm, .inl rfl⟩

theorem blanks_append_drop (cs : List Char) : cs = blanks (width cs) ++ cs.drop (width cs) := by
  have hblanks : cs.takeWhile (· = ' ') = blanks (width cs) := by
    refine List.eq_replicate_iff.2 ⟨rfl, fun c hc => ?_⟩
    simpa using List.all_eq_true.1 List.all_takeWhile c hc
  have htake : cs.take (width cs) = cs.takeWhile (· = ' ') :=
    List.prefix_iff_eq_take.1 (List.takeWhile_prefix _) |>.symm
  rw [← hblanks, ← htake, List.take_append_drop]

theorem head?_drop_width (cs : List Char) : (cs.drop (width cs)).head? ≠ some ' ' := by
  induction cs with
  | nil => decide
  | cons c cs ih =>
      unfold width at ih ⊢
      by_cases hc : c = ' '
      · rw [List.takeWhile_cons_of_pos (by simpa using hc)]
        exact ih
      · rw [List.takeWhile_cons_of_neg (by simpa using hc)]
        simpa using hc

theorem dropLastIf_append_of_ne_nil {c : Char} {rest : List Char} (h : rest ≠ []) (cs : List Char) :
    dropLastIf c (cs ++ rest) = cs ++ dropLastIf c rest := by
  have hlast : (cs ++ rest).getLast? = rest.getLast? := by
    rw [List.getLast?_append, List.getLast?_eq_some_getLast h]
    rfl
  unfold dropLastIf
  rw [hlast, List.dropLast_append_of_ne_nil h]
  split <;> rfl

theorem dropLastIf_blanks_append {c : Char} (hc : c ≠ ' ') (n : Nat) (rest : List Char) :
    dropLastIf c (blanks n ++ rest) = blanks n ++ dropLastIf c rest := by
  by_cases hrest : rest = []
  · subst hrest
    rw [dropLastIf_of_not_mem (not_mem_blanks_append hc List.not_mem_nil)]
    rfl
  · exact dropLastIf_append_of_ne_nil hrest _

theorem content_blanks_append (n : Nat) (rest : List Char) : content (blanks n ++ rest) = blanks n ++ content rest := by
  unfold content
  rw [dropLastIf_blanks_append (by decide), dropLastIf_blanks_append (by decide)]

theorem head?_content {text : List Char} (h : text.head? ≠ some ' ') : (content text).head? ≠ some ' ' := by
  obtain ⟨lf, hlf, -⟩ := dropLastIf_append_end '\n' text
  obtain ⟨cr, hcr, -⟩ := dropLastIf_append_end '\r' (dropLastIf '\n' text)
  have htext : text = content text ++ (cr ++ lf) := by
    rw [← List.append_assoc]
    exact hlf.trans (congrArg (· ++ lf) hcr)
  intro hhead
  refine h ?_
  rw [htext, List.head?_append, hhead]
  rfl

section Line

variable {n : Nat} {rest : List Char}

theorem leading_blanks_append (h : rest.head? ≠ some ' ') : leading (blanks n ++ rest) = n := by
  unfold leading
  rw [content_blanks_append, width_append (head?_content h), width_replicate]

theorem codeOf_blanks_append (h : rest.head? ≠ some ' ') : codeOf (blanks n ++ rest) = code (content rest) := by
  unfold codeOf
  rw [leading_blanks_append h, content_blanks_append]
  exact congrArg code (List.drop_left' List.length_replicate)

end Line

/-! ### What scanning can do -/

/-- The layout tokens before a line at an offset. -/
def placed (offset : Nat) (layout : List Kind) (text : List Char) : List Token :=
  layout.map (⟨·, ⟨offset, leading text⟩⟩)

/-- The end of a line at an offset. -/
def lineEnd (offset : Nat) (text : List Char) : Token := ⟨.newline, ⟨offset + utf8Length text, 0⟩⟩

/-- The tokens after the last line: every open width is closed, and the text ends. -/
def closing (offset : Nat) (opened : List Nat) : List Token :=
  opened.map (fun _ => ⟨.dedent, ⟨offset, 0⟩⟩) ++ [⟨.eof, ⟨offset, 0⟩⟩]

/-- `Scanned offset opened cs ts`: from the offset on, and inside the open widths, the text `cs` is scanned into the
tokens `ts`. -/
inductive Scanned : Nat → List Nat → List Char → List Token → Prop
  | done (offset : Nat) (opened : List Nat) : Scanned offset opened [] (closing offset opened)
  | blank {offset : Nat} {opened : List Nat} {text rest : List Char} {ts : List Token}
      (hl : IsLine text rest) (h : isEmptyLine text = true)
      (hs : Scanned (offset + utf8Length text) opened rest ts) : Scanned offset opened (text ++ rest) ts
  | line {offset : Nat} {opened opened' : List Nat} {text rest : List Char} {layout : List Kind}
      {body ts : List Token} (hl : IsLine text rest) (h : isEmptyLine text = false) (ht : '\t' ∉ content text)
      (hi : indentation opened (leading text) = some (layout, opened'))
      (hb : place (offset + leading text) (Lexeme.all (codeOf text)) = .ok body)
      (hs : Scanned (offset + utf8Length text) opened' rest ts) :
      Scanned offset opened (text ++ rest) (placed offset layout text ++ body ++ lineEnd offset text :: ts)

theorem line_eq_ok {offset : Nat} {opened opened' : List Nat} {text : List Char} {ts : List Token} :
    line offset opened text = .ok (ts, opened') ↔
      '\t' ∉ content text ∧ ∃ layout body, indentation opened (leading text) = some (layout, opened') ∧
        place (offset + leading text) (Lexeme.all (codeOf text)) = .ok body ∧
        ts = placed offset layout text ++ body ++ [lineEnd offset text] := by
  rw [line_eq]
  by_cases ht : '\t' ∈ content text
  · simp [ht]
  · simp only [List.contains_eq_mem, ht, decide_false, Bool.false_eq_true, if_false, not_false_eq_true,
      true_and]
    rw [show width (content text) = leading text from rfl]
    cases hi : indentation opened (leading text) with
    | none => simp
    | some p =>
        obtain ⟨layout, kept⟩ := p
        constructor
        · intro h
          obtain ⟨body, hbody, hts⟩ := except_bind_eq_ok.1 h
          cases hts
          exact ⟨layout, body, rfl, hbody, rfl⟩
        · rintro ⟨layout', body, hlayout, hbody, rfl⟩
          cases hlayout
          exact except_bind_eq_ok.2 ⟨body, hbody, rfl⟩

/-- **What scanning gives.** -/
theorem fromLines_eq_ok {offset : Nat} {opened : List Nat} {cs : List Char} {ts : List Token} :
    fromLines offset opened (lines cs) = .ok ts ↔ Scanned offset opened cs ts := by
  constructor
  · intro h
    -- the lines are taken one by one, and with each the text that they are the lines of
    generalize hls : lines cs = ls at h
    induction ls generalizing offset opened cs ts with
    | nil =>
        rcases eq_nil_or_isLine cs with rfl | ⟨text, rest, rfl, hline⟩
        · rw [fromLines_nil] at h
          cases h
          exact .done offset opened
        · rw [hline.lines_append] at hls
          cases hls
    | cons text ls ih =>
        rcases eq_nil_or_isLine cs with rfl | ⟨text', rest, rfl, hline⟩
        · cases hls
        rw [hline.lines_append] at hls
        cases hls
        rw [fromLines_cons] at h
        by_cases hempty : isEmptyLine text = true
        · rw [if_pos hempty] at h
          exact .blank hline hempty (ih rfl h)
        · rw [if_neg hempty] at h
          obtain ⟨⟨tokens, opened'⟩, htokens, h₁⟩ := except_bind_eq_ok.1 h
          obtain ⟨others, hothers, h₂⟩ := except_bind_eq_ok.1 h₁
          cases h₂
          obtain ⟨ht, layout, body, hi, hb, rfl⟩ := line_eq_ok.1 htokens
          have := Scanned.line hline (Bool.eq_false_iff.2 hempty) ht hi hb (ih rfl hothers)
          rwa [List.append_assoc _ [_] others, List.singleton_append]
  · intro h
    induction h with
    | done offset opened => exact fromLines_nil offset opened
    | blank hl h hs ih => rw [hl.lines_append, fromLines_cons, if_pos h, ih]
    | @line offset opened opened' text rest layout body ts hl h ht hi hb hs ih =>
        have hline := line_eq_ok.2 ⟨ht, layout, body, hi, hb, rfl⟩
        rw [hl.lines_append, fromLines_cons, h, if_neg (by decide)]
        refine except_bind_eq_ok.2 ⟨_, hline, except_bind_eq_ok.2 ⟨ts, ih, ?_⟩⟩
        show Except.ok _ = Except.ok _
        rw [List.append_assoc _ [_] ts, List.singleton_append]

/-! ### The tokens of a line -/

theorem isBlank_of_isGap {c : Char} (h : Lexeme.isGap c = true) : Text.isBlank c = true := by
  simp only [Lexeme.isGap, Bool.or_eq_true, decide_eq_true_eq] at h
  obtain (rfl | rfl) | rfl := h <;> decide

theorem Cut.isLayout_eq {offset : Nat} {cs : List Char} {ts : List Token} (h : Cut offset cs ts) :
    ∀ t ∈ ts, t.kind.isLayout = false := by
  induction h with
  | nil offset => exact List.forall_mem_nil _
  | gap h hs ih => exact ih
  | token h hs ih => exact List.forall_mem_cons.2 ⟨h.isLayout_eq, ih⟩

/-- Where there are no tokens there are only gaps. -/
theorem Cut.ne_nil {offset : Nat} {cs : List Char} {ts : List Token} (h : Cut offset cs ts)
    (hcs : cs.all Text.isBlank = false) : ts ≠ [] := by
  induction h with
  | nil offset => cases hcs
  | gap h hs ih =>
      rw [List.all_cons, isBlank_of_isGap h, Bool.true_and] at hcs
      exact ih hcs
  | token h hs ih => exact List.cons_ne_nil _ _

end CostBound.Scan
