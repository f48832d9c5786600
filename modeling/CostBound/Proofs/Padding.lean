import CostBound.Proofs.Comments
import CostBound.Proofs.RoundTrip

/-!
# Blanks around a bound

The text of a bound is scanned like a program, where blanks at the front of a line are a margin. So blanks after a bound
do not matter, and blanks before it do.

* `Expr.ofSource_eq_ok` — an expression is read from the tokens that its text has, line ends apart.
* `Scan.kindsFrom_append_blanks` — blanks at the end of a text change no token.
* `Scan.kindsFrom_blanks_append`, `Scan.exists_indent_of_kindsFrom` — blanks before a blank first line change none;
  before any other line they are an `indent`, which no expression begins with.
* `Expr.ofBoundText_padded` — the bound of a text with blanks around it.
-/

namespace CostBound

open Token (Kind)
open TokenReader (kinds)

/-! ### Expressions that are all of a text -/

open TokenReader in
/-- **Expressions from text.** -/
theorem Expr.ofSource_eq_ok {source : String} {e : Expr} :
    ofSource source = .ok e ↔ ∃ ks n rest, Spelled 0 ks e
      ∧ Scan.kindsFrom [] (Scan.lines source.toList) = .ok (ks ++ List.replicate n .newline ++ .eof :: rest) := by
  rw [← Token.unplaced_scan]
  constructor
  · intro h
    obtain ⟨_, _, hts, hread⟩ := runOn_eq_ok.1 h
    obtain ⟨used, gap, rfl, hspelled, hgap, hfront⟩ := exprToEnd_eq_ok.1 hread
    obtain ⟨eof, rest, rfl, heof⟩ := frontKind_eq_some.1 hfront
    refine ⟨TokenReader.kinds used, gap.length, TokenReader.kinds rest, hspelled, ?_⟩
    refine ScanError.unplaced_eq_ok.2 ⟨_, hts, ?_⟩
    rw [kinds_append, kinds_append, hgap.kinds_eq, kinds_cons, heof]
  · rintro ⟨ks, n, rest, hspelled, hks⟩
    obtain ⟨ts, hts, hkinds⟩ := ScanError.unplaced_eq_ok.1 hks
    obtain ⟨front, back, rfl, hfront, hback⟩ := List.map_eq_append_iff.1 hkinds
    obtain ⟨used, gap, rfl, rfl, hgap⟩ := List.map_eq_append_iff.1 hfront
    obtain ⟨eof, rest, rfl, heof, -⟩ := List.map_eq_cons_iff.1 hback
    have hfront : frontKind (eof :: rest) = some .eof := congrArg some heof
    have hread := exprToEnd_eq_ok.2 ⟨used, gap, rfl, hspelled, gap_of_kinds hgap, hfront⟩
    exact runOn_eq_ok.2 ⟨_, _, hts, hread⟩

namespace Scan

/-! ### Blanks after a text -/

section Gaps

variable {gs : List Char} (hgs : ∀ g ∈ gs, Lexeme.isGap g = true)

include hgs

theorem codeIn_gaps (quote : Option Char) : codeIn quote gs = gs := by
  induction gs generalizing quote with
  | nil => rw [codeIn]
  | cons g gs ih =>
      have hg := hgs g List.mem_cons_self
      have ih := ih fun g' hg' => hgs g' (List.mem_cons_of_mem g hg')
      cases quote with
      | none =>
          have hnote : g ≠ '#' := Lexeme.ne_of_test hg rfl
          rw [codeIn, if_neg hnote, ih]
      | some quote =>
          have hguard : g ≠ '\\' := Lexeme.ne_of_test hg rfl
          rw [codeIn.eq_4 _ _ _ fun _ _ hc _ => hguard hc, ih]

/-- Gaps after a line belong to its comment, or to its code. -/
theorem codeIn_append_gaps (quote : Option Char) (cs : List Char) :
    codeIn quote (cs ++ gs) = codeIn quote cs ∨ codeIn quote (cs ++ gs) = codeIn quote cs ++ gs := by
  fun_induction codeIn quote cs with
  | case1 => exact .inr (codeIn_gaps hgs _)
  | case2 cs => exact .inl (by rw [List.cons_append, codeIn, if_pos rfl])
  | case3 c cs hc ih =>
      rw [List.cons_append, codeIn, if_neg hc]
      exact ih.imp (congrArg (c :: ·)) (congrArg (c :: ·))
  | case4 quote c cs ih =>
      rw [List.cons_append, List.cons_append, codeIn]
      exact ih.imp (congrArg ('\\' :: c :: ·)) (congrArg ('\\' :: c :: ·))
  | case5 quote c cs hne ih =>
      by_cases hc : c = '\\'
      · -- a backslash at the end guards the first gap
        subst hc
        obtain _ | ⟨d, cs⟩ := cs
        · right
          cases gs with
          | nil => rfl
          | cons g gs =>
              show '\\' :: g :: codeIn (some quote) gs = _
              rw [codeIn_gaps fun g' hg' => hgs g' (List.mem_cons_of_mem g hg')]
              rfl
        · exact absurd rfl (hne d cs rfl)
      · rw [List.cons_append, codeIn.eq_4 _ _ _ fun _ _ heq _ => hc heq]
        exact ih.imp (congrArg (c :: ·)) (congrArg (c :: ·))

omit hgs in
/-- A margin with something after it stays as it is. -/
theorem width_append_of_drop_ne_nil {cs : List Char} (h : cs.drop (width cs) ≠ []) (rest : List Char) :
    width (cs ++ rest) = width cs := by
  have hcs := blanks_append_drop cs
  have hhead := head?_drop_width cs
  cases hdrop : cs.drop (width cs) with
  | nil => exact absurd hdrop h
  | cons c ds =>
      rw [hdrop] at hcs hhead
      have hc : c ≠ ' ' := by simpa using hhead
      have hwidth : width (blanks (width cs) ++ c :: (ds ++ rest)) = width cs := width_blanks hc
      rw [← List.cons_append, ← List.append_assoc, ← hcs] at hwidth
      exact hwidth

variable {text text' : List Char} (h : content text' = content text ++ gs)

include h

theorem exists_codeOf_append : ∃ more, codeOf text' = codeOf text ++ more ∧ ∀ g ∈ more, Lexeme.isGap g = true := by
  by_cases hdrop : (content text).drop (leading text) = []
  · -- the line is a margin, and the margin of the new line may be longer
    have hcode : codeOf text = [] := by
      unfold codeOf
      rw [hdrop]
      rfl
    refine ⟨codeOf text', by rw [hcode, List.nil_append], fun g hg => ?_⟩
    obtain ⟨comment, hcomment, -⟩ := codeIn_append none ((content text').drop (leading text'))
    have hmem : g ∈ content text' := List.mem_of_mem_drop (hcomment ▸ List.mem_append_left comment hg)
    rw [h, blanks_append_drop (content text), List.append_assoc, List.mem_append] at hmem
    obtain hblank | hmem := hmem
    · rw [List.eq_of_mem_replicate hblank]
      rfl
    · rw [show (content text).drop (width (content text)) = [] from hdrop, List.nil_append] at hmem
      exact hgs g hmem
  · have hcode : codeOf text' = code ((content text).drop (leading text) ++ gs) := by
      unfold codeOf leading
      rw [h, width_append_of_drop_ne_nil hdrop, drop_width_append]
    rw [hcode]
    obtain hsame | hmore := codeIn_append_gaps hgs none ((content text).drop (leading text))
    · exact ⟨[], hsame.trans (List.append_nil _).symm, List.forall_mem_nil _⟩
    · exact ⟨gs, hmore, hgs⟩

/-- **One line.** Gaps after it change neither its tokens nor whether it has any. -/
theorem enter_append_gaps {opened : List Nat} {r : List Kind × List Nat} :
    enter opened text' = .ok r ↔ enter opened text = .ok r := by
  obtain ⟨more, hcode, hmore⟩ := exists_codeOf_append hgs h
  have hempty : isEmptyLine text' = isEmptyLine text := by
    have hblank : more.all Text.isBlank = true := List.all_eq_true.2 fun g hg => isBlank_of_isGap (hmore g hg)
    show (codeOf text').all Text.isBlank = (codeOf text).all Text.isBlank
    rw [hcode, List.all_append, hblank, Bool.and_true]
  have htab : '\t' ∈ content text' ↔ '\t' ∈ content text := by
    rw [h, List.mem_append]
    exact or_iff_left fun hmem => absurd (hgs _ hmem) (by decide)
  rw [enter_eq_ok, enter_eq_ok, hempty, hcode]
  simp only [htab, Lexeme.lexes_append_gaps hmore]
  cases hline : isEmptyLine text with
  | true => simp
  | false =>
      have hdrop : (content text).drop (leading text) ≠ [] := by
        intro hnil
        change (code ((content text).drop (leading text))).all Text.isBlank = false at hline
        rw [hnil] at hline
        cases hline
      have hleading : leading text' = leading text := by
        unfold leading
        rw [h, width_append_of_drop_ne_nil hdrop]
      rw [hleading]

end Gaps

theorem not_mem_blanks {c : Char} (hc : c ≠ ' ') (n : Nat) : c ∉ blanks n :=
  fun hmem => hc (List.eq_of_mem_replicate hmem)

theorem not_mem_append_blanks {c : Char} {body : List Char} (hc : c ≠ ' ') (h : c ∉ body) (n : Nat) :
    c ∉ body ++ blanks n := by
  rw [List.mem_append]
  exact not_or.2 ⟨h, not_mem_blanks hc n⟩

/-- A carriage return at the end of a line is part of it if blanks follow. -/
theorem exists_content_append {body : List Char} (hbody : '\n' ∉ body) (k : Nat) :
    ∃ gs, content (body ++ blanks k) = content body ++ gs ∧ ∀ g ∈ gs, Lexeme.isGap g = true := by
  cases k with
  | zero => exact ⟨[], by simp [blanks], List.forall_mem_nil _⟩
  | succ k =>
      obtain ⟨cr, hcr, hcases⟩ := dropLastIf_append_end '\r' body
      have hfeed : '\n' ∉ body ++ blanks (k + 1) := not_mem_append_blanks (by decide) hbody _
      refine ⟨cr ++ blanks (k + 1), ?_, fun g hg => ?_⟩
      · unfold content
        rw [dropLastIf_of_not_mem hfeed, dropLastIf_of_not_mem hbody, dropLastIf_append_of_ne_nil (by simp [blanks]),
          dropLastIf_of_not_mem (not_mem_blanks (by decide) _), ← List.append_assoc, ← hcr]
      · obtain hg | hg := List.mem_append.1 hg
        · obtain rfl | rfl := hcases
          · cases hg
          · rw [List.mem_singleton.1 hg]
            rfl
        · rw [List.eq_of_mem_replicate hg]
          rfl

theorem kindsFrom_cons_of_blank {text : List Char} (h : isEmptyLine text = true) (opened : List Nat)
    (ls : List (List Char)) {ks : List Kind} :
    kindsFrom opened (text :: ls) = .ok ks ↔ kindsFrom opened ls = .ok ks := by
  rw [kindsFrom_cons_eq_ok]
  constructor
  · rintro ⟨r, ks', hr, hks', rfl⟩
    rw [enter, if_pos h] at hr
    cases hr
    exact hks'
  · intro hks
    exact ⟨_, ks, enter_eq_ok.2 (.inl ⟨h, rfl⟩), hks, rfl⟩

/-- Lines that are scanned alike are so with the same lines before them. -/
theorem kindsFrom_append_congr (above : List (List Char)) {ls ls' : List (List Char)}
    (h : ∀ opened ks, kindsFrom opened ls = .ok ks ↔ kindsFrom opened ls' = .ok ks) (opened : List Nat)
    (ks : List Kind) : kindsFrom opened (above ++ ls) = .ok ks ↔ kindsFrom opened (above ++ ls') = .ok ks := by
  induction above generalizing opened ks with
  | nil => exact h opened ks
  | cons text above ih => simp only [List.cons_append, kindsFrom_cons_eq_ok, ih]

/-- A line of blanks, at the end of a text. -/
theorem kindsFrom_blanks (k : Nat) (opened : List Nat) {ks : List Kind} :
    kindsFrom opened (lines (blanks k)) = .ok ks ↔ kindsFrom opened [] = .ok ks := by
  cases k with
  | zero => exact Iff.rfl
  | succ k =>
      have hempty : isEmptyLine (blanks (k + 1)) = true := by
        have hends := Ends.last.isEmptyLine_eq (k + 1) (.inl rfl) List.not_mem_nil
        rwa [List.append_nil, List.append_nil] at hends
      rw [lines_of_not_mem (not_mem_blanks (by decide) _) (by simp [blanks])]
      exact kindsFrom_cons_of_blank hempty opened []

/-- **Blanks after a text.** -/
theorem kindsFrom_append_blanks (cs : List Char) (k : Nat) (opened : List Nat) (ks : List Kind) :
    kindsFrom opened (lines (cs ++ blanks k)) = .ok ks ↔ kindsFrom opened (lines cs) = .ok ks := by
  obtain ⟨above, body, rfl, habove, hbody⟩ := exists_whole_append cs
  rw [List.append_assoc, lines_append_of_whole habove, lines_append_of_whole habove]
  refine kindsFrom_append_congr _ (fun opened ks => ?_) opened ks
  by_cases hnil : body = []
  · subst hnil
    exact kindsFrom_blanks k opened
  · obtain ⟨gs, hcontent, hgs⟩ := exists_content_append hbody k
    have hfeed : '\n' ∉ body ++ blanks k := not_mem_append_blanks (by decide) hbody k
    rw [lines_of_not_mem hbody hnil, lines_of_not_mem hfeed (by simp [hnil])]
    simp only [kindsFrom_cons_eq_ok, enter_append_gaps hgs hcontent]

/-! ### Blanks before a text -/

/-- The first line is blank, if there is one. -/
def opensBlank (cs : List Char) : Bool := (lines cs).head?.all isEmptyLine

theorem blanks_append_eq (j : Nat) (text : List Char) :
    blanks j ++ text = blanks (j + width text) ++ text.drop (width text) := by
  unfold blanks
  rw [List.replicate_add, List.append_assoc]
  exact congrArg _ (blanks_append_drop text)

theorem leading_blanks (j : Nat) (text : List Char) : leading (blanks j ++ text) = j + width text := by
  rw [blanks_append_eq, leading_blanks_append (head?_drop_width text)]

theorem isEmptyLine_blanks_append (j : Nat) (text : List Char) : isEmptyLine (blanks j ++ text) = isEmptyLine text := by
  have hcode : codeOf (blanks j ++ text) = codeOf text :=
    calc codeOf (blanks j ++ text)
      _ = codeOf (blanks (j + width text) ++ text.drop (width text)) := by rw [blanks_append_eq]
      _ = code (content (text.drop (width text))) := codeOf_blanks_append (head?_drop_width text)
      _ = codeOf (blanks (width text) ++ text.drop (width text)) := (codeOf_blanks_append (head?_drop_width text)).symm
      _ = codeOf text := by rw [← blanks_append_drop]
  exact congrArg (·.all Text.isBlank) hcode

theorem IsLine.blanks_append {text rest : List Char} (h : IsLine text rest) (j : Nat) :
    IsLine (blanks j ++ text) rest := by
  cases h with
  | ended body rest h =>
      rw [← List.append_assoc]
      exact .ended _ rest (not_mem_blanks_append (by decide) h)
  | last h hne => exact .last (not_mem_blanks_append (by decide) h) (by simp [hne])

theorem indentation_nil_succ (w : Nat) : indentation [] (w + 1) = some ([.indent], [w + 1]) := rfl

/-- Before a blank line they make a longer blank line. -/
theorem kindsFrom_blanks_append {cs : List Char} (h : opensBlank cs = true) (j : Nat) (opened : List Nat)
    (ks : List Kind) : kindsFrom opened (lines (blanks j ++ cs)) = .ok ks ↔ kindsFrom opened (lines cs) = .ok ks := by
  obtain rfl | ⟨text, rest, rfl, hline⟩ := eq_nil_or_isLine cs
  · rw [List.append_nil]
    exact kindsFrom_blanks j opened
  · have hempty : isEmptyLine text = true := by
      unfold opensBlank at h
      rw [hline.lines_append] at h
      exact h
    rw [← List.append_assoc, (hline.blanks_append j).lines_append, hline.lines_append,
      kindsFrom_cons_of_blank ((isEmptyLine_blanks_append j text).trans hempty), kindsFrom_cons_of_blank hempty]

/-- Before any other line they are an indentation. -/
theorem exists_indent_of_kindsFrom {cs : List Char} (h : opensBlank cs = false) {j : Nat} {ks : List Kind}
    (hks : kindsFrom [] (lines (blanks (j + 1) ++ cs)) = .ok ks) : ∃ ks', ks = .indent :: ks' := by
  obtain rfl | ⟨text, rest, rfl, hline⟩ := eq_nil_or_isLine cs
  · cases h
  · have hempty : isEmptyLine text = false := by
      unfold opensBlank at h
      rw [hline.lines_append] at h
      exact h
    rw [← List.append_assoc, (hline.blanks_append (j + 1)).lines_append] at hks
    obtain ⟨r, ks', hr, -, rfl⟩ := kindsFrom_cons_eq_ok.1 hks
    obtain ⟨hblank, -⟩ | ⟨-, -, layout, opened', code, hi, -, rfl⟩ := enter_eq_ok.1 hr
    · rw [isEmptyLine_blanks_append, hempty] at hblank
      cases hblank
    · rw [leading_blanks, show j + 1 + width text = j + width text + 1 by omega, indentation_nil_succ] at hi
      cases hi
      exact ⟨_, rfl⟩

end Scan

/-! ### Bounds -/

namespace Expr

theorem ofBoundText_congr {text text' : String} (h : ∀ e, ofSource text = .ok e ↔ ofSource text' = .ok e) :
    ofBoundText text = ofBoundText text' := by
  unfold ofBoundText
  cases htext : ofSource text with
  | ok e => rw [(h e).1 htext]
  | error fault =>
      cases htext' : ofSource text' with
      | ok e =>
          rw [(h e).2 htext'] at htext
          cases htext
      | error fault' => rfl

theorem ofBoundText_of_not_ok {text : String} (h : ∀ e, ofSource text ≠ .ok e) :
    ofBoundText text = Function.defaultBound := by
  unfold ofBoundText
  cases htext : ofSource text with
  | ok e => exact absurd htext (h e)
  | error fault => rfl

/-- The text with blanks on both sides. -/
def padded (j : Nat) (text : String) (k : Nat) : String :=
  String.ofList (Scan.blanks j ++ text.toList ++ Scan.blanks k)

theorem ofSource_padded {text : String} {e : Expr} (j k : Nat) :
    ofSource (padded j text k) = .ok e ↔ ∃ ks n rest, Spelled 0 ks e
      ∧ Scan.kindsFrom [] (Scan.lines (Scan.blanks j ++ text.toList))
        = .ok (ks ++ List.replicate n .newline ++ .eof :: rest) := by
  rw [ofSource_eq_ok, padded, String.toList_ofList]
  simp only [Scan.kindsFrom_append_blanks]

/-- An expression does not begin with an indentation. -/
theorem ofSource_padded_ne_ok {text : String} (h : Scan.opensBlank text.toList = false) (j k : Nat) (e : Expr) :
    ofSource (padded (j + 1) text k) ≠ .ok e := by
  intro hread
  obtain ⟨ks, n, rest, hspelled, hks⟩ := (ofSource_padded (j + 1) k).1 hread
  obtain ⟨ks', hindent⟩ := Scan.exists_indent_of_kindsFrom h hks
  obtain ⟨first, more, rfl, -⟩ := hspelled.front
  cases hindent
  exact absurd (hspelled.isLayout_eq _ List.mem_cons_self) (by decide)

/-- **Blanks around a bound.** After the text of a bound they make no difference. Before it they make none if the first
line of the text is blank; otherwise the bound cannot be read any more, so it is taken to be `1`. So blanks make no
difference at all to a text whose first line is blank or whose bound is `1` anyway, and to no other. -/
theorem ofBoundText_padded (text : String) :
    (∀ j k, ofBoundText (padded j text k)
        = if j = 0 ∨ Scan.opensBlank text.toList = true then ofBoundText text else Function.defaultBound)
      ∧ ((∀ j k, ofBoundText (padded j text k) = ofBoundText text) ↔
        Scan.opensBlank text.toList = true ∨ ofBoundText text = Function.defaultBound) := by
  have hpadded : ∀ j k, ofBoundText (padded j text k)
      = if j = 0 ∨ Scan.opensBlank text.toList = true then ofBoundText text else Function.defaultBound := by
    intro j k
    split
    · rename_i hsame
      refine ofBoundText_congr fun e => ?_
      rw [ofSource_padded, ofSource_eq_ok]
      obtain rfl | hblank := hsame
      · exact Iff.rfl
      · simp only [Scan.kindsFrom_blanks_append hblank]
    · rename_i hother
      obtain ⟨hj, hblank⟩ := not_or.1 hother
      obtain ⟨i, rfl⟩ := Nat.exists_eq_succ_of_ne_zero hj
      exact ofBoundText_of_not_ok (ofSource_padded_ne_ok (Bool.eq_false_iff.2 hblank) i k)
  refine ⟨hpadded, fun hsame => ?_, fun hcases j k => ?_⟩
  · by_cases hblank : Scan.opensBlank text.toList = true
    · exact .inl hblank
    · right
      rw [← hsame 1 0, hpadded, if_neg (by simp [hblank])]
  · rw [hpadded]
    split
    · rfl
    · rename_i hother
      obtain hblank | hdefault := hcases
      · exact absurd (.inr hblank) hother
      · exact hdefault.symm

example : ofBoundText "n" = .var "n" ∧ ofBoundText "n " = .var "n" ∧ ofBoundText " n" = .int 1 := by decide +kernel

end Expr

end CostBound
