import CostBound.Proofs.CodeTail
import CostBound.Proofs.Spans
import CostBound.Proofs.Unplaced

/-!
# Comments, blank lines and line ends

What a text has besides its code does not show in its tokens.

* `Scan.Trails` — a line with something new after its code; `Scan.Trails.enter_eq_ok` says that it has the same tokens.
* `Scan.Annotated` — lines some of which are such lines, or new and blank; `Scan.Annotated.kindsFrom_eq_ok` says that
  they have the same tokens.
* `Scan.annotated_insert`, `Scan.annotated_comment`, `Scan.annotated_returned` — three changes of a text, seen in its
  lines.
* `Token.scan_annotated` — the tokens of the text after each of them.
-/

namespace CostBound

open Token (Kind)
open TokenReader (kinds)

/-! ### Lines with more after their code -/

namespace Scan

/-- After its code, and after its comment if it has one, the second line goes on with a carriage return, a comment or
both. -/
def Trails (text text' : List Char) : Prop :=
  ∃ cr comment, content text' = content text ++ (cr ++ comment) ∧ (cr = [] ∨ cr = ['\r'])
    ∧ (comment = [] ∨ ∃ note, comment = '#' :: note) ∧ '\t' ∉ comment

theorem Trails.refl (text : List Char) : Trails text text :=
  ⟨[], [], (List.append_nil _).symm, .inl rfl, .inl rfl, List.not_mem_nil⟩

theorem Trails.leading_eq {text text' : List Char} (h : Trails text text') : leading text' = leading text := by
  obtain ⟨cr, comment, htext, hcr, hcomment, -⟩ := h
  unfold leading
  rw [htext]
  refine width_append ?_
  obtain rfl | rfl := hcr
  · obtain rfl | ⟨note, rfl⟩ := hcomment <;> simp
  · simp

/-- The code is the same, up to a carriage return at its end. -/
theorem Trails.codeOf_eq {text text' : List Char} (h : Trails text text') (hs : Settled (codeOf text)) :
    codeOf text' = codeOf text ∨ codeOf text' = codeOf text ++ ['\r'] := by
  have hleading := h.leading_eq
  obtain ⟨cr, comment, htext, hcr, hcomment, -⟩ := h
  have hcode : code (cr ++ comment) = cr := by
    obtain rfl | rfl := hcr <;> obtain rfl | ⟨note, rfl⟩ := hcomment <;> rfl
  have hshown : codeOf text' = code ((content text).drop (leading text) ++ (cr ++ comment)) := by
    unfold codeOf
    rw [hleading, htext, show leading text = width (content text) from rfl, drop_width_append]
  obtain ⟨note, hnote, hcases⟩ := codeIn_append none ((content text).drop (leading text))
  change _ = codeOf text ++ note at hnote
  rw [hshown, hnote]
  obtain rfl | ⟨note, rfl⟩ := hcases
  · rw [List.append_nil, hs, hcode]
    obtain rfl | rfl := hcr
    · exact .inl (List.append_nil _)
    · exact .inr rfl
  · left
    rw [List.append_assoc, hs]
    exact List.append_nil _

theorem Trails.not_mem_content {text text' : List Char} (h : Trails text text') (ht : '\t' ∉ content text) :
    '\t' ∉ content text' := by
  obtain ⟨cr, comment, htext, hcr, -, hcomment⟩ := h
  have hreturn : '\t' ∉ cr := by
    obtain rfl | rfl := hcr <;> decide
  rw [htext, List.mem_append, List.mem_append]
  rintro (hmem | hmem | hmem)
  · exact ht hmem
  · exact hreturn hmem
  · exact hcomment hmem

theorem Trails.isEmptyLine_eq {text text' : List Char} (h : Trails text text') (hs : Settled (codeOf text)) :
    isEmptyLine text' = isEmptyLine text := by
  show (codeOf text').all Text.isBlank = (codeOf text).all Text.isBlank
  obtain heq | heq := h.codeOf_eq hs
  · rw [heq]
  · have hreturn : ['\r'].all Text.isBlank = true := by decide
    rw [heq, List.all_append, hreturn, Bool.and_true]

/-- **One line.** With more after its code it has the tokens that it had, and leaves the same widths open. -/
theorem Trails.enter_eq_ok {text text' : List Char} (h : Trails text text') {opened : List Nat}
    {r : List Kind × List Nat} (hr : enter opened text = .ok r) : enter opened text' = .ok r := by
  rw [Scan.enter_eq_ok] at hr ⊢
  obtain ⟨hempty, hr⟩ | ⟨hempty, ht, layout, opened', ks, hi, hks, hr⟩ := hr
  · exact .inl ⟨(h.isEmptyLine_eq (settled_of_isBlank hempty)).trans hempty, hr⟩
  · refine .inr ⟨(h.isEmptyLine_eq hks.settled).trans hempty, h.not_mem_content ht, layout, opened', ks, ?_, ?_, hr⟩
    · rw [h.leading_eq]
      exact hi
    · obtain heq | heq := h.codeOf_eq hks.settled
      · rw [heq]
        exact hks
      · rw [heq]
        exact hks.append_gap rfl

/-- Lines that have more after their code, and new blank lines between them. -/
inductive Annotated : List (List Char) → List (List Char) → Prop
  | nil : Annotated [] []
  | line {text text' : List Char} {ls ls' : List (List Char)} (h : Trails text text') (hs : Annotated ls ls') :
      Annotated (text :: ls) (text' :: ls')
  | blank {text : List Char} {ls ls' : List (List Char)} (h : isEmptyLine text = true) (hs : Annotated ls ls') :
      Annotated ls (text :: ls')

theorem Annotated.append_left (above : List (List Char)) {ls ls' : List (List Char)} (h : Annotated ls ls') :
    Annotated (above ++ ls) (above ++ ls') := by
  induction above with
  | nil => exact h
  | cons text above ih => exact .line (.refl text) ih

theorem Annotated.refl (ls : List (List Char)) : Annotated ls ls := by
  have happend := Annotated.nil.append_left ls
  rwa [List.append_nil] at happend

/-- **All lines.** A new blank line leaves the open widths alone, so the lines after it are read as before. -/
theorem Annotated.kindsFrom_eq_ok {ls ls' : List (List Char)} (h : Annotated ls ls') {opened : List Nat}
    {ks : List Kind} (hks : kindsFrom opened ls = .ok ks) : kindsFrom opened ls' = .ok ks := by
  induction h generalizing opened ks with
  | nil => exact hks
  | line h _ ih =>
      obtain ⟨r, ks', hr, hks', rfl⟩ := kindsFrom_cons_eq_ok.1 hks
      exact kindsFrom_cons_eq_ok.2 ⟨r, ks', h.enter_eq_ok hr, ih hks', rfl⟩
  | blank h _ ih =>
      exact kindsFrom_cons_eq_ok.2 ⟨_, ks, Scan.enter_eq_ok.2 (.inl ⟨h, rfl⟩), ih hks, rfl⟩

/-! ### Lines of a text -/

/-- `Ends ending rest`: a line may end with `ending` before `rest`. The last line of a text may have no line feed. -/
inductive Ends : List Char → List Char → Prop
  | feed (rest : List Char) : Ends ['\n'] rest
  | returned (rest : List Char) : Ends ['\r', '\n'] rest
  | last : Ends [] []
  | lastReturned : Ends ['\r'] []

/-- The text consists of lines that end with a line feed. -/
def Whole (cs : List Char) : Prop := cs = [] ∨ cs.getLast? = some '\n'

section Text

variable {body ending rest : List Char}

theorem Ends.isLine (h : Ends ending rest) (hbody : '\n' ∉ body) (hne : body ++ ending ≠ []) :
    IsLine (body ++ ending) rest := by
  cases h with
  | feed rest => exact .ended body rest hbody
  | returned rest =>
      rw [show body ++ ['\r', '\n'] = body ++ ['\r'] ++ ['\n'] by simp]
      exact .ended _ rest (by simpa using hbody)
  | last =>
      rw [List.append_nil] at hne ⊢
      exact .last hbody hne
  | lastReturned => exact .last (by simpa using hbody) hne

/-- A carriage return belongs to the end of a line or, if there is none, is taken from the line itself. -/
theorem Ends.content_append (h : Ends ending rest) :
    (∀ {body}, '\n' ∉ body → content (body ++ ending) = body)
      ∨ ∀ {body}, '\n' ∉ body → content (body ++ ending) = dropLastIf '\r' body := by
  unfold content
  cases h with
  | feed rest => exact .inr fun _ => by rw [dropLastIf_append]
  | returned rest =>
      left
      intro body _
      rw [show body ++ ['\r', '\n'] = body ++ ['\r'] ++ ['\n'] by simp, dropLastIf_append, dropLastIf_append]
  | last =>
      right
      intro body hbody
      rw [List.append_nil, dropLastIf_of_not_mem hbody]
  | lastReturned =>
      left
      intro body hbody
      have hfeed : '\n' ∉ body ++ ['\r'] := by simpa using hbody
      rw [dropLastIf_of_not_mem hfeed, dropLastIf_append]

theorem dropLastIf_note (note : List Char) : dropLastIf '\r' ('#' :: note) = '#' :: dropLastIf '\r' note := by
  cases note with
  | nil => rfl
  | cons c note => exact dropLastIf_append_of_ne_nil (List.cons_ne_nil c note) ['#']

theorem not_mem_dropLastIf {c d : Char} {cs : List Char} (h : c ∉ cs) : c ∉ dropLastIf d cs := by
  obtain ⟨last, hcs, -⟩ := dropLastIf_append_end d cs
  intro hmem
  refine h ?_
  rw [hcs]
  exact List.mem_append_left last hmem

/-- A line of blanks, with a comment or without. -/
theorem Ends.isEmptyLine_eq (h : Ends ending rest) (n : Nat) {comment : List Char}
    (hc : comment = [] ∨ ∃ note, comment = '#' :: note) (hfeed : '\n' ∉ comment) :
    isEmptyLine (blanks n ++ (comment ++ ending)) = true := by
  have hhead : (comment ++ ending).head? ≠ some ' ' := by
    obtain rfl | ⟨note, rfl⟩ := hc
    · cases h <;> decide
    · simp
  have hcode : code (content (comment ++ ending)) = [] := by
    obtain hcontent | hcontent := h.content_append
    · rw [hcontent hfeed]
      obtain rfl | ⟨note, rfl⟩ := hc <;> rfl
    · rw [hcontent hfeed]
      obtain rfl | ⟨note, rfl⟩ := hc
      · rfl
      · rw [dropLastIf_note]
        rfl
  show (codeOf _).all Text.isBlank = true
  rw [codeOf_blanks_append hhead, hcode]
  rfl

/-- A comment before the end of a line. -/
theorem Ends.trails (h : Ends ending rest) {note : List Char} (hbody : '\n' ∉ body) (hfeed : '\n' ∉ note)
    (htab : '\t' ∉ note) : Trails (body ++ ending) (body ++ '#' :: note ++ ending) := by
  have hmore : '\n' ∉ body ++ '#' :: note := by simp [hbody, hfeed]
  obtain hcontent | hcontent := h.content_append
  · refine ⟨[], '#' :: note, ?_, .inl rfl, .inr ⟨note, rfl⟩, by simp [htab]⟩
    rw [hcontent hbody, hcontent hmore]
    rfl
  · obtain ⟨cr, hcr, hcases⟩ := dropLastIf_append_end '\r' body
    refine ⟨cr, '#' :: dropLastIf '\r' note, ?_, hcases, .inr ⟨_, rfl⟩, ?_⟩
    · rw [hcontent hbody, hcontent hmore, dropLastIf_append_of_ne_nil (List.cons_ne_nil '#' note), dropLastIf_note,
        ← List.append_assoc, ← hcr]
    · exact List.not_mem_cons_of_ne_of_not_mem (by decide) (not_mem_dropLastIf htab)

end Text

theorem lines_append_of_whole {above : List Char} (h : Whole above) (rest : List Char) :
    lines (above ++ rest) = lines above ++ lines rest := by
  induction above with
  | nil => rfl
  | cons c above ih =>
      have habove : Whole above := by
        cases above with
        | nil => exact .inl rfl
        | cons d above => exact h.imp_left (absurd · (List.cons_ne_nil _ _))
      rw [List.cons_append, lines, lines, ih habove]
      split
      · rfl
      · rename_i hc
        cases hls : lines above with
        | nil =>
            -- the line would end here, without a line feed
            obtain rfl : above = [] := by
              rw [← flatten_lines above, hls]
              rfl
            obtain hnil | hlast := h
            · cases hnil
            · exact absurd (Option.some.inj hlast) hc
        | cons line ls => rfl

/-- A text is some whole lines and the beginning of a line. -/
theorem exists_whole_append (cs : List Char) : ∃ above body, cs = above ++ body ∧ Whole above ∧ '\n' ∉ body := by
  induction cs with
  | nil => exact ⟨[], [], rfl, .inl rfl, List.not_mem_nil⟩
  | cons c cs ih =>
      obtain ⟨above, body, rfl, habove, hbody⟩ := ih
      obtain rfl | hlast := habove
      · by_cases hc : c = '\n'
        · subst hc
          exact ⟨['\n'], body, rfl, .inr rfl, hbody⟩
        · exact ⟨[], c :: body, rfl, .inl rfl, List.not_mem_cons_of_ne_of_not_mem (Ne.symm hc) hbody⟩
      · refine ⟨c :: above, body, rfl, .inr ?_, hbody⟩
        rw [List.getLast?_cons, hlast]
        rfl

/-! ### Changes of a text -/

/-- Every line feed has a carriage return before it. -/
def returned (cs : List Char) : List Char := cs.flatMap fun c => if c = '\n' then ['\r', '\n'] else [c]

theorem returned_of_not_mem {cs : List Char} (h : '\n' ∉ cs) : returned cs = cs := by
  induction cs with
  | nil => rfl
  | cons c cs ih =>
      have hc : c ≠ '\n' := fun heq => h (heq ▸ List.mem_cons_self)
      have hcs := ih fun hmem => h (List.mem_cons_of_mem c hmem)
      unfold returned at hcs ⊢
      rw [List.flatMap_cons, if_neg hc, hcs]
      rfl

theorem returned_append_feed {body : List Char} (h : '\n' ∉ body) :
    returned (body ++ ['\n']) = body ++ ['\r'] ++ ['\n'] := by
  have hbody := returned_of_not_mem h
  unfold returned at hbody ⊢
  rw [List.flatMap_append, hbody, List.append_assoc]
  rfl

theorem isLine_returned {text rest rest' : List Char} (h : IsLine text rest) (hrest : rest = [] → rest' = []) :
    IsLine (returned text) rest' := by
  cases h with
  | ended body rest h =>
      rw [returned_append_feed h]
      exact .ended _ _ (by simpa using h)
  | last h hne =>
      rw [returned_of_not_mem h, hrest rfl]
      exact .last h hne

theorem IsLine.trails_returned {text rest : List Char} (h : IsLine text rest) : Trails text (returned text) := by
  cases h with
  | ended body rest h =>
      obtain ⟨cr, hcr, hcases⟩ := dropLastIf_append_end '\r' body
      refine ⟨cr, [], ?_, hcases, .inl rfl, List.not_mem_nil⟩
      unfold content
      rw [returned_append_feed h, dropLastIf_append, dropLastIf_append, dropLastIf_append, List.append_nil, ← hcr]
  | last h hne =>
      rw [returned_of_not_mem h]
      exact .refl text

theorem returned_eq_flatMap (cs : List Char) : returned cs = (lines cs).flatMap returned :=
  calc returned cs = returned ((lines cs).flatMap id) := by rw [List.flatMap_id, flatten_lines]
    _ = (lines cs).flatMap returned := List.flatMap_assoc

theorem annotated_returned (cs : List Char) : Annotated (lines cs) (lines (returned cs)) := by
  rw [returned_eq_flatMap, lines_flatMap isLine_returned]
  generalize hls : lines cs = ls
  induction ls generalizing cs with
  | nil => exact .nil
  | cons text ls ih =>
      rcases eq_nil_or_isLine cs with rfl | ⟨text', rest, rfl, hline⟩
      · cases hls
      rw [hline.lines_append] at hls
      cases hls
      exact .line hline.trails_returned (ih rest rfl)

/-- A new line of blanks, with a comment or without. -/
theorem annotated_insert {above below ending : List Char} (habove : Whole above) (hends : Ends ending below) (n : Nat)
    {comment : List Char} (hc : comment = [] ∨ ∃ note, comment = '#' :: note) (hfeed : '\n' ∉ comment) :
    Annotated (lines (above ++ below)) (lines (above ++ blanks n ++ comment ++ ending ++ below)) := by
  have hempty := hends.isEmptyLine_eq n hc hfeed
  rw [← List.append_assoc] at hempty
  simp only [List.append_assoc above]
  rw [lines_append_of_whole habove, lines_append_of_whole habove]
  refine .append_left _ ?_
  by_cases hnil : blanks n ++ comment ++ ending = []
  · rw [hnil]
    exact .refl _
  · have hline := hends.isLine (not_mem_blanks_append (by decide) hfeed) hnil
    rw [hline.lines_append]
    exact .blank hempty (.refl _)

/-- A new comment at the end of the last line of `left`. -/
theorem annotated_comment {left below ending note : List Char} (hends : Ends ending below) (hfeed : '\n' ∉ note)
    (htab : '\t' ∉ note) :
    Annotated (lines (left ++ ending ++ below)) (lines (left ++ '#' :: note ++ ending ++ below)) := by
  obtain ⟨above, body, rfl, habove, hbody⟩ := exists_whole_append left
  have hmore : '\n' ∉ body ++ '#' :: note := by simp [hbody, hfeed]
  have hline' : IsLine (body ++ '#' :: note ++ ending) below := hends.isLine hmore (by simp)
  simp only [List.append_assoc above]
  rw [lines_append_of_whole habove, lines_append_of_whole habove, hline'.lines_append]
  refine .append_left _ ?_
  by_cases hnil : body ++ ending = []
  · -- the comment is a line of its own at the end of the text
    obtain ⟨rfl, rfl⟩ := List.append_eq_nil_iff.1 hnil
    have hempty := hends.isEmptyLine_eq 0 (.inr ⟨note, rfl⟩) (by simpa using hfeed)
    simp only [show blanks 0 = [] from rfl, List.nil_append] at hempty ⊢
    exact .blank hempty (.refl _)
  · rw [(hends.isLine hbody hnil).lines_append]
    exact .line (hends.trails hbody hfeed htab) (.refl _)

end Scan

open Scan

theorem Token.exists_scan_of_annotated {source : String} {ts : List Token} (h : Token.scan source = .ok ts)
    {cs : List Char} (hcs : Annotated (lines source.toList) (lines cs)) :
    ∃ ts', Token.scan (String.ofList cs) = .ok ts' ∧ kinds ts' = kinds ts := by
  have hks : kindsFrom [] (lines source.toList) = .ok (kinds ts) := by
    rw [← unplaced_scan]
    exact ScanError.unplaced_eq_ok.2 ⟨ts, h, rfl⟩
  refine ScanError.unplaced_eq_ok.1 ?_
  rw [unplaced_scan, String.toList_ofList]
  exact hcs.kindsFrom_eq_ok hks

/-- **Comments, blank lines and line ends do not show.** A text with tokens has tokens of the same kinds

* with a line of blanks, and a comment or not, between any two of its lines or at either end;
* with a comment at the end of any of its lines;
* with a carriage return before each of its line feeds. -/
theorem Token.scan_annotated {source : String} {ts : List Token} (h : Token.scan source = .ok ts) :
    (∀ above below n comment ending, source.toList = above ++ below → Whole above → Ends ending below →
        (comment = [] ∨ ∃ note, comment = '#' :: note) → '\n' ∉ comment →
        ∃ ts', Token.scan (String.ofList (above ++ blanks n ++ comment ++ ending ++ below)) = .ok ts'
          ∧ kinds ts' = kinds ts)
      ∧ (∀ left ending below note, source.toList = left ++ ending ++ below → Ends ending below → '\n' ∉ note →
        '\t' ∉ note →
        ∃ ts', Token.scan (String.ofList (left ++ '#' :: note ++ ending ++ below)) = .ok ts' ∧ kinds ts' = kinds ts)
      ∧ ∃ ts', Token.scan (String.ofList (returned source.toList)) = .ok ts' ∧ kinds ts' = kinds ts := by
  refine ⟨?_, ?_, exists_scan_of_annotated h (annotated_returned _)⟩
  · intro above below n comment ending hsource habove hends hc hfeed
    refine exists_scan_of_annotated h ?_
    rw [hsource]
    exact annotated_insert habove hends n hc hfeed
  · intro left ending below note hsource hends hfeed htab
    refine exists_scan_of_annotated h ?_
    rw [hsource]
    exact annotated_comment hends hfeed htab

/-- Strings of both kinds, with what would begin a comment or another string, and a comment on a last line without an
end. -/
def Token.quotingText : String := "f('#', \"it's \\\"#\")\r\n g() # 'end"

/-- A new line, a new comment and new line ends in such a text. -/
theorem Token.scan_annotated_quoting : ∃ ts, Token.scan quotingText = .ok ts
    ∧ (∃ ts', Token.scan "f('#', \"it's \\\"#\")\r\n  # \tit's\n g() # 'end" = .ok ts' ∧ kinds ts' = kinds ts)
    ∧ (∃ ts', Token.scan "f('#', \"it's \\\"#\")# \"\r\n g() # 'end" = .ok ts' ∧ kinds ts' = kinds ts)
    ∧ ∃ ts', Token.scan "f('#', \"it's \\\"#\")\r\r\n g() # 'end" = .ok ts' ∧ kinds ts' = kinds ts := by
  have h : Token.scan quotingText = .ok _ := rfl
  obtain ⟨hinsert, happend, hreturned⟩ := scan_annotated h
  have hinserted := hinsert "f('#', \"it's \\\"#\")\r\n".toList " g() # 'end".toList 2 "# \tit's".toList ['\n']
    (by decide +kernel) (.inr rfl) (.feed _) (.inr ⟨_, rfl⟩) (by decide +kernel)
  have happended := happend "f('#', \"it's \\\"#\")".toList ['\r', '\n'] " g() # 'end".toList " \"".toList
    (by decide +kernel) (.returned _) (by decide +kernel) (by decide +kernel)
  exact ⟨_, h, hinserted, happended, hreturned⟩

end CostBound
