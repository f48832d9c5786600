import CostBound.Proofs.Nesting

/-!
# Where tokens stand

Every token is found at its span, and nothing else in a text is left unread without a reason.

* `Span.Cuts`, `Span.Has` — the characters that a span marks, and the bytes in it.
* `Scan.Parts` — a line: margin, code, comment and end.
* `Scan.Cut.within`, `Scan.Cut.ordered`, `Scan.Cut.stretch`, `Scan.Cut.covers` — the spans of a line of code.
* `Scan.Scanned.ordered`, `Scan.Scanned.stretch` — the spans of a text.
* `Scan.Unread` — why a character belongs to no token; `Scan.Scanned.unread` says that there is always such a reason.
* `Token.scan_lossless` — all of it for the tokens of a text.
-/

namespace CostBound

open Token (Kind)

/-! ### Bytes -/

theorem utf8Length_pos {cs : List Char} (h : cs ≠ []) : 0 < utf8Length cs := by
  cases cs with
  | nil => exact absurd rfl h
  | cons c cs =>
      have := c.utf8Size_pos
      show 0 < c.utf8Size + utf8Length cs
      omega

theorem utf8Length_ofList (cs : List Char) : utf8Length cs = (String.ofList cs).utf8ByteSize := by
  induction cs with
  | nil => rfl
  | cons c cs ih =>
      have hsplit : String.ofList (c :: cs) = String.singleton c ++ String.ofList cs := by
        rw [String.singleton_eq_ofList, ← String.ofList_append]
        rfl
      rw [hsplit, String.utf8ByteSize_append, String.utf8ByteSize_singleton, ← ih]
      rfl

theorem utf8Length_toList (s : String) : utf8Length s.toList = s.utf8ByteSize := by
  rw [utf8Length_ofList, String.ofList_toList]

namespace Span

/-- The span marks `text` in `cs`: its ends lie between characters, and `text` is what stands between them. -/
def Cuts (s : Span) (cs text : List Char) : Prop :=
  ∃ before after, cs = before ++ text ++ after ∧ utf8Length before = s.offset ∧ utf8Length text = s.length

/-- The span has a byte. -/
def Has (s : Span) (byte : Nat) : Prop := s.offset ≤ byte ∧ byte < s.stop

theorem Cuts.stop_le {s : Span} {cs text : List Char} (h : s.Cuts cs text) : s.stop ≤ utf8Length cs := by
  obtain ⟨before, after, rfl, hbefore, htext⟩ := h
  rw [utf8Length_append, utf8Length_append, hbefore, htext]
  exact Nat.le_add_right _ _

end Span

namespace Scan

/-! ### The parts of a line -/

/-- A character of two texts, one after the other, stands in the first or in the second one. -/
theorem append_split {xs ys left right : List Char} {c : Char} (h : xs ++ ys = left ++ c :: right) :
    (∃ mid, xs = left ++ c :: mid ∧ right = mid ++ ys) ∨ ∃ mid, left = xs ++ mid ∧ ys = mid ++ c :: right := by
  rcases List.append_eq_append_iff.1 h with ⟨mid, hleft, hys⟩ | ⟨mid, hxs, hright⟩
  · exact .inr ⟨mid, hleft, hys⟩
  · cases mid with
    | nil =>
        rw [List.append_nil] at hxs
        exact .inr ⟨[], by rw [hxs, List.append_nil], hright.symm⟩
    | cons d mid =>
        cases hright
        exact .inl ⟨mid, hxs, rfl⟩

theorem codeIn_append (quote : Option Char) (cs : List Char) :
    ∃ comment, cs = codeIn quote cs ++ comment ∧ (comment = [] ∨ ∃ note, comment = '#' :: note) := by
  fun_induction codeIn quote cs with
  | case1 => exact ⟨[], rfl, .inl rfl⟩
  | case2 cs => exact ⟨'#' :: cs, rfl, .inr ⟨cs, rfl⟩⟩
  | case3 c cs hc ih =>
      obtain ⟨comment, hcs, hcomment⟩ := ih
      exact ⟨comment, congrArg (c :: ·) hcs, hcomment⟩
  | case4 quote c cs ih =>
      obtain ⟨comment, hcs, hcomment⟩ := ih
      exact ⟨comment, congrArg ('\\' :: c :: ·) hcs, hcomment⟩
  | case5 quote c cs hne ih =>
      obtain ⟨comment, hcs, hcomment⟩ := ih
      exact ⟨comment, congrArg (c :: ·) hcs, hcomment⟩

/-- The parts of a line: its margin and its code, a comment, and its end. -/
structure Parts (text rest comment cr lf : List Char) : Prop where
  text_eq : text = blanks (leading text) ++ codeOf text ++ comment ++ cr ++ lf
  no_feed : '\n' ∉ codeOf text ++ comment
  comment_eq : comment = [] ∨ ∃ note, comment = '#' :: note
  cr_eq : cr = [] ∨ cr = ['\r']
  lf_eq : lf = ['\n'] ∨ lf = [] ∧ rest = []

theorem IsLine.exists_parts {text rest : List Char} (h : IsLine text rest) :
    ∃ comment cr lf, Parts text rest comment cr lf := by
  obtain ⟨body, lf, hbody, hlf, htext, hshown⟩ : ∃ body lf, '\n' ∉ body ∧ (lf = ['\n'] ∨ lf = [] ∧ rest = []) ∧
      text = body ++ lf ∧ dropLastIf '\n' text = body := by
    cases h with
    | ended body rest h => exact ⟨body, ['\n'], h, .inl rfl, rfl, dropLastIf_append '\n' _⟩
    | last h hne => exact ⟨_, [], h, .inr ⟨rfl, rfl⟩, (List.append_nil _).symm, dropLastIf_of_not_mem h⟩
  obtain ⟨cr, hcr, hcr_eq⟩ := dropLastIf_append_end '\r' body
  have hcontent : content text = dropLastIf '\r' body := by rw [content, hshown]
  obtain ⟨comment, hcomment, hcomment_eq⟩ := codeIn_append none ((content text).drop (leading text))
  have hmargin : content text = blanks (leading text) ++ (content text).drop (leading text) :=
    blanks_append_drop (content text)
  have hline : content text = blanks (leading text) ++ (codeOf text ++ comment) := by
    rw [hcomment] at hmargin
    exact hmargin
  refine ⟨comment, cr, lf, ?_, fun hmem => hbody ?_, hcomment_eq, hcr_eq, hlf⟩
  · rw [List.append_assoc (blanks _), ← hline, hcontent, ← hcr, ← htext]
  · rw [hcr, ← hcontent, hline]
    exact List.mem_append_left _ (List.mem_append_right _ hmem)

theorem utf8Length_blanks (n : Nat) : utf8Length (blanks n) = n := by
  induction n with
  | zero => rfl
  | succ n ih =>
      show ' '.utf8Size + utf8Length (blanks n) = n + 1
      rw [ih, Nat.add_comm]
      rfl

/-! ### Spans of a line -/

section Cut

variable {offset : Nat} {cs : List Char} {ts : List Token}

theorem Cut.within (h : Cut offset cs ts) :
    ∀ t ∈ ts, offset ≤ t.span.offset ∧ t.span.stop ≤ offset + utf8Length cs := by
  induction h with
  | nil offset => exact List.forall_mem_nil _
  | @gap offset c cs ts h hs ih =>
      intro t ht
      obtain ⟨hstart, hstop⟩ := ih t ht
      have : utf8Length (c :: cs) = c.utf8Size + utf8Length cs := rfl
      omega
  | @token offset text rest k ts h hs ih =>
      rw [utf8Length_append]
      refine List.forall_mem_cons.2 ⟨⟨Nat.le_refl _, ?_⟩, fun t ht => ?_⟩
      · show offset + utf8Length text ≤ _
        omega
      · obtain ⟨hstart, hstop⟩ := ih t ht
        omega

theorem Cut.ordered (h : Cut offset cs ts) : ts.Pairwise (fun t u => t.span.stop ≤ u.span.offset) := by
  induction h with
  | nil offset => exact .nil
  | gap h hs ih => exact ih
  | token h hs ih => exact List.pairwise_cons.2 ⟨fun t ht => (hs.within t ht).1, ih⟩

theorem Cut.stretch (h : Cut offset cs ts) : ∀ t ∈ ts, ∃ left text right, cs = left ++ text ++ right ∧
    t.span = ⟨offset + utf8Length left, utf8Length text⟩ ∧ t.kind.Written text := by
  induction h with
  | nil offset => exact List.forall_mem_nil _
  | @gap offset c cs ts h hs ih =>
      intro t ht
      obtain ⟨left, text, right, rfl, hspan, hw⟩ := ih t ht
      refine ⟨c :: left, text, right, rfl, ?_, hw⟩
      rw [hspan, Nat.add_assoc]
      rfl
  | @token offset text rest k ts h hs ih =>
      refine List.forall_mem_cons.2 ⟨⟨[], text, rest, rfl, rfl, h⟩, fun t ht => ?_⟩
      obtain ⟨left, text', right, rfl, hspan, hw⟩ := ih t ht
      refine ⟨text ++ left, text', right, by simp, ?_, hw⟩
      rw [hspan, utf8Length_append, Nat.add_assoc]

/-- A character is a gap, or a token has it. -/
theorem Cut.covers (h : Cut offset cs ts) {left right : List Char} {c : Char} (hcs : cs = left ++ c :: right) :
    Lexeme.isGap c = true ∨ ∃ t ∈ ts, t.span.Has (offset + utf8Length left) := by
  induction h generalizing left with
  | nil offset => simp at hcs
  | @gap offset d cs ts h hs ih =>
      cases left with
      | nil =>
          cases hcs
          exact .inl h
      | cons e left =>
          cases hcs
          obtain hgap | ⟨t, ht, hhas⟩ := ih rfl
          · exact .inl hgap
          · refine .inr ⟨t, ht, ?_⟩
            show t.span.Has (offset + (d.utf8Size + utf8Length left))
            rwa [← Nat.add_assoc]
  | @token offset text rest k ts h hs ih =>
      rcases append_split hcs with ⟨mid, rfl, -⟩ | ⟨mid, rfl, hrest⟩
      · refine .inr ⟨_, List.mem_cons_self, Nat.le_add_right _ _, ?_⟩
        show offset + utf8Length left < offset + utf8Length (left ++ c :: mid)
        have hpos := utf8Length_pos (List.cons_ne_nil c mid)
        rw [utf8Length_append]
        omega
      · obtain hgap | ⟨t, ht, hhas⟩ := ih hrest
        · exact .inl hgap
        · refine .inr ⟨t, List.mem_cons_of_mem _ ht, ?_⟩
          rwa [utf8Length_append, ← Nat.add_assoc]

end Cut

/-- A stretch of the code of a line is one of the line. -/
theorem IsLine.stretch_of_code {text rest left part right : List Char} (h : IsLine text rest)
    (hcode : codeOf text = left ++ part ++ right) :
    ∃ right', text = blanks (leading text) ++ left ++ part ++ right' := by
  obtain ⟨comment, cr, lf, hparts⟩ := h.exists_parts
  have htext := hparts.text_eq
  rw [hcode] at htext
  refine ⟨right ++ comment ++ cr ++ lf, htext.trans ?_⟩
  simp

/-! ### Spans of a text -/

theorem Parts.length_le {text rest comment cr lf : List Char} (h : Parts text rest comment cr lf) :
    leading text + utf8Length (codeOf text) + utf8Length comment ≤ utf8Length text := by
  have := congrArg utf8Length h.text_eq
  simp only [utf8Length_append, utf8Length_blanks] at this
  omega

/-- The tokens of a line stand between its margin and its end. -/
theorem within_line {offset : Nat} {text rest : List Char} {body : List Token} (layout : List Kind)
    (hl : IsLine text rest) (h : Cut (offset + leading text) (codeOf text) body) :
    ∀ t ∈ placed offset layout text ++ body,
      offset ≤ t.span.offset ∧ t.span.stop ≤ offset + utf8Length text := by
  obtain ⟨comment, cr, lf, hparts⟩ := hl.exists_parts
  have hlength := hparts.length_le
  intro t ht
  rcases List.mem_append.1 ht with ht | ht
  · obtain ⟨k, -, rfl⟩ := List.mem_map.1 ht
    refine ⟨Nat.le_refl _, ?_⟩
    show offset + leading text ≤ _
    omega
  · obtain ⟨hstart, hstop⟩ := h.within t ht
    omega

theorem span_of_mem_closing {offset : Nat} {opened : List Nat} {t : Token} (h : t ∈ closing offset opened) :
    t.span = ⟨offset, 0⟩ ∧ t.kind.isLayout = true := by
  simp only [closing, List.mem_append, List.mem_map, List.mem_singleton] at h
  rcases h with ⟨_, _, rfl⟩ | rfl <;> exact ⟨rfl, rfl⟩

theorem isLayout_of_mem_placed {offset w : Nat} {opened opened' : List Nat} {text : List Char}
    {layout : List Kind} {t : Token} (hi : indentation opened w = some (layout, opened'))
    (h : t ∈ placed offset layout text) : t.kind.isLayout = true := by
  obtain ⟨k, hk, rfl⟩ := List.mem_map.1 h
  obtain ⟨-, -, ⟨rfl, -⟩ | ⟨n, rfl, -⟩⟩ := indentation_eq_some hi
  · rw [List.mem_singleton.1 hk]
    rfl
  · rw [List.eq_of_mem_replicate hk]
    rfl

/-- One token comes before another, and ends before it unless it is layout. -/
def Before (t u : Token) : Prop :=
  t.span.offset ≤ u.span.offset ∧ (t.kind.isLayout = false → t.span.stop ≤ u.span.offset)

theorem before_of_stop_le {t u : Token} (h : t.span.stop ≤ u.span.offset) : Before t u :=
  ⟨Nat.le_trans (Nat.le_add_right _ _) h, fun _ => h⟩

theorem before_of_isLayout {t u : Token} (ht : t.kind.isLayout = true)
    (h : t.span.offset ≤ u.span.offset) : Before t u := by
  refine ⟨h, fun hk => ?_⟩
  rw [ht] at hk
  cases hk

section Scanned

variable {offset : Nat} {opened : List Nat} {cs : List Char} {ts : List Token}

theorem Scanned.le_offset (h : Scanned offset opened cs ts) : ∀ t ∈ ts, offset ≤ t.span.offset := by
  induction h with
  | done offset opened =>
      intro t ht
      refine Nat.le_of_eq ?_
      rw [(span_of_mem_closing ht).1]
  | blank hl h hs ih => exact fun t ht => Nat.le_trans (Nat.le_add_right _ _) (ih t ht)
  | line hl h ht hi hb hs ih =>
      intro t htm
      rcases List.mem_append.1 htm with htm | htm
      · exact (within_line _ hl (cut_of_place hb) t htm).1
      · rcases List.mem_cons.1 htm with rfl | htm
        · exact Nat.le_add_right _ _
        · exact Nat.le_trans (Nat.le_add_right _ _) (ih t htm)

theorem Scanned.ordered (h : Scanned offset opened cs ts) : ts.Pairwise Before := by
  induction h with
  | done offset opened =>
      refine List.Pairwise.imp_of_mem (fun {t u} ht hu _ => ?_) (List.pairwise_of_forall (fun _ _ => trivial))
      refine before_of_isLayout (span_of_mem_closing ht).2 (Nat.le_of_eq ?_)
      rw [(span_of_mem_closing ht).1, (span_of_mem_closing hu).1]
  | blank hl h hs ih => exact ih
  | @line offset opened opened' text rest layout body ts hl h ht hi hb hs ih =>
      have hcut := cut_of_place hb
      have hwithin := within_line layout hl hcut
      -- what follows the line starts where the line stops
      have hlater : ∀ u ∈ lineEnd offset text :: ts, offset + utf8Length text ≤ u.span.offset :=
        List.forall_mem_cons.2 ⟨Nat.le_refl _, hs.le_offset⟩
      have hplaced : (placed offset layout text ++ body).Pairwise Before := by
        refine List.pairwise_append.2 ⟨?_, hcut.ordered.imp before_of_stop_le, fun t htm u hu => ?_⟩
        · refine List.Pairwise.imp_of_mem (fun {t u} htm hu _ => ?_)
            (List.pairwise_of_forall (fun _ _ => trivial))
          obtain ⟨k, -, rfl⟩ := List.mem_map.1 hu
          obtain ⟨k', -, hk⟩ := List.mem_map.1 htm
          refine before_of_isLayout (isLayout_of_mem_placed hi htm) (Nat.le_of_eq ?_)
          rw [← hk]
        · obtain ⟨k, -, hk⟩ := List.mem_map.1 htm
          refine before_of_isLayout (isLayout_of_mem_placed hi htm) ?_
          rw [← hk]
          exact (hwithin u (List.mem_append_right _ hu)).1
      refine List.pairwise_append.2 ⟨hplaced, List.pairwise_cons.2 ⟨fun u hu => ?_, ih⟩, fun t htm u hu => ?_⟩
      · exact before_of_stop_le (hs.le_offset u hu)
      · exact before_of_stop_le (Nat.le_trans (hwithin t htm).2 (hlater u hu))

/-- Every token marks a stretch of the text, which is written as the token unless that is layout. -/
theorem Scanned.stretch (h : Scanned offset opened cs ts) :
    ∀ t ∈ ts, ∃ left text right, cs = left ++ text ++ right ∧
      t.span = ⟨offset + utf8Length left, utf8Length text⟩ ∧ (t.kind.isLayout = false → t.kind.Written text) := by
  induction h with
  | done offset opened =>
      intro t ht
      obtain ⟨hspan, hlayout⟩ := span_of_mem_closing ht
      refine ⟨[], [], [], rfl, hspan, fun hk => ?_⟩
      rw [hlayout] at hk
      cases hk
  | @blank offset opened text rest ts hl h hs ih =>
      intro t ht
      obtain ⟨left, part, right, rfl, hspan, hw⟩ := ih t ht
      refine ⟨text ++ left, part, right, by simp, ?_, hw⟩
      rw [hspan, utf8Length_append, Nat.add_assoc]
  | @line offset opened opened' text rest layout body ts hl h ht hi hb hs ih =>
      intro t htm
      rcases List.mem_append.1 htm with htm | htm
      · rcases List.mem_append.1 htm with htm | htm
        · have hlayout := isLayout_of_mem_placed hi htm
          obtain ⟨k, -, rfl⟩ := List.mem_map.1 htm
          obtain ⟨right', htext⟩ := hl.stretch_of_code (show codeOf text = [] ++ [] ++ codeOf text from rfl)
          rw [List.append_nil, List.append_nil] at htext
          refine ⟨[], blanks (leading text), right' ++ rest, ?_, ?_, fun hk => ?_⟩
          · rw [List.nil_append, ← List.append_assoc, ← htext]
          · rw [utf8Length_blanks]
            rfl
          · rw [hlayout] at hk
            cases hk
        · obtain ⟨left, part, right, hcode, hspan, hw⟩ := (cut_of_place hb).stretch t htm
          obtain ⟨right', htext⟩ := hl.stretch_of_code hcode
          refine ⟨blanks (leading text) ++ left, part, right' ++ rest, ?_, ?_, fun _ => hw⟩
          · rw [← List.append_assoc, ← htext]
          · rw [hspan, utf8Length_append, utf8Length_blanks, Nat.add_assoc]
      · rcases List.mem_cons.1 htm with rfl | htm
        · exact ⟨text, [], rest, by simp, rfl, fun hk => by cases hk⟩
        · obtain ⟨left, part, right, rfl, hspan, hw⟩ := ih t htm
          refine ⟨text ++ left, part, right, by simp, ?_, hw⟩
          rw [hspan, utf8Length_append, Nat.add_assoc]

end Scanned

/-! ### What belongs to no token -/

/-- No token has a byte, layout apart. -/
def Uncovered (ts : List Token) (byte : Nat) : Prop :=
  ∀ t ∈ ts, t.kind.isLayout = false → ¬ t.span.Has byte

/-- Why the character `c`, between `before` and `after`, belongs to no token: it is white space between tokens; or it
stands in a comment, which begins with a `#` outside of all tokens; or its line is blank up to the end or a comment. -/
inductive Unread (ts : List Token) (before : List Char) (c : Char) (after : List Char) : Prop
  | space (h : c = ' ' ∨ c = '\x0c' ∨ c = '\r' ∨ c = '\n') : Unread ts before c after
  | comment (pre note : List Char) (h : before ++ [c] = pre ++ '#' :: note) (hn : '\n' ∉ note)
      (hu : Uncovered ts (utf8Length pre)) : Unread ts before c after
  | blankLine (pre left right post : List Char) (hb : before = pre ++ left) (ha : after = right ++ post)
      (hpre : pre = [] ∨ pre.getLast? = some '\n')
      (hpost : post = [] ∨ post.head? = some '\n' ∨ post.head? = some '#')
      (h : ∀ d ∈ left ++ c :: right, Text.isBlank d = true ∧ d ≠ '\n') : Unread ts before c after

section Parts

variable {text rest comment cr lf before left right : List Char} {c : Char} {all : List Token} {n : Nat}

/-- A comment begins after the tokens of its line and before all later ones. -/
theorem Parts.uncovered (h : Parts text rest comment cr lf) (hne : comment ≠ [])
    (hall : ∀ t ∈ all, t.kind.isLayout = false → t.span.stop ≤ n + (leading text + utf8Length (codeOf text)) ∨
      n + utf8Length text ≤ t.span.offset) :
    Uncovered all (n + (leading text + utf8Length (codeOf text))) := by
  intro t ht hk hhas
  have hlength := h.length_le
  have hpos := utf8Length_pos hne
  have hstart := hhas.1
  have hstop := hhas.2
  rcases hall t ht hk with hle | hle <;> omega

/-- A character of a line belongs to its code, or else it needs no token. -/
theorem Parts.unread_or_code (h : Parts text rest comment cr lf) (ht : text = left ++ c :: right)
    (hfree : comment ≠ [] → Uncovered all (utf8Length before + (leading text + utf8Length (codeOf text)))) :
    Unread all (before ++ left) c (right ++ rest) ∨ ∃ l r, left = blanks (leading text) ++ l ∧
      codeOf text = l ++ c :: r ∧ right = r ++ comment ++ cr ++ lf := by
  have hsplit := h.text_eq.symm.trans ht
  rcases append_split hsplit with ⟨r₁, h₁, rfl⟩ | ⟨l, -, hlf⟩
  · rcases append_split h₁ with ⟨r₂, h₂, rfl⟩ | ⟨l, -, hcr⟩
    · rcases append_split h₂ with ⟨r₃, h₃, rfl⟩ | ⟨l, rfl, hcomment⟩
      · rcases append_split h₃ with ⟨r, hblanks, -⟩ | ⟨l, rfl, hcode⟩
        · left
          refine .space (.inl (List.eq_of_mem_replicate (n := leading text) ?_))
          rw [show List.replicate (leading text) ' ' = left ++ c :: r from hblanks]
          exact List.mem_append_right _ List.mem_cons_self
        · exact .inr ⟨l, r₃, rfl, hcode, rfl⟩
      · left
        have hne : comment ≠ [] := by
          rw [hcomment]
          simp
        have hfeed : '\n' ∉ l ++ [c] := by
          intro hmem
          refine h.no_feed (List.mem_append_right _ ?_)
          rw [hcomment, show l ++ c :: r₂ = (l ++ [c]) ++ r₂ by simp]
          exact List.mem_append_left _ hmem
        obtain ⟨note, hnote⟩ : ∃ note, l ++ [c] = '#' :: note := by
          obtain ⟨note, hnote⟩ := h.comment_eq.resolve_left hne
          rw [hcomment] at hnote
          cases l with
          | nil =>
              cases hnote
              exact ⟨[], rfl⟩
          | cons d l =>
              cases hnote
              exact ⟨l ++ [c], rfl⟩
        refine .comment (before ++ (blanks (leading text) ++ codeOf text)) note ?_ ?_ ?_
        · rw [List.append_assoc, List.append_assoc _ l, hnote, List.append_assoc before]
        · rw [hnote] at hfeed
          exact fun hmem => hfeed (List.mem_cons_of_mem _ hmem)
        · rw [utf8Length_append, utf8Length_append, utf8Length_blanks]
          exact hfree hne
    · left
      rcases h.cr_eq with rfl | rfl
      · simp at hcr
      · refine .space (.inr (.inr (.inl (List.mem_singleton.1 ?_))))
        rw [hcr]
        exact List.mem_append_right _ List.mem_cons_self
  · left
    rcases h.lf_eq with rfl | ⟨rfl, -⟩
    · refine .space (.inr (.inr (.inr (List.mem_singleton.1 ?_))))
      rw [hlf]
      exact List.mem_append_right _ List.mem_cons_self
    · simp at hlf

/-- The code of a blank line is white space. -/
theorem Parts.unread_of_blank {l r : List Char} (h : Parts text rest comment cr lf)
    (hblank : isEmptyLine text = true) (hbefore : before = [] ∨ before.getLast? = some '\n')
    (hcode : codeOf text = l ++ c :: r) :
    Unread all (before ++ (blanks (leading text) ++ l)) c (r ++ comment ++ cr ++ lf ++ rest) := by
  have hmem : ∀ d ∈ codeOf text, Text.isBlank d = true ∧ d ≠ '\n' := by
    intro d hd
    refine ⟨List.all_eq_true.1 hblank d hd, fun heq => h.no_feed ?_⟩
    rw [← heq]
    exact List.mem_append_left _ hd
  have hshown : ∀ d ∈ (blanks (leading text) ++ l) ++ c :: r, Text.isBlank d = true ∧ d ≠ '\n' := by
    intro d hd
    rw [List.append_assoc, ← hcode] at hd
    rcases List.mem_append.1 hd with hd | hd
    · rw [List.eq_of_mem_replicate hd]
      decide
    · exact hmem d hd
  rcases h.comment_eq with rfl | ⟨note, rfl⟩
  · refine .blankLine before _ (r ++ cr) (lf ++ rest) rfl (by simp) hbefore ?_ ?_
    · rcases h.lf_eq with rfl | ⟨rfl, rfl⟩
      · exact .inr (.inl rfl)
      · exact .inl rfl
    · intro d hd
      rw [← List.cons_append, ← List.append_assoc] at hd
      rcases List.mem_append.1 hd with hd | hd
      · exact hshown d hd
      · rcases h.cr_eq with rfl | rfl
        · cases hd
        · rw [List.mem_singleton.1 hd]
          decide
  · exact .blankLine before _ r ('#' :: note ++ cr ++ lf ++ rest) rfl (by simp) hbefore
      (.inr (.inr rfl)) hshown

end Parts

/-- The line after an ended one starts anew. -/
theorem IsLine.getLast?_eq {text rest : List Char} (h : IsLine text rest) (before : List Char) :
    (before ++ text).getLast? = some '\n' ∨ rest = [] := by
  cases h with
  | ended body rest h =>
      left
      rw [← List.append_assoc]
      exact List.getLast?_concat
  | last h hne => exact .inr rfl

/-- **Nothing is left unread without a reason.** The text stands after `before`, and `all` has, beyond the tokens of the
text, only tokens that end before it. -/
theorem Scanned.unread {offset : Nat} {opened : List Nat} {cs left after : List Char} {c : Char}
    {ts all : List Token} (h : Scanned offset opened cs ts) (before : List Char) (hoffset : utf8Length before = offset)
    (hbefore : before = [] ∨ before.getLast? = some '\n' ∨ cs = []) (hsub : ∀ t ∈ ts, t ∈ all)
    (hall : ∀ t ∈ all, t ∈ ts ∨ t.span.stop ≤ offset) (hcs : cs = left ++ c :: after)
    (hu : Uncovered all (offset + utf8Length left)) : Unread all (before ++ left) c after := by
  induction h generalizing before left with
  | done offset opened => simp at hcs
  | @blank offset opened text rest ts hl h hs ih =>
      obtain ⟨comment, cr, lf, hparts⟩ := hl.exists_parts
      rcases append_split hcs with ⟨right, htext, rfl⟩ | ⟨left, rfl, hrest⟩
      · have hfree : comment ≠ [] →
            Uncovered all (utf8Length before + (leading text + utf8Length (codeOf text))) := by
          refine fun hne => hparts.uncovered hne fun t ht _ => ?_
          rw [hoffset]
          rcases hall t ht with htm | hstop
          · exact .inr (hs.le_offset t htm)
          · exact .inl (Nat.le_trans hstop (Nat.le_add_right _ _))
        rcases hparts.unread_or_code htext hfree with hunread | ⟨l, r, rfl, hcode, rfl⟩
        · exact hunread
        · refine hparts.unread_of_blank h ?_ hcode
          rcases hbefore with hnil | hlast | hcs'
          · exact .inl hnil
          · exact .inr hlast
          · rw [hcs'] at hcs
            simp at hcs
      · rw [← List.append_assoc]
        refine ih _ ?_ ?_ hsub ?_ hrest ?_
        · rw [utf8Length_append, hoffset]
        · exact .inr (hl.getLast?_eq before)
        · exact fun t ht => (hall t ht).imp_right (fun hle => Nat.le_trans hle (Nat.le_add_right _ _))
        · rwa [utf8Length_append, ← Nat.add_assoc] at hu
  | @line offset opened opened' text rest layout body ts hl h ht hi hb hs ih =>
      have hcut := cut_of_place hb
      obtain ⟨comment, cr, lf, hparts⟩ := hl.exists_parts
      rcases append_split hcs with ⟨right, htext, rfl⟩ | ⟨left, rfl, hrest⟩
      · have hfree : comment ≠ [] →
            Uncovered all (utf8Length before + (leading text + utf8Length (codeOf text))) := by
          refine fun hne => hparts.uncovered hne fun t htm hk => ?_
          rw [hoffset]
          rcases hall t htm with htm | hstop
          · rcases List.mem_append.1 htm with htm | htm
            · rcases List.mem_append.1 htm with htm | htm
              · rw [isLayout_of_mem_placed hi htm] at hk
                cases hk
              · rw [← Nat.add_assoc]
                exact .inl (hcut.within t htm).2
            · rcases List.mem_cons.1 htm with rfl | htm
              · cases hk
              · exact .inr (hs.le_offset t htm)
          · exact .inl (Nat.le_trans hstop (Nat.le_add_right _ _))
        rcases hparts.unread_or_code htext hfree with hunread | ⟨l, r, rfl, hcode, rfl⟩
        · exact hunread
        · rcases hcut.covers hcode with hgap | ⟨t, htm, hhas⟩
          · refine .space ?_
            simp only [Lexeme.isGap, Bool.or_eq_true, decide_eq_true_eq] at hgap
            obtain (rfl | rfl) | rfl := hgap <;> simp
          · refine absurd ?_ (hu t (hsub t ?_) (hcut.isLayout_eq t htm))
            · rwa [utf8Length_append, utf8Length_blanks, ← Nat.add_assoc]
            · exact List.mem_append_left _ (List.mem_append_right _ htm)
      · have hlater : ∀ t ∈ ts, t ∈ placed offset layout text ++ body ++ lineEnd offset text :: ts :=
          fun t htm => List.mem_append_right _ (List.mem_cons_of_mem _ htm)
        rw [← List.append_assoc]
        refine ih _ ?_ ?_ (fun t htm => hsub t (hlater t htm)) (fun t htm => ?_) hrest ?_
        · rw [utf8Length_append, hoffset]
        · exact .inr (hl.getLast?_eq before)
        · rcases hall t htm with htm | hle
          · rcases List.mem_append.1 htm with htm | htm
            · exact .inr (within_line layout hl hcut t htm).2
            · rcases List.mem_cons.1 htm with rfl | htm
              · exact .inr (Nat.le_refl _)
              · exact .inl htm
          · exact .inr (Nat.le_trans hle (Nat.le_add_right _ _))
        · rwa [utf8Length_append, ← Nat.add_assoc] at hu

end Scan

namespace Token

open Scan

/-- The tokens `ts` lose nothing of a text. They stand in it one after another; layout apart, each has a stretch of its
own, which begins and ends between characters and is written as the token; and what lies in none is no code. -/
structure Lossless (source : String) (ts : List Token) : Prop where
  ordered : ts.Pairwise (fun t u => t.span.offset ≤ u.span.offset)
  inside : ∀ t ∈ ts, t.span.stop ≤ source.utf8ByteSize
  disjoint : (ts.filter (fun t => !t.kind.isLayout)).Pairwise (fun t u => t.span.stop ≤ u.span.offset)
  written : ∀ t ∈ ts, t.kind.isLayout = false → ∃ text, t.span.Cuts source.toList text ∧ t.kind.Written text
  unread : ∀ before c after, source.toList = before ++ c :: after →
    Uncovered ts (utf8Length before) → Unread ts before c after

/-- **Scanning loses nothing.** -/
theorem scan_lossless {source : String} {ts : List Token} (h : Token.scan source = .ok ts) :
    Lossless source ts := by
  have hscanned : Scanned 0 [] source.toList ts := fromLines_eq_ok.1 h
  have hcuts : ∀ t ∈ ts, ∃ text, t.span.Cuts source.toList text ∧ (t.kind.isLayout = false → t.kind.Written text) := by
    intro t ht
    obtain ⟨left, text, right, hcs, hspan, hw⟩ := hscanned.stretch t ht
    refine ⟨text, ⟨left, right, hcs, ?_, ?_⟩, hw⟩
    · rw [hspan, Nat.zero_add]
    · rw [hspan]
  constructor
  case ordered => exact hscanned.ordered.imp And.left
  case inside =>
    intro t ht
    obtain ⟨text, hcut, -⟩ := hcuts t ht
    rw [← utf8Length_toList]
    exact hcut.stop_le
  case disjoint =>
    refine List.pairwise_filter.2 (hscanned.ordered.imp fun hbefore hk _ => hbefore.2 ?_)
    simpa using hk
  case written =>
    intro t ht hk
    obtain ⟨text, hcut, hw⟩ := hcuts t ht
    exact ⟨text, hcut, hw hk⟩
  case unread =>
    intro before c after hcs hu
    refine hscanned.unread [] rfl (.inl rfl) (fun _ ht => ht) (fun _ ht => .inl ht) hcs ?_
    rwa [Nat.zero_add]

/-- Comments, wide characters, both line ends and a line of white space that is none between tokens. -/
def raggedText : String := "# é\ndef f(n):\r\n \u2003\n    g(0x1F, 'é#\\n')  # ü"

theorem scan_lossless_ragged : ∃ ts, Token.scan raggedText = .ok ts
    ∧ (ts.filter (fun t => !t.kind.isLayout)).map (fun t => (t.kind, t.span.offset, t.span.length))
      = [(.kwDef, 5, 3), (.ident "f", 9, 1), (.lparen, 10, 1), (.ident "n", 11, 1), (.rparen, 12, 1),
          (.colon, 13, 1), (.ident "g", 25, 1), (.lparen, 26, 1), (.int 31, 27, 4), (.comma, 31, 1),
          (.str "é#\n", 33, 7), (.rparen, 40, 1)]
    ∧ Lossless raggedText ts :=
  ⟨_, rfl, by decide +kernel, scan_lossless rfl⟩

end Token

end CostBound
