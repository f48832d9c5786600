import CostBound.Proofs.Scanning

/-!
# Lines inside lines

The layout tokens of a text mirror a stack of widths. A line that is deeper than the one before it opens a width, any
other line closes the widths that are greater than its own, and the end of the text closes all.

* `Scan.nest`, `Scan.openAfter` — the open widths after a line, and after some lines.
* `Scan.indentation_eq_some` — the layout tokens before a line, and the widths that are open after them.
* `Scan.Row` — a line as tokens: layout, at least one token of its own, and its end.
* `Scan.Nests` — rows that follow the open widths; `Scan.Scanned.rows` says that scanned lines do.
* `Token.scan_nests` — the tokens of a text as such rows, with as many `indent`s open as there are widths.
-/

namespace CostBound

open Token (Kind)
open TokenReader (kinds)

namespace Scan

/-! ### Open widths -/

/-- The widths that are open inside a line of width `w`, the innermost first: a deeper line opens its own, any other
closes the greater ones. -/
def nest (opened : List Nat) (w : Nat) : List Nat :=
  if opened.headD 0 < w then w :: opened else opened.dropWhile (w < ·)

/-- The widths that are open after lines of the given widths. -/
def openAfter (widths : List Nat) : List Nat := widths.foldl nest []

/-- Each width is greater than those around it, and none is zero. -/
structure Nested (opened : List Nat) : Prop where
  decreasing : opened.Pairwise (· > ·)
  positive : ∀ w ∈ opened, 0 < w

theorem nested_nil : Nested [] := ⟨.nil, List.forall_mem_nil _⟩

theorem Nested.le_head {opened : List Nat} (h : Nested opened) : ∀ w ∈ opened, w ≤ opened.headD 0 := by
  cases opened with
  | nil => exact List.forall_mem_nil _
  | cons a opened =>
      refine List.forall_mem_cons.2 ⟨Nat.le_refl a, fun w hw => ?_⟩
      exact Nat.le_of_lt ((List.pairwise_cons.1 h.decreasing).1 w hw)

theorem Nested.push {opened : List Nat} {w : Nat} (h : Nested opened) (hw : opened.headD 0 < w) :
    Nested (w :: opened) where
  decreasing := List.pairwise_cons.2 ⟨fun v hv => Nat.lt_of_le_of_lt (h.le_head v hv) hw, h.decreasing⟩
  positive := List.forall_mem_cons.2 ⟨Nat.zero_lt_of_lt hw, h.positive⟩

theorem Nested.dropWhile {opened : List Nat} (h : Nested opened) (p : Nat → Bool) :
    Nested (opened.dropWhile p) where
  decreasing := h.decreasing.sublist (List.dropWhile_sublist p)
  positive := fun w hw => h.positive w ((List.dropWhile_sublist p).subset hw)

/-- A width that is not less than the innermost one closes nothing. -/
theorem takeWhile_of_head_le {opened : List Nat} {w : Nat} (hw : opened.headD 0 ≤ w) :
    opened.takeWhile (w < ·) = [] ∧ opened.dropWhile (w < ·) = opened := by
  cases opened with
  | nil => exact ⟨rfl, rfl⟩
  | cons a opened =>
      have ha : ¬ decide (w < a) = true := by
        simpa using hw
      exact ⟨List.takeWhile_cons_of_neg ha, List.dropWhile_cons_of_neg ha⟩

/-- **The layout before a line.** Either one `indent` opens the width of the line, or a `dedent` closes each greater
one; after that the width of the line is the innermost one. -/
theorem indentation_eq_some {opened opened' : List Nat} {w : Nat} {layout : List Kind}
    (h : indentation opened w = some (layout, opened')) :
    opened' = nest opened w ∧ opened'.headD 0 = w ∧
      (layout = [.indent] ∧ opened'.length = opened.length + 1 ∨
        ∃ n, layout = List.replicate n .dedent ∧ opened.length = n + opened'.length) := by
  unfold indentation at h
  dsimp only at h
  by_cases hdeeper : opened.headD 0 < w
  · obtain ⟨htake, hdrop⟩ := takeWhile_of_head_le (Nat.le_of_lt hdeeper)
    rw [htake, hdrop, if_neg (Nat.ne_of_lt hdeeper)] at h
    cases h
    refine ⟨?_, rfl, .inl ⟨rfl, rfl⟩⟩
    rw [nest, if_pos hdeeper]
  · have hlength : opened.length
        = (opened.takeWhile (w < ·)).length + (opened.dropWhile (w < ·)).length := by
      rw [← List.length_append, List.takeWhile_append_dropWhile]
    by_cases htop : (opened.dropWhile (w < ·)).headD 0 = w
    · rw [if_pos htop] at h
      cases h
      refine ⟨?_, htop, .inr ⟨_, rfl, hlength⟩⟩
      rw [nest, if_neg hdeeper]
    · -- nothing is closed only if the width is already the innermost one
      rw [if_neg htop] at h
      split at h
      · rename_i hclosing
        rw [List.isEmpty_iff] at hclosing
        have hkept : opened.dropWhile (w < ·) = opened := by
          have := List.takeWhile_append_dropWhile (p := (w < ·)) (l := opened)
          rwa [hclosing, List.nil_append] at this
        rw [hkept] at htop
        cases opened with
        | nil => exact absurd (Nat.le_zero.1 (Nat.le_of_not_lt hdeeper)).symm htop
        | cons a opened =>
            have ha : w < a := Nat.lt_of_le_of_ne (Nat.le_of_not_lt hdeeper) (Ne.symm htop)
            rw [List.takeWhile_cons_of_pos (by simpa using ha)] at hclosing
            cases hclosing
      · cases h

theorem Nested.nest {opened : List Nat} (h : Nested opened) (w : Nat) : Nested (nest opened w) := by
  unfold Scan.nest
  by_cases hw : opened.headD 0 < w
  · rw [if_pos hw]
    exact h.push hw
  · rw [if_neg hw]
    exact h.dropWhile _

/-! ### Rows -/

/-- A line among the tokens of a text: one `indent` or any number of `dedent`s, tokens of its own, and its end. -/
structure Row where
  text : List Char
  layout : List Kind
  body : List Kind
  layout_eq : layout = [.indent] ∨ ∃ n, layout = List.replicate n .dedent
  body_ne_nil : body ≠ []
  body_plain : ∀ k ∈ body, k.isLayout = false

namespace Row

def kinds (r : Row) : List Kind := r.layout ++ r.body ++ [.newline]

/-- The margin of the line. -/
def width (r : Row) : Nat := leading r.text

/-- Only the layout of a row opens or closes a width. -/
theorem count_kinds (r : Row) {k : Kind} (hk : k.isLayout = true) (hn : k ≠ .newline) :
    r.kinds.count k = r.layout.count k := by
  have hbody : r.body.count k = 0 := by
    refine List.count_eq_zero.2 (fun hmem => ?_)
    rw [r.body_plain k hmem] at hk
    cases hk
  have hend : [Kind.newline].count k = 0 := List.count_eq_zero.2 (by simpa using hn)
  unfold kinds
  rw [List.count_append, List.count_append, hbody, hend]
  rfl

/-- A row closes what is open, or opens one width. -/
theorem count_dedent_or (r : Row) : r.layout.count .dedent = 0 ∨ r.layout.count .indent = 0 := by
  obtain h | ⟨n, h⟩ := r.layout_eq
  · left
    rw [h]
    rfl
  · right
    rw [h, List.count_replicate, if_neg (by decide)]

/-- A row follows the widths that are open before it. -/
structure Enters (opened : List Nat) (r : Row) : Prop where
  top : (nest opened r.width).headD 0 = r.width
  count : r.layout.count .indent + opened.length = r.layout.count .dedent + (nest opened r.width).length

end Row

/-- Rows that follow the widths that are open before each. -/
def Nests : List Nat → List Row → Prop
  | _, [] => True
  | opened, r :: rows => r.Enters opened ∧ Nests (nest opened r.width) rows

/-- The widths that are open after rows. -/
def openRows (opened : List Nat) (rows : List Row) : List Nat := (rows.map Row.width).foldl nest opened

/-- The tokens of rows, and the end of the text. -/
def rowKinds (opened : List Nat) (rows : List Row) : List Kind :=
  rows.flatMap Row.kinds ++ List.replicate (openRows opened rows).length .dedent ++ [.eof]

theorem kinds_closing (offset : Nat) (opened : List Nat) :
    kinds (closing offset opened) = List.replicate opened.length .dedent ++ [.eof] := by
  unfold closing
  rw [TokenReader.kinds_append, TokenReader.kinds, List.map_map]
  show opened.map (fun _ => Kind.dedent) ++ _ = _
  rw [List.map_const']
  rfl

/-- **Scanned lines are rows** that follow the open widths; blank lines are passed over. -/
theorem Scanned.rows {offset : Nat} {opened : List Nat} {cs : List Char} {ts : List Token}
    (h : Scanned offset opened cs ts) :
    ∃ rows, kinds ts = rowKinds opened rows ∧
      rows.map Row.text = (lines cs).filter (fun text => !isEmptyLine text) ∧ Nests opened rows := by
  induction h with
  | done offset opened => exact ⟨[], kinds_closing offset opened, rfl, trivial⟩
  | blank hl h hs ih =>
      obtain ⟨rows, hkinds, htexts, hnests⟩ := ih
      refine ⟨rows, hkinds, ?_, hnests⟩
      rw [htexts, hl.lines_append, List.filter_cons_of_neg (by simp [h])]
  | @line offset opened opened' text rest layout body ts hl h ht hi hb hs ih =>
      obtain ⟨rows, hkinds, htexts, hnests⟩ := ih
      obtain ⟨hnest, htop, hlayout⟩ := indentation_eq_some hi
      have hcut := cut_of_place hb
      have hbody : ∀ k ∈ kinds body, k.isLayout = false := by
        intro k hk
        obtain ⟨t, htm, rfl⟩ := List.mem_map.1 hk
        exact hcut.isLayout_eq t htm
      have hne : kinds body ≠ [] := fun hnil => hcut.ne_nil h (List.map_eq_nil_iff.1 hnil)
      let r : Row := ⟨text, layout, kinds body, hlayout.imp And.left (fun ⟨n, hn⟩ => ⟨n, hn.1⟩), hne, hbody⟩
      have henters : r.Enters opened := by
        refine ⟨?_, ?_⟩
        · show (nest opened (leading text)).headD 0 = leading text
          rw [← hnest]
          exact htop
        show layout.count .indent + opened.length = layout.count .dedent + (nest opened (leading text)).length
        rw [← hnest]
        obtain ⟨rfl, hlength⟩ | ⟨n, rfl, hlength⟩ := hlayout
        · rw [hlength]
          show 1 + opened.length = 0 + (opened.length + 1)
          omega
        · rw [hlength, List.count_replicate, List.count_replicate, if_neg (by decide), if_pos (by decide)]
          omega
      refine ⟨r :: rows, ?_, ?_, henters, ?_⟩
      · rw [TokenReader.kinds_append, TokenReader.kinds_append, TokenReader.kinds_cons, hkinds, hnest]
        show kinds (layout.map _) ++ kinds body ++ Kind.newline :: rowKinds (nest opened r.width) rows = _
        rw [TokenReader.kinds_map_mk]
        simp [rowKinds, openRows, Row.kinds, r]
      · rw [hl.lines_append, List.filter_cons_of_pos (by simp [h]), ← htexts]
        rfl
      · rwa [hnest] at hnests

/-! ### Counting -/

section Counting

variable {opened : List Nat} {rows : List Row}

theorem openRows_cons (opened : List Nat) (r : Row) (rows : List Row) :
    openRows opened (r :: rows) = openRows (nest opened r.width) rows := rfl

/-- **The open widths are counted.** What rows open, beyond what was open before, is what they close and what is
open after them. -/
theorem Nests.count (h : Nests opened rows) :
    (rows.flatMap Row.kinds).count .indent + opened.length
      = (rows.flatMap Row.kinds).count .dedent + (openRows opened rows).length := by
  induction rows generalizing opened with
  | nil => rfl
  | cons r rows ih =>
      have hrow := h.1.count
      have hrows := ih h.2
      rw [List.flatMap_cons, List.count_append, List.count_append, openRows_cons,
        r.count_kinds rfl (by decide), r.count_kinds rfl (by decide)]
      omega

/-- At each row the innermost open width is that of the row, and the rows up to its layout have opened as many
widths as are open, beyond those they closed. -/
theorem Nests.at_row {before after : List Row} {r : Row} (h : Nests opened (before ++ r :: after)) :
    (openRows opened (before ++ [r])).headD 0 = r.width ∧
      (before.flatMap Row.kinds ++ r.layout).count .indent + opened.length
        = (before.flatMap Row.kinds ++ r.layout).count .dedent + (openRows opened (before ++ [r])).length := by
  induction before generalizing opened with
  | nil => exact ⟨h.1.top, h.1.count⟩
  | cons b before ih =>
      obtain ⟨htop, hcount⟩ := ih h.2
      have hrow := h.1.count
      rw [List.cons_append, openRows_cons]
      refine ⟨htop, ?_⟩
      rw [List.flatMap_cons, List.append_assoc, List.count_append, List.count_append (a := Kind.dedent),
        b.count_kinds rfl (by decide), b.count_kinds rfl (by decide)]
      omega

theorem nested_openRows (h : Nested opened) (rows : List Row) : Nested (openRows opened rows) := by
  induction rows generalizing opened with
  | nil => exact h
  | cons r rows ih => exact ih (h.nest r.width)

theorem count_closing (opened : List Nat) (k : Kind) (hk : k ≠ .eof) :
    (List.replicate opened.length Kind.dedent ++ [Kind.eof]).count k
      = if k = .dedent then opened.length else 0 := by
  have hend : [Kind.eof].count k = 0 := List.count_eq_zero.2 (by simpa using hk)
  rw [List.count_append, hend, List.count_replicate, Nat.add_zero]
  by_cases h : k = .dedent
  · subst h
    rfl
  · rw [if_neg h, if_neg (by simpa using fun heq => h heq.symm)]

/-- In all, everything that was opened is closed. -/
theorem Nests.count_rowKinds (h : Nests opened rows) :
    (rowKinds opened rows).count .indent + opened.length = (rowKinds opened rows).count .dedent := by
  have hrows := h.count
  have hindent := count_closing (openRows opened rows) .indent (by decide)
  have hdedent := count_closing (openRows opened rows) .dedent (by decide)
  rw [if_neg (by decide)] at hindent
  rw [if_pos rfl] at hdedent
  unfold rowKinds
  rw [List.append_assoc, List.count_append, List.count_append (a := Kind.dedent), hindent, hdedent]
  omega

/-- No beginning of the tokens closes more than was opened. -/
theorem Nests.count_prefix (h : Nests opened rows) {ks : List Kind} (hks : ks <+: rowKinds opened rows) :
    ks.count .dedent ≤ ks.count .indent + opened.length := by
  induction rows generalizing opened ks with
  | nil =>
      have hle : ks.count .dedent ≤ _ := hks.sublist.count_le _
      have hclosing : (rowKinds opened []).count .dedent = opened.length := count_closing opened _ (by decide)
      omega
  | cons r rows ih =>
      have hsplit : rowKinds opened (r :: rows) = r.kinds ++ rowKinds (nest opened r.width) rows := by
        simp [rowKinds, openRows_cons]
      have hrow := h.1.count
      have hindent := r.count_kinds (k := .indent) rfl (by decide)
      have hdedent := r.count_kinds (k := .dedent) rfl (by decide)
      rw [hsplit] at hks
      obtain hinside | ⟨later, rfl⟩ := List.prefix_or_prefix_of_prefix hks (List.prefix_append _ _)
      · -- within the row, only its layout counts, and that either opens or closes
        have hle : ks.count .dedent ≤ _ := hinside.sublist.count_le _
        obtain hnone | hnone := r.count_dedent_or <;> omega
      · have hlater := ih h.2 ((List.prefix_append_right_inj _).1 hks)
        rw [List.count_append, List.count_append]
        omega

end Counting

end Scan

namespace Token

open Scan

/-- **The tokens of a text are nested lines.** They are rows, one for each line that is not blank, and then the end of
the text. At each row as many `indent`s are open as there are open widths, which increase strictly from the outermost,
which is positive, to that of the row. No beginning of the tokens has more `dedent`s than `indent`s, and in all
there are as many of the one as of the other. -/
theorem scan_nests {source : String} {ts : List Token} (h : Token.scan source = .ok ts) :
    ∃ (rows : List Row) (n : Nat),
      kinds ts = rows.flatMap Row.kinds ++ List.replicate n .dedent ++ [.eof]
      ∧ rows.map Row.text = (lines source.toList).filter (fun text => !isEmptyLine text)
      ∧ (∀ before r after opened, rows = before ++ r :: after →
          opened = openAfter ((before ++ [r]).map Row.width) →
          opened.Pairwise (· > ·) ∧ (∀ w ∈ opened, 0 < w) ∧ opened.headD 0 = r.width
            ∧ (before.flatMap Row.kinds ++ r.layout).count .indent
              = (before.flatMap Row.kinds ++ r.layout).count .dedent + opened.length)
      ∧ (∀ ks, ks <+: kinds ts → ks.count .dedent ≤ ks.count .indent)
      ∧ (kinds ts).count .indent = (kinds ts).count .dedent := by
  obtain ⟨rows, hkinds, htexts, hnests⟩ := (fromLines_eq_ok.1 h).rows
  refine ⟨rows, _, hkinds, htexts, ?_, fun ks hks => ?_, ?_⟩
  · rintro before r after opened rfl rfl
    have hnested := nested_openRows nested_nil (before ++ [r])
    obtain ⟨htop, hcount⟩ := hnests.at_row
    exact ⟨hnested.decreasing, hnested.positive, htop, hcount⟩
  · rw [hkinds] at hks
    exact hnests.count_prefix hks
  · rw [hkinds]
    exact hnests.count_rowKinds

/-- Two widths are closed by one line, blank lines and comments between them apart, and one by the end. -/
def steppedText : String := "def f(n):\n  if n:\n     pass\n \n  # note\ndef g():\n   pass"

theorem scan_nests_stepped : ∃ (ts : List Token) (rows : List Row) (n : Nat), Token.scan steppedText = .ok ts
    ∧ kinds ts = rows.flatMap Row.kinds ++ List.replicate n .dedent ++ [.eof]
    ∧ rows.map Row.width = [0, 2, 5, 0, 3]
    ∧ openAfter [0, 2, 5] = [5, 2] ∧ openAfter [0, 2, 5, 0] = [] ∧ openAfter [0, 2, 5, 0, 3] = [3]
    ∧ (kinds ts).count .dedent = 3 := by
  have hscan : Token.scan steppedText = .ok _ := rfl
  obtain ⟨rows, n, hkinds, htexts, -, -, htotal⟩ := scan_nests hscan
  refine ⟨_, rows, n, hscan, hkinds, ?_, by decide, by decide, by decide, ?_⟩
  · show rows.map (leading ∘ Row.text) = _
    rw [← List.map_map, htexts]
    decide +kernel
  · rw [← htotal]
    decide +kernel

end Token

end CostBound
