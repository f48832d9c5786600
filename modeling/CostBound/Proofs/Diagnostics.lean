import CostBound.Proofs.Balanced

/-!
# Errors point into the text

* `Span.Inside` — a span that lies in a text and begins and ends between characters.
* `Scan.fromLines_eq_error` — a fault of the scanner is a stretch of the text.
* `SourceError.inside_of_runOn` — the errors of a reader that never looks past its tokens are inside.
* `Span.between?`, `Span.join?`, `Token.scan?` — spans made from ends that must be in order, and scanning with them.
* `SourceError.span_inside` — every error points into the text, and no span is made from ends out of order.
-/

namespace CostBound

open Token (Kind)
open TokenReader

/-! ### Places in a text -/

/-- The span lies in a text, and both of its ends are between characters. -/
structure Span.Inside (source : String) (s : Span) : Prop where
  stop_le : s.stop ≤ source.utf8ByteSize
  offset_valid : (String.Pos.Raw.mk s.offset).IsValid source
  stop_valid : (String.Pos.Raw.mk s.stop).IsValid source

theorem isValid_of_append {source : String} {left right : List Char} (h : source.toList = left ++ right) :
    (String.Pos.Raw.mk (utf8Length left)).IsValid source := by
  refine String.Pos.Raw.isValid_iff_exists_append.2 ⟨String.ofList left, String.ofList right, ?_, ?_⟩
  · rw [← String.ofList_append, ← h, String.ofList_toList]
  · rw [utf8Length_ofList]
    rfl

theorem Span.inside_of_stretch {source : String} {left text right : List Char}
    (h : source.toList = left ++ text ++ right) : Span.Inside source ⟨utf8Length left, utf8Length text⟩ := by
  have hstop : Span.stop ⟨utf8Length left, utf8Length text⟩ = utf8Length (left ++ text) :=
    (utf8Length_append left text).symm
  refine ⟨?_, ?_, ?_⟩
  · rw [hstop, ← utf8Length_toList, h, utf8Length_append _ right]
    exact Nat.le_add_right _ _
  · rw [List.append_assoc] at h
    exact isValid_of_append h
  · rw [hstop]
    exact isValid_of_append h

theorem Span.Marked.inside {source : String} {ts : List Token} {s : Span} (h : s.Marked ts)
    (hts : ∀ t ∈ ts, t.span.Inside source) : s.Inside source := by
  obtain ⟨⟨t, ht, hoffset⟩, u, hu, hstop⟩ := h
  refine ⟨?_, ?_, ?_⟩
  · rw [← hstop]
    exact (hts u hu).stop_le
  · rw [← hoffset]
    exact (hts t ht).offset_valid
  · rw [← hstop]
    exact (hts u hu).stop_valid

/-! ### Errors -/

namespace Scan

/-- The fault of a line is a stretch of it. -/
theorem line_eq_error {offset : Nat} {opened : List Nat} {text rest : List Char} {e : ScanError}
    (hl : IsLine text rest) (h : line offset opened text = .error e) :
    ∃ left part right, text = left ++ part ++ right ∧ e.span = ⟨offset + utf8Length left, utf8Length part⟩ := by
  have hwhole : ∃ left part right, text = left ++ part ++ right ∧
      Span.mk offset (utf8Length text) = ⟨offset + utf8Length left, utf8Length part⟩ :=
    ⟨[], text, [], (List.append_nil text).symm, rfl⟩
  rw [line_eq] at h
  by_cases ht : '\t' ∈ content text
  · simp only [List.contains_eq_mem, ht, decide_true, if_true] at h
    cases h
    exact hwhole
  · simp only [List.contains_eq_mem, ht, decide_false, Bool.false_eq_true, if_false] at h
    split at h
    · cases h
      exact hwhole
    · obtain hplace | ⟨body, -, hok⟩ := except_bind_eq_error.1 h
      · obtain ⟨left, part, right, hcode, hspan⟩ := exists_stretch_of_place_error hplace
        obtain ⟨right', htext⟩ := hl.stretch_of_code hcode
        refine ⟨_, part, right', htext, ?_⟩
        rw [hspan, utf8Length_append, utf8Length_blanks, ← Nat.add_assoc]
        rfl
      · cases hok

/-- The first fault of a text is a stretch of it. -/
theorem fromLines_eq_error {offset : Nat} {opened : List Nat} {cs : List Char} {e : ScanError}
    (h : fromLines offset opened (lines cs) = .error e) :
    ∃ left part right, cs = left ++ part ++ right ∧ e.span = ⟨offset + utf8Length left, utf8Length part⟩ := by
  generalize hls : lines cs = ls at h
  induction ls generalizing offset opened cs with
  | nil => cases h
  | cons text ls ih =>
      rcases eq_nil_or_isLine cs with rfl | ⟨text', rest, rfl, hline⟩
      · cases hls
      rw [hline.lines_append] at hls
      cases hls
      have hlater : ∀ {opened'}, fromLines (offset + utf8Length text) opened' (lines rest) = .error e →
          ∃ left part right, text ++ rest = left ++ part ++ right ∧
            e.span = ⟨offset + utf8Length left, utf8Length part⟩ := by
        intro opened' h
        obtain ⟨left, part, right, rfl, hspan⟩ := ih rfl h
        refine ⟨text ++ left, part, right, by simp, ?_⟩
        rw [hspan, utf8Length_append, Nat.add_assoc]
      rw [fromLines_cons] at h
      by_cases hempty : isEmptyLine text = true
      · rw [if_pos hempty] at h
        exact hlater h
      · rw [if_neg hempty] at h
        obtain hfault | ⟨⟨tokens, opened'⟩, -, h₁⟩ := except_bind_eq_error.1 h
        · obtain ⟨left, part, right, rfl, hspan⟩ := line_eq_error hline hfault
          exact ⟨left, part, right ++ rest, by simp, hspan⟩
        · obtain hfault | ⟨others, -, h₂⟩ := except_bind_eq_error.1 h₁
          · exact hlater hfault
          · cases h₂

end Scan

/-- The errors of a reader that never looks past its tokens point into the text. -/
theorem SourceError.inside_of_runOn {α : Type} {r : TokenReader α} {source : String} {e : SourceError}
    (hr : ∀ {ts}, Token.Balanced 0 ts → Contained r ts) (h : r.runOn source = .error e) : e.span.Inside source := by
  obtain hscan | ⟨ts, hscan, h₁⟩ := except_bind_eq_error.1 h
  · obtain ⟨fault, hfault, rfl⟩ := mapError_eq_error.1 hscan
    obtain ⟨left, part, right, hcs, hspan⟩ := Scan.fromLines_eq_error hfault
    have hinside := Span.inside_of_stretch hcs
    show fault.span.Inside source
    rw [hspan, Nat.zero_add]
    exact hinside
  · have hscanned := Scan.fromLines_eq_ok.1 (mapError_eq_ok.1 hscan)
    have htokens : ∀ t ∈ ts, t.span.Inside source := by
      intro t ht
      obtain ⟨left, part, right, hcs, hspan, -⟩ := hscanned.stretch t ht
      have hinside := Span.inside_of_stretch hcs
      rw [hspan, Nat.zero_add]
      exact hinside
    obtain hparse | ⟨p, -, h₂⟩ := except_bind_eq_error.1 h₁
    · obtain ⟨fault, hfault, rfl⟩ := mapError_eq_error.1 hparse
      obtain ⟨-, hmarked⟩ := (hr hscanned.balanced).error fault hfault
      exact hmarked.inside htokens
    · cases h₂

/-! ### Ends in order -/

namespace Span

/-- The span from `start` to `stop`, if these are in order. -/
def between? (start stop : Nat) : Option Span := if start ≤ stop then some (between start stop) else none

/-- Both spans together, from ends that must be in order. -/
def join? (a b : Span) : Option Span :=
  if a.offset ≤ b.offset then between? a.offset b.stop else between? b.offset a.stop

theorem between?_add (start length : Nat) : between? start (start + length) = some ⟨start, length⟩ := by
  rw [between?, if_pos (Nat.le_add_right start length), between_add]

theorem between?_self (start : Nat) : between? start start = some ⟨start, 0⟩ := between?_add start 0

theorem join?_eq (a b : Span) : join? a b = some (join a b) := by
  unfold join? join between?
  by_cases h : a.offset ≤ b.offset
  · rw [if_pos h, if_pos h, if_pos (le_stop h)]
  · rw [if_neg h, if_neg h, if_pos (le_stop (Nat.le_of_not_le h))]

end Span

namespace Scan

/-- Steps that make all their spans do so one after the other. -/
theorem run_bind_eq_some {α β : Type} {x : ExceptT ScanError Option α} {y : Except ScanError α}
    {f : α → ExceptT ScanError Option β} {g : α → Except ScanError β} (hx : x.run = some y)
    (hf : ∀ a, (f a).run = some (g a)) : (x >>= f).run = some (y >>= g) := by
  rw [ExceptT.run_bind, hx]
  cases y with
  | error e => rfl
  | ok a => exact hf a

theorem placeWith_between? (offset : Nat) (ls : List Lexeme) :
    (placeWith Span.between? offset ls).run = some (place offset ls) := by
  induction ls generalizing offset with
  | nil => rfl
  | cons l ls ih =>
      rw [placeWith, place_cons]
      cases l.meaning with
      | gap => exact ih _
      | token kind =>
          dsimp only
          rw [Span.between?_add]
          exact run_bind_eq_some (ih _) fun ts => rfl
      | fault fault =>
          dsimp only
          rw [Span.between?_add]
          rfl

theorem lineWith_between? (offset : Nat) (opened : List Nat) (text : List Char) :
    (lineWith Span.between? offset opened text).run = some (line offset opened text) := by
  rw [lineWith, line_eq, Span.between?_add, Span.between?_add, Span.between?_self]
  split
  · rfl
  · cases indentation opened (width (content text)) with
    | none => rfl
    | some p => exact run_bind_eq_some (placeWith_between? _ _) fun ts => rfl

theorem fromLinesWith_between? (offset : Nat) (opened : List Nat) (ls : List (List Char)) :
    (fromLinesWith Span.between? offset opened ls).run = some (fromLines offset opened ls) := by
  induction ls generalizing offset opened with
  | nil =>
      rw [fromLinesWith, Span.between?_self, fromLines_nil]
      rfl
  | cons text ls ih =>
      rw [fromLinesWith, fromLines_cons]
      split
      · exact ih _ _
      · exact run_bind_eq_some (lineWith_between? offset opened text) fun p =>
          run_bind_eq_some (ih _ p.2) fun ts => rfl

end Scan

/-- Scanning with ends in order. -/
def Token.scan? (source : String) : Option (Except ScanError (List Token)) := scanWith Span.between? source

namespace SourceError

/-- **Errors point into the text.** The place of an error, of a program or of an expression, lies in the text and begins
and ends between characters. And no span is made from ends out of order: not in scanning, not where two spans are
joined, and not where there is no token to point at. -/
theorem span_inside (source : String) :
    (∀ e, Program.ofSource source = .error e ∨ Expr.ofSource source = .error e → e.span.Inside source)
      ∧ Token.scan? source = some (Token.scan source)
      ∧ (∀ a b, Span.join? a b = some (Span.join a b))
      ∧ Span.between? 0 0 = some .origin :=
  ⟨fun _ he => he.elim (inside_of_runOn program_contained) (inside_of_runOn exprToEnd_contained),
    Scan.fromLinesWith_between? 0 [] _, Span.join?_eq, Span.between?_self 0⟩

/-- A function that uses a stray name; its place goes over a comment to the line after its block. -/
def strayNameText : String := "def f(n): # ü\n    g(m)\n\n# é\ndef h():\n    pass\n"

theorem span_inside_stray :
    Program.ofSource strayNameText = .error (.parse ⟨.illFormed (.scope "f" "m" ["n"]), ⟨0, 30⟩⟩)
      ∧ Span.Inside strayNameText ⟨0, 30⟩
      ∧ Expr.ofSource "'é' ö" = .error (.scan ⟨.unexpected, ⟨5, 2⟩⟩) ∧ Span.Inside "'é' ö" ⟨5, 2⟩ := by
  have hprogram : Program.ofSource strayNameText
      = .error (.parse ⟨.illFormed (.scope "f" "m" ["n"]), ⟨0, 30⟩⟩) := by decide +kernel
  have hexpr : Expr.ofSource "'é' ö" = .error (.scan ⟨.unexpected, ⟨5, 2⟩⟩) := by decide +kernel
  exact ⟨hprogram, (span_inside _).1 _ (.inl hprogram), hexpr, (span_inside _).1 _ (.inr hexpr)⟩

end SourceError

end CostBound
