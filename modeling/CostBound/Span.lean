/-!
# Spans of source text

* `Span` — a stretch of a source text, counted in bytes of its UTF-8 form.
* `Span.join` — the stretch from the earlier of two spans to the end of the later one.
* `utf8Length` — the number of bytes that a list of characters takes.
-/

namespace CostBound

/-- A stretch of source text: where it starts and how long it is, in bytes. -/
structure Span where
  offset : Nat
  length : Nat
deriving DecidableEq, Repr, Inhabited

namespace Span

/-- The empty span at the start of the text, used when there is no token to point at. -/
def origin : Span := ⟨0, 0⟩

/-- The first byte after the span. -/
def stop (s : Span) : Nat := s.offset + s.length

/-- The span that starts at `start` and stops before `stop`. -/
def between (start stop : Nat) : Span := ⟨start, stop - start⟩

/-- From the start of whichever span begins first to the end of the other one. -/
def join (a b : Span) : Span :=
  if a.offset ≤ b.offset then between a.offset b.stop else between b.offset a.stop

theorem between_add (start length : Nat) : between start (start + length) = ⟨start, length⟩ := by
  rw [between, Nat.add_sub_cancel_left]

theorem stop_between {start stop : Nat} (h : start ≤ stop) : (between start stop).stop = stop := by
  simp only [Span.stop, between]
  omega

end Span

/-- The number of bytes of the UTF-8 form of some characters. -/
def utf8Length : List Char → Nat
  | [] => 0
  | c :: cs => c.utf8Size + utf8Length cs

@[simp]
theorem utf8Length_append (xs ys : List Char) :
    utf8Length (xs ++ ys) = utf8Length xs + utf8Length ys := by
  induction xs with
  | nil => simp [utf8Length]
  | cons c cs ih => simp only [List.cons_append, utf8Length, ih]; omega

end CostBound
