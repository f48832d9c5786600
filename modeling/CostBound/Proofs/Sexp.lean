import CostBound.Proofs.Lexing

/-!
# S-expressions and their texts

A plain reader of S-expressions, and what it makes of lines that are S-expressions or comments.

* `Sexp.read` — the S-expressions of a text. Comments go from a semicolon to the end of their line.
* `Sexp.chars` — the text of an S-expression: one blank between items.
* `Proper.reads` — the reader takes such a text as one more item, wherever it stands.
* `Spells` — lines that are read as some S-expressions, before any further text; `spells_form`, `spells_comment`
  for one line, `Spells.append` and `spells_flatMap` for several.
* `Spells.read` — the text of such lines, each with its line feed.
-/

namespace CostBound

inductive Sexp where
  | atom (text : String)
  | list (items : List Sexp)

namespace Sexp

/-! ### Reading -/

/-- A bracket or an atom. -/
inductive Mark where
  | opening
  | closing
  | atom (text : String)
deriving DecidableEq, Repr

/-- A text without its comments. -/
def uncommented (inComment : Bool) : List Char → List Char
  | [] => []
  | c :: cs =>
      if c = '\n' then c :: uncommented false cs
      else if inComment || c = ';' then uncommented true cs
      else c :: uncommented false cs

/-- The atom of the characters before a break, if there are any. -/
def pendingMark (pending : List Char) : List Mark :=
  if pending.isEmpty then [] else [.atom (String.ofList pending)]

/-- The brackets and atoms of a text, after some characters of an atom. -/
def marks (pending : List Char) : List Char → List Mark
  | [] => pendingMark pending
  | c :: cs =>
      if c = '(' then pendingMark pending ++ .opening :: marks [] cs
      else if c = ')' then pendingMark pending ++ .closing :: marks [] cs
      else if c.isWhitespace then pendingMark pending ++ marks [] cs
      else marks (pending ++ [c]) cs

/-- The S-expressions of some marks: `items` stand before them in the innermost list that is open, `outer` in the
lists around it. Brackets have to match. -/
def build (items : List Sexp) (outer : List (List Sexp)) : List Mark → Option (List Sexp)
  | [] => if outer.isEmpty then some items else none
  | .atom text :: ms => build (items ++ [atom text]) outer ms
  | .opening :: ms => build [] (items :: outer) ms
  | .closing :: ms =>
      match outer with
      | [] => none
      | above :: outer => build (above ++ [list items]) outer ms

/-- The S-expressions of a text that follows some others. -/
def readAfter (items : List Sexp) (text : List Char) : Option (List Sexp) :=
  build items [] (marks [] (uncommented false text))

/-- The S-expressions of a text. -/
def read (text : String) : Option (List Sexp) := readAfter [] text.toList

/-! ### Texts -/

/-- The text of an S-expression. -/
def chars : Sexp → List Char
  | atom text => text.toList
  | list items => '(' :: [' '].intercalate (items.map chars) ++ [')']

/-- A character that an atom may have. -/
def isAtomic (c : Char) : Bool := !(c = '(' || c = ')' || c = ';' || c.isWhitespace)

/-- All atoms have characters, and only such that an atom may have. -/
inductive Proper : Sexp → Prop
  | atom {text : String} (hne : text.toList ≠ []) (h : Lexeme.Consists isAtomic text) : Proper (.atom text)
  | list {items : List Sexp} (h : ∀ e ∈ items, Proper e) : Proper (.list items)

theorem isAtomic_iff {c : Char} :
    isAtomic c = true ↔ c ≠ '(' ∧ c ≠ ')' ∧ c ≠ ';' ∧ c.isWhitespace = false := by
  simp [isAtomic, and_assoc]

@[simp]
theorem proper_list {items : List Sexp} : (list items).Proper ↔ ∀ e ∈ items, e.Proper := by
  constructor
  · intro h
    cases h with
    | list h => exact h
  · exact .list

theorem isAtomic_of_isWordPart {c : Char} (h : Lexeme.isWordPart c = true) : isAtomic c = true := by
  have hopen : c ≠ '(' := Lexeme.ne_of_test h rfl
  have hclose : c ≠ ')' := Lexeme.ne_of_test h rfl
  have hcomment : c ≠ ';' := Lexeme.ne_of_test h rfl
  have hblank : c ≠ ' ' := Lexeme.ne_of_test h rfl
  have htab : c ≠ '\t' := Lexeme.ne_of_test h rfl
  have hreturn : c ≠ '\r' := Lexeme.ne_of_test h rfl
  have hfeed : c ≠ '\n' := Lexeme.ne_of_test h rfl
  refine isAtomic_iff.2 ⟨hopen, hclose, hcomment, ?_⟩
  simp [Char.isWhitespace, hblank, htab, hreturn, hfeed]

theorem proper_word {x : String} (h : IsWord x) : (atom x).Proper := by
  obtain ⟨c, cs, hx, hc, hcs⟩ := h
  refine .atom (by rw [hx]; exact List.cons_ne_nil c cs) fun d hd => isAtomic_of_isWordPart ?_
  rw [hx] at hd
  obtain rfl | hd := List.mem_cons.1 hd
  · exact Lexeme.isWordPart_of_isWordStart hc
  · exact hcs d hd

theorem proper_repr (n : Nat) : (atom n.repr).Proper := by
  refine .atom ?_ fun c hc => isAtomic_of_isWordPart ?_
  · rw [Nat.toList_repr]
    exact List.ne_nil_of_length_pos Nat.length_toDigits_pos
  · rw [Nat.toList_repr] at hc
    have hdigit := Nat.isDigit_of_mem_toDigits (by omega) (by omega) hc
    simp [Lexeme.isWordPart, Char.isAlphanum, hdigit]

/-- An atom that is written out. -/
theorem Proper.of_all {text : String} (h : (text.toList.all isAtomic && !text.toList.isEmpty) = true) :
    (Sexp.atom text).Proper := by
  rw [Bool.and_eq_true] at h
  exact .atom (by simpa using h.2) (.of_all h.1)

/-- No atom goes on with a text. -/
def Ends (rest : List Char) : Prop := ∀ c ∈ rest.head?, c = '(' ∨ c = ')' ∨ c.isWhitespace = true

theorem ends_cons {c : Char} (h : c = '(' ∨ c = ')' ∨ c.isWhitespace = true) (cs : List Char) : Ends (c :: cs) := by
  intro d hd
  cases hd
  exact h

theorem marks_atomic {cs : List Char} (h : ∀ c ∈ cs, isAtomic c = true) (pending rest : List Char) :
    marks pending (cs ++ rest) = marks (pending ++ cs) rest := by
  induction cs generalizing pending with
  | nil => rw [List.nil_append, List.append_nil]
  | cons c cs ih =>
      obtain ⟨hopen, hclose, -, hblank⟩ := isAtomic_iff.1 (h c List.mem_cons_self)
      rw [List.cons_append, marks, if_neg hopen, if_neg hclose, if_neg (by rw [hblank]; decide),
        ih (fun d hd => h d (List.mem_cons_of_mem c hd)), List.append_assoc]
      rfl

theorem marks_blank {c : Char} (h : c.isWhitespace = true) (pending cs : List Char) :
    marks pending (c :: cs) = pendingMark pending ++ marks [] cs := by
  have hopen : c ≠ '(' := Lexeme.ne_of_test h rfl
  have hclose : c ≠ ')' := Lexeme.ne_of_test h rfl
  rw [marks, if_neg hopen, if_neg hclose, if_pos h]

/-- A break ends the atom before it. -/
theorem marks_of_ends {rest : List Char} (h : Ends rest) (pending : List Char) :
    marks pending rest = pendingMark pending ++ marks [] rest := by
  cases rest with
  | nil => exact (List.append_nil _).symm
  | cons c rest =>
      obtain rfl | rfl | hblank := h c rfl
      · rfl
      · rfl
      · rw [marks_blank hblank, marks_blank hblank]
        rfl

/-! ### Reading a text back -/

/-- Some characters are read as some S-expressions, wherever they stand. -/
def Reads (cs : List Char) (es : List Sexp) : Prop :=
  ∀ (items : List Sexp) (outer : List (List Sexp)) (rest : List Char), Ends rest →
    build items outer (marks [] (cs ++ rest)) = build (items ++ es) outer (marks [] rest)

theorem reads_nil : Reads [] [] := by
  intro items outer rest _
  rw [List.append_nil, List.nil_append]

theorem Reads.append_blank {cs cs' : List Char} {es es' : List Sexp} (h : Reads cs es) (h' : Reads cs' es') :
    Reads (cs ++ ' ' :: cs') (es ++ es') := by
  intro items outer rest hrest
  have hblank : Ends (' ' :: (cs' ++ rest)) := ends_cons (.inr (.inr rfl)) _
  rw [List.append_assoc, List.cons_append, h items outer _ hblank, marks_blank rfl]
  show build (items ++ es) outer (marks [] (cs' ++ rest)) = _
  rw [h' _ outer rest hrest, List.append_assoc]

theorem reads_intercalate {es : List Sexp} (h : ∀ e ∈ es, Reads e.chars [e]) :
    Reads ([' '].intercalate (es.map chars)) es := by
  induction es with
  | nil => exact reads_nil
  | cons e es ih =>
      cases es with
      | nil =>
          rw [List.map_singleton, List.intercalate_singleton]
          exact h e List.mem_cons_self
      | cons e' es =>
          rw [List.map_cons, List.map_cons, List.intercalate_cons_cons, List.append_assoc]
          exact (h e List.mem_cons_self).append_blank (ih (fun d hd => h d (List.mem_cons_of_mem e hd)))

/-- **Texts of S-expressions.** The text of one is read as that one. -/
theorem Proper.reads {e : Sexp} (h : e.Proper) : Reads e.chars [e] := by
  induction h with
  | @atom text hne h =>
      intro items outer rest hrest
      have hpending : pendingMark text.toList = [.atom text] := by
        rw [pendingMark, if_neg (by rwa [List.isEmpty_iff]), String.ofList_toList]
      rw [chars, marks_atomic h, List.nil_append, marks_of_ends hrest, hpending]
      rfl
  | @list es _ ih =>
      intro items outer rest _
      have hclosing : Ends (')' :: rest) := ends_cons (.inr (.inl rfl)) rest
      rw [chars, List.append_assoc, List.cons_append]
      show build [] (items :: outer) (marks [] ([' '].intercalate (es.map chars) ++ ')' :: rest)) = _
      rw [reads_intercalate ih [] (items :: outer) _ hclosing]
      rfl

/-! ### Lines -/

/-- The text of some lines. -/
def lineChars (lines : List String) : List Char := lines.flatMap fun l => l.toList ++ ['\n']

/-- Some lines are read as some S-expressions, before any further text. -/
def Spells (lines : List String) (es : List Sexp) : Prop :=
  ∀ (items : List Sexp) (rest : List Char), readAfter items (lineChars lines ++ rest) = readAfter (items ++ es) rest

theorem spells_nil : Spells [] [] := by
  intro items rest
  rw [List.append_nil]
  rfl

theorem Spells.append {lines lines' : List String} {es es' : List Sexp} (h : Spells lines es)
    (h' : Spells lines' es') : Spells (lines ++ lines') (es ++ es') := by
  intro items rest
  rw [lineChars, List.flatMap_append, List.append_assoc, ← List.append_assoc items]
  exact (h items _).trans (h' _ rest)

theorem spells_flatMap {α : Type} {as : List α} {lines : α → List String} {es : α → List Sexp}
    (h : ∀ a ∈ as, Spells (lines a) (es a)) : Spells (as.flatMap lines) (as.flatMap es) := by
  induction as with
  | nil => exact spells_nil
  | cons a as ih =>
      rw [List.flatMap_cons, List.flatMap_cons]
      exact (h a List.mem_cons_self).append (ih (fun b hb => h b (List.mem_cons_of_mem a hb)))

theorem uncommented_append {cs : List Char} (h : ∀ c ∈ cs, c ≠ ';') (rest : List Char) :
    uncommented false (cs ++ rest) = cs ++ uncommented false rest := by
  induction cs with
  | nil => rfl
  | cons c cs ih =>
      have hc : c ≠ ';' := h c List.mem_cons_self
      rw [List.cons_append, uncommented, ih (fun d hd => h d (List.mem_cons_of_mem c hd))]
      simp [hc]

/-- A comment ends with its line. -/
theorem uncommented_comment {cs : List Char} (h : ∀ c ∈ cs, c ≠ '\n') (rest : List Char) :
    uncommented true (cs ++ '\n' :: rest) = '\n' :: uncommented false rest := by
  induction cs with
  | nil => rfl
  | cons c cs ih =>
      rw [List.cons_append, uncommented, if_neg (h c List.mem_cons_self)]
      exact ih (fun d hd => h d (List.mem_cons_of_mem c hd))

theorem forall_mem_intercalate {P : Char → Prop} {sep : List Char} {texts : List (List Char)}
    (hsep : ∀ c ∈ sep, P c) (h : ∀ text ∈ texts, ∀ c ∈ text, P c) : ∀ c ∈ sep.intercalate texts, P c := by
  induction texts with
  | nil =>
      intro c hc
      cases hc
  | cons text texts ih =>
      have htext := h text List.mem_cons_self
      cases texts with
      | nil => rwa [List.intercalate_singleton]
      | cons text' texts =>
          rw [List.intercalate_cons_cons]
          simp only [List.forall_mem_append]
          exact ⟨⟨htext, hsep⟩, ih (fun t ht => h t (List.mem_cons_of_mem text ht))⟩

theorem Proper.ne_semicolon {e : Sexp} (h : e.Proper) : ∀ c ∈ e.chars, c ≠ ';' := by
  induction h with
  | atom _ h =>
      intro c hc
      rw [chars] at hc
      exact (isAtomic_iff.1 (h c hc)).2.2.1
  | @list es _ ih =>
      have hitems : ∀ c ∈ [' '].intercalate (es.map chars), c ≠ ';' :=
        forall_mem_intercalate (List.forall_mem_singleton.2 (by decide)) (List.forall_mem_map.2 ih)
      intro c hc
      rw [chars, List.cons_append, List.mem_cons, List.mem_append, List.mem_singleton] at hc
      obtain rfl | hc | rfl := hc
      · decide
      · exact hitems c hc
      · decide

theorem spells_form {line : String} {e : Sexp} (hline : line.toList = e.chars) (h : e.Proper) :
    Spells [line] [e] := by
  intro items rest
  have hfeed : Ends ('\n' :: uncommented false rest) := ends_cons (.inr (.inr rfl)) _
  unfold readAfter
  rw [lineChars, List.flatMap_singleton, hline, List.append_assoc, uncommented_append h.ne_semicolon]
  show build items [] (marks [] (e.chars ++ '\n' :: uncommented false rest)) = _
  rw [h.reads items [] _ hfeed, marks_blank rfl]
  rfl

theorem spells_comment {text : String} (h : ∀ c ∈ text.toList, c ≠ '\n') : Spells ["; " ++ text] [] := by
  intro items rest
  unfold readAfter
  rw [lineChars, List.flatMap_singleton, String.toList_append, List.append_assoc, List.append_assoc]
  show build items [] (marks [] (uncommented true (text.toList ++ '\n' :: rest))) = _
  rw [uncommented_comment h, marks_blank rfl, List.append_nil]
  rfl

/-- The text of some lines, read as a whole. -/
theorem Spells.read {lines : List String} {es : List Sexp} (h : Spells lines es) :
    read (String.join (lines.map (· ++ "\n"))) = some es := by
  have htext : (String.join (lines.map (· ++ "\n"))).toList = lineChars lines := by
    rw [String.toList_join, List.flatMap_map, lineChars]
    simp only [String.toList_append]
    rfl
  have := h [] []
  rw [List.append_nil] at this
  rw [Sexp.read, htext, this]
  rfl

end Sexp

end CostBound
