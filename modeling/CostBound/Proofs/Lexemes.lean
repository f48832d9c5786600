import CostBound.Proofs.Lexing

/-!
# What tokens are written as

The text of a token, said without the scanner, and a line of code as gaps and such texts.

* `Numeral.Pattern`, `Quoted.Inner` — the texts of integer and string literals.
* `Token.Kind.Written` — a text is a lexeme of a kind, and stands for the value that the kind carries.
* `Lexeme.written_first` — what the scanner takes for a token is written as that token.
* `Scan.Cut` — a text is cut into gaps and tokens, each with its place.
* `Scan.cut_of_place`, `Scan.exists_stretch_of_place_error` — a line is cut as the scanner says, or its fault is a
  stretch of the line.
-/

namespace CostBound

open Token (Kind)

/-! ### Literals -/

/-- The marks of literals, each with the base that it announces. -/
def Numeral.marks : List (Char × Nat) := [('b', 2), ('o', 8), ('x', 16)]

/-- A literal of base ten begins with a digit; any other has a mark and then at least one character. -/
inductive Numeral.Pattern : Numeral.Shape → Prop
  | decimal {d : Char} {ds : List Char} (hd : d.isDigit = true) (hs : ∀ c ∈ ds, continues 10 c = true) :
      Pattern ⟨[], 10, d :: ds⟩
  | marked {m : Char} {base : Nat} {ds : List Char} (hm : (m, base) ∈ marks) (hne : ds ≠ [])
      (hs : ∀ c ∈ ds, continues base c = true) : Pattern ⟨['0', m], base, ds⟩

namespace Numeral

theorem base?_eq_some {m : Char} {base : Nat} : base? m = some base ↔ (m, base) ∈ marks := by
  constructor
  · intro h
    unfold base? at h
    split at h <;> cases h <;> decide
  · intro h
    simp only [marks, List.mem_cons, Prod.mk.injEq, List.not_mem_nil, or_false] at h
    rcases h with ⟨rfl, rfl⟩ | ⟨rfl, rfl⟩ | ⟨rfl, rfl⟩ <;> rfl

theorem Pattern.text_ne_nil {s : Shape} (h : Pattern s) : s.text ≠ [] := by
  cases h with
  | decimal hd hs => exact List.cons_ne_nil _ _
  | marked hm hne hs => exact List.cons_ne_nil _ _

theorem continues_of_mem_takeWhile {base : Nat} {c : Char} {cs : List Char}
    (h : c ∈ cs.takeWhile (continues base)) : continues base c = true :=
  List.all_eq_true.1 List.all_takeWhile c h

theorem pattern_takeDecimal {d : Char} (hd : d.isDigit = true) (cs : List Char) :
    Pattern (takeDecimal (d :: cs)).1 := by
  show Pattern ⟨[], 10, (d :: cs).takeWhile (continues 10)⟩
  rw [List.takeWhile_cons_of_pos (Lexeme.continues_of_isDigit hd)]
  exact .decimal hd (fun c hc => continues_of_mem_takeWhile hc)

theorem pattern_take {d : Char} (hd : d.isDigit = true) (cs : List Char) : Pattern (take (d :: cs)).1 := by
  unfold take
  split
  · rename_i m e cs' heq
    obtain ⟨rfl, rfl⟩ := List.cons.inj heq
    split
    · rename_i base hm
      split
      · rename_i he
        refine .marked (base?_eq_some.1 hm) ?_ (fun c hc => continues_of_mem_takeWhile hc)
        rw [List.takeWhile_cons_of_pos he]
        exact List.cons_ne_nil _ _
      · exact pattern_takeDecimal hd _
    · exact pattern_takeDecimal hd _
  · exact pattern_takeDecimal hd cs

end Numeral

/-- What stands between two quotes: characters other than the quote and the backslash, and guarded ones. -/
inductive Quoted.Inner (quote : Char) : List Char → Prop
  | nil : Inner quote []
  | plain {c : Char} {cs : List Char} (hq : c ≠ quote) (hg : c ≠ '\\') (hs : Inner quote cs) :
      Inner quote (c :: cs)
  | guarded {cs : List Char} (c : Char) (hs : Inner quote cs) : Inner quote ('\\' :: c :: cs)

theorem Quoted.inner_body (quote : Char) (cs : List Char) : Inner quote (body quote cs).1 := by
  fun_induction body quote cs with
  | case1 => exact .nil
  | case2 => exact .nil
  | case3 c cs inner rest hbody ih =>
      rw [hbody] at ih
      exact .guarded c ih
  | case4 => exact .nil
  | case5 c cs hend hmore hq inner rest hbody ih =>
      rw [hbody] at ih
      -- a backslash would have been taken by one of the rows above
      have hg : c ≠ '\\' := by
        intro hc
        cases cs with
        | nil => exact hend hc rfl
        | cons d cs => exact hmore d cs hc rfl
      exact .plain hq hg ih

/-! ### Tokens -/

namespace Token.Kind

/-- The signs, of two characters and of one. -/
def signs : List (String × Kind) :=
  [("->", arrow), ("==", eqEq), ("!=", neq), ("<=", le), (">=", ge), ("<", lt), (">", gt), ("+", plus),
    ("-", minus), ("*", star), ("%", percent), (":", colon), (",", comma), ("(", lparen), (")", rparen)]

/-- `Written k text`: the text is a lexeme of the kind `k`. Names, integers and strings carry the value that the
text stands for. -/
inductive Written : Kind → List Char → Prop
  | fixed {word : String} {k : Kind} (h : (word, k) ∈ keywords ++ signs) : Written k word.toList
  | ident {x : String} (h : IsName x) : Written (ident x) x.toList
  | int {s : Numeral.Shape} {n : Nat} (hs : Numeral.Pattern s) (hn : Numeral.value? s = some n) :
      Written (int n) s.text
  | str {quote : Char} {inner value : List Char} (hq : Quoted.isQuote quote = true)
      (hi : Quoted.Inner quote inner) (hv : Quoted.decode inner = some value) :
      Written (str (String.ofList value)) (quote :: inner ++ [quote])

theorem Written.isLayout_eq {k : Kind} {text : List Char} (h : Written k text) : k.isLayout = false := by
  have htable : ∀ p ∈ keywords ++ signs, p.2.isLayout = false := by decide
  cases h with
  | fixed h => exact htable _ h
  | ident h => rfl
  | int hs hn => rfl
  | str hq hi hv => rfl

theorem Written.ne_nil {k : Kind} {text : List Char} (h : Written k text) : text ≠ [] := by
  have htable : ∀ p ∈ keywords ++ signs, p.1.toList ≠ [] := by decide
  cases h with
  | fixed h => exact htable _ h
  | ident h =>
      obtain ⟨⟨c, cs, hx, -⟩, -⟩ := h
      rw [hx]
      exact List.cons_ne_nil c cs
  | int hs hn => exact hs.text_ne_nil
  | str hq hi hv => exact List.cons_ne_nil _ _

theorem written_ofWord {word : String} (h : IsWord word) : Written (ofWord word) word.toList := by
  cases hk : keywords.lookup word with
  | none =>
      have hname : ofWord word = ident word := by
        unfold ofWord
        rw [hk]
        rfl
      rw [hname]
      exact .ident ⟨h, hname⟩
  | some k =>
      have hkind : ofWord word = k := by
        unfold ofWord
        rw [hk]
        rfl
      obtain ⟨before, after, hkeywords, -⟩ := List.lookup_eq_some_iff.1 hk
      rw [hkind]
      refine .fixed (List.mem_append_left signs ?_)
      rw [hkeywords]
      exact List.mem_append_right before List.mem_cons_self

theorem written_sign {c : Char} {k : Kind} (h : Lexeme.sign? c = some k) : Written k [c] := by
  have hmem : (String.ofList [c], k) ∈ keywords ++ signs := by
    unfold Lexeme.sign? at h
    split at h <;> cases h <;> decide
  have := Written.fixed hmem
  rwa [String.toList_ofList] at this

theorem written_sign₂ {c d : Char} {k : Kind} (h : Lexeme.sign₂? c d = some k) : Written k [c, d] := by
  have hmem : (String.ofList [c, d], k) ∈ keywords ++ signs := by
    unfold Lexeme.sign₂? at h
    split at h <;> cases h <;> decide
  have := Written.fixed hmem
  rwa [String.toList_ofList] at this

end Token.Kind

namespace Lexeme

theorem written_numeral {d : Char} {cs : List Char} {k : Kind} (hd : d.isDigit = true)
    (h : (numeral (d :: cs)).meaning = .token k) : k.Written (numeral (d :: cs)).text := by
  unfold numeral at h ⊢
  dsimp only at h ⊢
  cases hv : Numeral.value? (Numeral.take (d :: cs)).1 with
  | none =>
      rw [hv] at h
      cases h
  | some n =>
      rw [hv] at h
      cases h
      exact .int (Numeral.pattern_take hd cs) hv

theorem written_quoted {quote : Char} {cs : List Char} {k : Kind} (hq : Quoted.isQuote quote = true)
    (h : (quoted quote cs).meaning = .token k) : k.Written (quoted quote cs).text := by
  have hinner := Quoted.inner_body quote cs
  unfold quoted at h ⊢
  split at h
  · rename_i inner c rest hbody
    rw [hbody] at hinner
    split at h
    · rename_i hc
      subst hc
      split at h
      · rename_i value hv
        cases h
        rw [if_pos rfl]
        exact .str hq hinner hv
      · cases h
    · cases h
  · cases h

theorem written_single {c : Char} {cs : List Char} {k : Kind} (h : (single c cs).meaning = .token k) :
    k.Written (single c cs).text := by
  unfold single at h ⊢
  cases hk : sign? c with
  | none =>
      rw [hk] at h
      cases h
  | some k' =>
      rw [hk] at h
      cases h
      exact Kind.written_sign hk

theorem written_sign {c : Char} {cs : List Char} {k : Kind} (h : (sign c cs).meaning = .token k) :
    k.Written (sign c cs).text := by
  cases cs with
  | nil => exact written_single h
  | cons d cs =>
      unfold sign at h ⊢
      dsimp only at h ⊢
      cases hk : sign₂? c d with
      | none =>
          rw [hk] at h
          exact written_single h
      | some k' =>
          rw [hk] at h
          cases h
          exact Kind.written_sign₂ hk

/-- What is taken for a token is written as that token. -/
theorem written_first {c : Char} {cs : List Char} {k : Kind} (h : (first c cs).meaning = .token k) :
    k.Written (first c cs).text := by
  unfold first at h ⊢
  by_cases hgap : isGap c = true
  · rw [if_pos hgap] at h
    cases h
  rw [if_neg hgap] at h ⊢
  by_cases hword : isWordStart c = true
  · rw [if_pos hword] at h ⊢
    cases h
    have hw : IsWord (String.ofList (c :: cs.takeWhile isWordPart)) :=
      ⟨c, _, String.toList_ofList, hword, fun d hd => List.all_eq_true.1 List.all_takeWhile d hd⟩
    have := Kind.written_ofWord hw
    rwa [String.toList_ofList] at this
  rw [if_neg hword] at h ⊢
  by_cases hdigit : c.isDigit = true
  · rw [if_pos hdigit] at h ⊢
    exact written_numeral hdigit h
  rw [if_neg hdigit] at h ⊢
  by_cases hquote : Quoted.isQuote c = true
  · rw [if_pos hquote] at h ⊢
    exact written_quoted hquote h
  · rw [if_neg hquote] at h ⊢
    exact written_sign h

theorem sign_ne_gap (c : Char) (cs : List Char) : (sign c cs).meaning ≠ .gap := by
  intro h
  unfold sign single at h
  split at h
  · split at h
    · cases h
    · split at h <;> cases h
  · split at h <;> cases h

theorem quoted_ne_gap (quote : Char) (cs : List Char) : (quoted quote cs).meaning ≠ .gap := by
  intro h
  unfold quoted at h
  split at h
  · split at h
    · split at h <;> cases h
    · cases h
  · cases h

theorem numeral_ne_gap (cs : List Char) : (numeral cs).meaning ≠ .gap := by
  intro h
  unfold numeral at h
  dsimp only at h
  split at h <;> cases h

/-- A gap is one character. -/
theorem isGap_of_first {c : Char} {cs : List Char} (h : (first c cs).meaning = .gap) : isGap c = true := by
  by_cases hgap : isGap c = true
  · exact hgap
  · unfold first at h
    rw [if_neg hgap] at h
    split at h
    · cases h
    · split at h
      · exact absurd h (numeral_ne_gap _)
      · split at h
        · exact absurd h (quoted_ne_gap c cs)
        · exact absurd h (sign_ne_gap c cs)

end Lexeme

/-! ### Lines of code -/

namespace Scan

/-- From an offset on, a text consists of gaps and of the given tokens, each at its place. -/
inductive Cut : Nat → List Char → List Token → Prop
  | nil (offset : Nat) : Cut offset [] []
  | gap {offset : Nat} {c : Char} {cs : List Char} {ts : List Token} (h : Lexeme.isGap c = true)
      (hs : Cut (offset + c.utf8Size) cs ts) : Cut offset (c :: cs) ts
  | token {offset : Nat} {text rest : List Char} {k : Kind} {ts : List Token} (h : k.Written text)
      (hs : Cut (offset + utf8Length text) rest ts) :
      Cut offset (text ++ rest) (⟨k, ⟨offset, utf8Length text⟩⟩ :: ts)

theorem length_rest_of_first {n : Nat} {c : Char} {cs : List Char} (hne : (Lexeme.first c cs).text ≠ [])
    (hn : (c :: cs).length ≤ n + 1) : (Lexeme.first c cs).rest.length ≤ n := by
  have hlength := congrArg List.length (Lexeme.first_append c cs)
  have hpos := List.length_pos_iff.2 hne
  rw [List.length_append] at hlength
  omega

theorem cut_of_placeWithin {n offset : Nat} {cs : List Char} {ts : List Token} (hn : cs.length ≤ n)
    (h : place offset (Lexeme.allWithin n cs) = .ok ts) : Cut offset cs ts := by
  induction n generalizing offset cs ts with
  | zero =>
      obtain rfl := List.length_eq_zero_iff.1 (Nat.le_zero.1 hn)
      cases h
      exact .nil offset
  | succ n ih =>
      cases cs with
      | nil =>
          cases h
          exact .nil offset
      | cons c cs =>
          rw [Lexeme.allWithin, place_cons] at h
          cases hm : (Lexeme.first c cs).meaning with
          | gap =>
              have hgap := Lexeme.isGap_of_first hm
              rw [hm, Lexeme.first_of_isGap hgap] at h
              exact .gap hgap (ih (Nat.le_of_succ_le_succ hn) h)
          | token k =>
              rw [hm] at h
              obtain ⟨us, hus, hts⟩ := except_bind_eq_ok.1 h
              cases hts
              have hw := Lexeme.written_first hm
              have hrest := ih (length_rest_of_first hw.ne_nil hn) hus
              rw [← Lexeme.first_append c cs]
              exact .token hw hrest
          | fault fault =>
              rw [hm] at h
              cases h

theorem cut_of_place {offset : Nat} {cs : List Char} {ts : List Token}
    (h : place offset (Lexeme.all cs) = .ok ts) : Cut offset cs ts :=
  cut_of_placeWithin (Nat.le_refl _) h

/-- A fault among lexemes is one of them, and those before it are as long as its offset says. -/
theorem place_error {offset : Nat} {ls : List Lexeme} {e : ScanError} (h : place offset ls = .error e) :
    ∃ before l after, ls = before ++ l :: after ∧
      e.span = ⟨offset + utf8Length (before.flatMap Lexeme.text), utf8Length l.text⟩ := by
  induction ls generalizing offset with
  | nil => cases h
  | cons l ls ih =>
      have later : place (offset + utf8Length l.text) ls = .error e → ∃ before m after,
          l :: ls = before ++ m :: after ∧
            e.span = ⟨offset + utf8Length (before.flatMap Lexeme.text), utf8Length m.text⟩ := by
        intro hls
        obtain ⟨before, m, after, rfl, hspan⟩ := ih hls
        refine ⟨l :: before, m, after, rfl, ?_⟩
        rw [hspan, List.flatMap_cons, utf8Length_append, Nat.add_assoc]
      rw [place_cons] at h
      cases hm : l.meaning with
      | gap =>
          rw [hm] at h
          exact later h
      | token k =>
          rw [hm] at h
          obtain hls | ⟨ts, -, hts⟩ := except_bind_eq_error.1 h
          · exact later hls
          · cases hts
      | fault fault =>
          rw [hm] at h
          cases h
          exact ⟨[], l, ls, rfl, rfl⟩

/-- The lexemes of a text, one after another, are a beginning of it. -/
theorem flatMap_allWithin_prefix (n : Nat) (cs : List Char) :
    (Lexeme.allWithin n cs).flatMap Lexeme.text <+: cs := by
  induction n generalizing cs with
  | zero => exact List.nil_prefix
  | succ n ih =>
      cases cs with
      | nil => exact List.nil_prefix
      | cons c cs =>
          have happend : _ <+: (Lexeme.first c cs).text ++ (Lexeme.first c cs).rest :=
            (List.prefix_append_right_inj _).2 (ih (Lexeme.first c cs).rest)
          rwa [Lexeme.first_append] at happend

/-- The fault of a line is a stretch of it. -/
theorem exists_stretch_of_place_error {offset : Nat} {cs : List Char} {e : ScanError}
    (h : place offset (Lexeme.all cs) = .error e) :
    ∃ before text after, cs = before ++ text ++ after ∧
      e.span = ⟨offset + utf8Length before, utf8Length text⟩ := by
  obtain ⟨before, l, after, hls, hspan⟩ := place_error h
  have hall : (before ++ l :: after).flatMap Lexeme.text <+: cs := by
    rw [← hls]
    exact flatMap_allWithin_prefix cs.length cs
  rw [List.flatMap_append, List.flatMap_cons, ← List.append_assoc] at hall
  obtain ⟨after', hcs⟩ := hall
  refine ⟨before.flatMap Lexeme.text, l.text, after.flatMap Lexeme.text ++ after', ?_, hspan⟩
  rw [← hcs, List.append_assoc]

end Scan

end CostBound
