import Mathlib.Data.List.Sort
import Mathlib.Data.String.Basic
import CostBound.Command

/-!
# The order of sets of names

A set of names is an increasing list. The operations keep the order, so that two sets with the same members are
the same list (`List.Pairwise.eq_of_mem_iff`), whatever they were built from. The order is by code point, and that is
also the order of the bytes that the names are stored in.

* `insert_pairwise`, `union_pairwise`, `unions_pairwise` — the operations keep the order.
* `Expr.names_pairwise` — the names of an expression come in order, each once.
* `utf8_lt` — the order of two names is the order of their UTF-8 bytes.
-/

namespace CostBound

namespace Names

/-- Inserting a name keeps an increasing list increasing. -/
theorem insert_pairwise (x : String) {ys : List String} (h : ys.Pairwise (· < ·)) :
    (insert x ys).Pairwise (· < ·) := by
  induction ys with
  | nil => exact List.pairwise_singleton _ _
  | cons y ys ih =>
      obtain ⟨hy, hys⟩ := List.pairwise_cons.1 h
      unfold insert
      split
      · rename_i hxy
        refine List.pairwise_cons.2 ⟨fun z hz => ?_, h⟩
        rcases List.mem_cons.1 hz with rfl | hz
        · exact hxy
        · exact lt_trans hxy (hy z hz)
      · split
        · exact h
        · rename_i hxy hne
          refine List.pairwise_cons.2 ⟨fun z hz => ?_, ih hys⟩
          rcases mem_insert.1 hz with rfl | hz
          · exact lt_of_le_of_ne (not_lt.1 hxy) (Ne.symm hne)
          · exact hy z hz

/-- The union with an increasing list is increasing. -/
theorem union_pairwise (xs : List String) {ys : List String} (h : ys.Pairwise (· < ·)) :
    (union xs ys).Pairwise (· < ·) := by
  induction xs with
  | nil => exact h
  | cons x xs ih => exact insert_pairwise x ih

/-- The union of any lists is increasing. -/
theorem unions_pairwise (sets : List (List String)) : (unions sets).Pairwise (· < ·) := by
  induction sets with
  | nil => exact List.Pairwise.nil
  | cons s sets ih => exact union_pairwise s ih

/-! ### Bytes -/

open String (utf8EncodeChar)

theorem ofNat_cons_lt {a b : Nat} {xs ys : List UInt8} (ha : a < 256) (hb : b < 256) :
    UInt8.ofNat a :: xs < UInt8.ofNat b :: ys ↔ a < b ∨ a = b ∧ xs < ys := by
  have hsize : UInt8.size = 256 := rfl
  rw [List.cons_lt_cons_iff, UInt8.lt_iff_toNat_lt, ← UInt8.toNat_inj, UInt8.toNat_ofNat_of_lt' (by omega),
    UInt8.toNat_ofNat_of_lt' (by omega)]

/-- The bytes of two characters tell them apart before the shorter form ends, so it does not matter what follows. -/
theorem utf8EncodeChar_append_lt {c d : Char} (h : c < d) (xs ys : List UInt8) :
    utf8EncodeChar c ++ xs < utf8EncodeChar d ++ ys := by
  have hlt : c.val.toNat < d.val.toNat := UInt32.lt_iff_toNat_lt.1 h
  have hmax : d.val.toNat < 0x110000 := by
    have hvalid : d.val.toNat < 0xd800 ∨ 0xdfff < d.val.toNat ∧ d.val.toNat < 0x110000 := d.valid
    omega
  -- all bytes but the first hold six bits each
  have htwo : ∀ n, n / 4096 = n / 64 / 64 := by omega
  have hthree : ∀ n, n / 262144 = n / 64 / 64 / 64 := by omega
  unfold utf8EncodeChar
  simp only [htwo, hthree]
  generalize c.val.toNat = a at hlt ⊢
  generalize d.val.toNat = b at hlt hmax ⊢
  split_ifs <;> simp (disch := omega) only [List.cons_append, ofNat_cons_lt] <;> omega

theorem flatMap_utf8EncodeChar_lt {xs ys : List Char} (h : xs < ys) :
    xs.flatMap utf8EncodeChar < ys.flatMap utf8EncodeChar := by
  induction xs generalizing ys with
  | nil =>
      cases ys with
      | nil => exact absurd h (List.not_lt_nil _)
      | cons d ys =>
          obtain ⟨b, bs, hd⟩ := List.exists_cons_of_ne_nil (String.utf8EncodeChar_ne_nil (c := d))
          rw [List.flatMap_nil, List.flatMap_cons, hd, List.cons_append]
          exact List.nil_lt_cons _ _
  | cons c xs ih =>
      cases ys with
      | nil => exact absurd h (List.not_lt_nil _)
      | cons d ys =>
          rw [List.flatMap_cons, List.flatMap_cons]
          obtain hcd | ⟨rfl, hrest⟩ := List.cons_lt_cons_iff.1 h
          · exact utf8EncodeChar_append_lt hcd _ _
          · exact List.append_left_lt (ih hrest)

theorem utf8_eq_flatMap (x : String) : x.toUTF8.data.toList = x.toList.flatMap utf8EncodeChar := by
  conv => lhs; rw [← String.ofList_toList (s := x)]
  show (List.toByteArray _).data.toList = _
  rw [List.data_toByteArray]

/-- **Byte order.** Increasing names have increasing UTF-8 forms. -/
theorem utf8_lt {x y : String} (h : x < y) : List.Lex (· < ·) x.toUTF8.data.toList y.toUTF8.data.toList := by
  rw [utf8_eq_flatMap, utf8_eq_flatMap]
  exact flatMap_utf8EncodeChar_lt h

end Names

/-- The names of an expression come in order, each once. -/
theorem Expr.names_pairwise (e : Expr) : e.names.Pairwise (· < ·) := by
  induction e with
  | var name => exact List.pairwise_singleton _ _
  | lit l => exact List.Pairwise.nil
  | unary op e ih => exact ih
  | binary op l r _ ihr => exact Names.union_pairwise _ ihr
  | cond c t e _ _ ihe => exact Names.union_pairwise _ (Names.union_pairwise _ ihe)

end CostBound
