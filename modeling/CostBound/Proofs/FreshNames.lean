import CostBound.Unknown
import Mathlib.Data.List.Nodup

/-!
# Fresh names

A supply puts a number after each base. A base may end in an underscore and digits of its own: the number is still what
stands after the last underscore of the name. After the greatest number the supply begins anew, so that names are
different as long as there are not more of them than numbers.

* `Unknown.numberOf` — the number at the end of a name.
* `Unknown.numbered` — the unknown of a kind with a number.
* `Supply.number` — the numbers that a supply goes through; `Supply.number_inj` tells them apart.
* `Supply.Request`, `Supply.serve`, `Supply.serveAll` — names that are asked for, one after the other.
* `Supply.Request.Met` — a name is of the form that was asked for.
* `Supply.nodup_serveAll`, `Supply.met_serveAll` — no name is given twice, and each is of its form.
-/

namespace CostBound

/-! ### Numbered unknowns -/

namespace Unknown

theorem toList_toString (n : UInt64) : (toString n).toList = Nat.toDigits 10 n.toNat := by
  show (toString n.toNat).toList = _
  rw [Nat.toString_eq_repr, Nat.toList_repr]

/-- The number after the last underscore of a name. -/
def numberOf (name : String) : Nat :=
  Nat.ofDigitChars 10 (name.toList.reverse.takeWhile (· ≠ '_')).reverse 0

/-- The last underscore is the one before the number, as no digit is an underscore. -/
theorem numberOf_append (base : String) (n : UInt64) : numberOf (base ++ "_" ++ toString n) = n.toNat := by
  have hdigits : ∀ c ∈ (Nat.toDigits 10 n.toNat).reverse, decide (c ≠ '_') = true := by
    intro c hc
    have hdigit := Nat.isDigit_of_mem_toDigits (by decide) (by decide) (List.mem_reverse.1 hc)
    rw [decide_eq_true_iff]
    rintro rfl
    exact absurd hdigit (by decide)
  have hreverse : (base ++ "_" ++ toString n).toList.reverse
      = (Nat.toDigits 10 n.toNat).reverse ++ '_' :: base.toList.reverse := by
    rw [String.toList_append, String.toList_append, toList_toString, List.reverse_append, List.reverse_append]
    rfl
  unfold numberOf
  rw [hreverse, List.takeWhile_append_of_pos hdigits, List.takeWhile_cons_of_neg (by decide), List.append_nil,
    List.reverse_reverse]
  exact Nat.ofDigitChars_toDigits (by decide) (by decide)

theorem Kind.base_append (kind : Kind) : kind.base ++ "_" = kind.mark := by
  cases kind <;> rfl

/-- The unknown of a kind with a number. -/
def numbered (kind : Kind) (n : UInt64) : Unknown := ⟨kind.mark ++ toString n, kind⟩

theorem ofName?_numbered (kind : Kind) (n : UInt64) : Kind.ofName? (numbered kind n).name = some kind := by
  unfold Kind.ofName? numbered
  simp only [String.toList_append]
  cases kind with
  | scale =>
      rw [if_pos (List.isPrefixOf_iff_prefix.2 (List.prefix_append _ _))]
  | offset =>
      have hscale : Kind.scale.mark.toList.isPrefixOf (Kind.offset.mark.toList ++ (toString n).toList) = false := rfl
      rw [hscale, if_neg (by decide), if_pos (List.isPrefixOf_iff_prefix.2 (List.prefix_append _ _))]

end Unknown

namespace Supply

theorem freshUnknown_eq (s : Supply) (kind : Unknown.Kind) :
    s.freshUnknown kind = ((Unknown.numbered kind (s.given + 1)).name, ⟨s.given + 1⟩) := by
  show (kind.base ++ "_" ++ toString (s.given + 1), _) = _
  rw [Unknown.Kind.base_append]
  rfl

/-! ### The numbers of a supply -/

/-- Number `k`, counted from zero, of those that a supply gives from here on. -/
def number (s : Supply) (k : Nat) : UInt64 := s.given + 1 + .ofNat k

theorem number_zero (s : Supply) : s.number 0 = s.given + 1 := UInt64.add_zero _

theorem number_succ (s : Supply) (k : Nat) : s.number (k + 1) = number ⟨s.given + 1⟩ k := by
  unfold number
  rw [Nat.add_comm, UInt64.ofNat_add, ← UInt64.add_assoc]
  rfl

/-- Numbers come back only after all the others. -/
theorem number_inj {s : Supply} {j k : Nat} (hj : j < UInt64.size) (hk : k < UInt64.size) :
    s.number j = s.number k ↔ j = k := by
  unfold number
  rw [UInt64.add_right_inj, ← UInt64.toNat_inj, UInt64.toNat_ofNat_of_lt' hj, UInt64.toNat_ofNat_of_lt' hk]

/-! ### One request -/

/-- What a supply is asked for: a name on some base, or an unknown of a kind. -/
inductive Request where
  | named (base : String)
  | unknown (kind : Unknown.Kind)
deriving DecidableEq, Repr

/-- A name on a base starts with it and an underscore; a name for an unknown is classified as of its kind. -/
def Request.Met : Request → String → Prop
  | named base, name => base.toList ++ ['_'] <+: name.toList
  | unknown kind, name => Unknown.Kind.ofName? name = some kind

/-- The name for a request, and the supply after it. -/
def serve (s : Supply) : Request → String × Supply
  | .named base => s.fresh base
  | .unknown kind => s.freshUnknown kind

/-- Each request uses up one number, whatever it asks for. -/
theorem numberOf_serve (s : Supply) (r : Request) :
    Unknown.numberOf (s.serve r).1 = (s.number 0).toNat ∧ (s.serve r).2 = ⟨s.given + 1⟩ := by
  rw [number_zero]
  cases r with
  | named base => exact ⟨Unknown.numberOf_append base _, rfl⟩
  | unknown kind => exact ⟨Unknown.numberOf_append kind.base _, rfl⟩

theorem met_serve (s : Supply) (r : Request) : r.Met (s.serve r).1 := by
  cases r with
  | named base =>
      show base.toList ++ ['_'] <+: (base ++ "_" ++ toString (s.given + 1)).toList
      rw [String.toList_append, String.toList_append]
      exact List.prefix_append _ _
  | unknown kind =>
      show Unknown.Kind.ofName? (s.freshUnknown kind).1 = some kind
      rw [freshUnknown_eq]
      exact Unknown.ofName?_numbered kind _

/-! ### Many requests -/

/-- The names for requests in their order, and the supply after them. -/
def serveAll (s : Supply) : List Request → List String × Supply
  | [] => ([], s)
  | r :: rs =>
      let (name, s) := s.serve r
      let (names, s) := s.serveAll rs
      (name :: names, s)

theorem map_numberOf_serveAll (s : Supply) (rs : List Request) :
    (s.serveAll rs).1.map Unknown.numberOf = (List.range rs.length).map fun k => (s.number k).toNat := by
  induction rs generalizing s with
  | nil => rfl
  | cons r rs ih =>
      obtain ⟨hnumber, hnext⟩ := s.numberOf_serve r
      show Unknown.numberOf (s.serve r).1 :: ((s.serve r).2.serveAll rs).1.map Unknown.numberOf = _
      rw [hnumber, hnext, ih, List.length_cons, List.range_succ_eq_map, List.map_cons, List.map_map]
      simp only [Function.comp_def, Nat.succ_eq_add_one, number_succ]

/-- Names with different numbers are different. -/
theorem nodup_serveAll (s : Supply) {rs : List Request} (h : rs.length ≤ UInt64.size) : (s.serveAll rs).1.Nodup := by
  have hnumbers : ((s.serveAll rs).1.map Unknown.numberOf).Nodup := by
    rw [map_numberOf_serveAll]
    refine List.nodup_range.map_on fun j hj k hk hjk => ?_
    have hj' := List.mem_range.1 hj
    have hk' := List.mem_range.1 hk
    exact (number_inj (by omega) (by omega)).1 (UInt64.toNat_inj.1 hjk)
  exact hnumbers.of_map _

theorem met_serveAll (s : Supply) (rs : List Request) : List.Forall₂ Request.Met rs (s.serveAll rs).1 := by
  induction rs generalizing s with
  | nil => exact .nil
  | cons r rs ih => exact .cons (s.met_serve r) (ih _)

/-- **Fresh names never collide.** From any start, and on any bases, the names that a supply gives are pairwise
different as long as there is a number for each, and each is of the form that was asked for. The start may be so great
that the numbers begin anew in between. -/
theorem serveAll_distinct (s : Supply) (rs : List Request) :
    (rs.length ≤ UInt64.size → (s.serveAll rs).1.Nodup) ∧ List.Forall₂ Request.Met rs (s.serveAll rs).1 :=
  ⟨s.nodup_serveAll, s.met_serveAll rs⟩

/-- Requests for names on bases that end in digits, and for an unknown. -/
def lateRequests : List Request := [.named "t", .named "t_1", .unknown .scale, .named "t_1_"]

/-- After two names the numbers begin anew. -/
theorem serveAll_distinct_lateRequests :
    (serveAll ⟨0xfffffffffffffffd⟩ lateRequests).1
        = ["t_18446744073709551614", "t_1_18446744073709551615", "c0__0", "t_1__1"]
      ∧ lateRequests.length ≤ UInt64.size
      ∧ (serveAll ⟨0xfffffffffffffffd⟩ lateRequests).1.Nodup
      ∧ List.Forall₂ Request.Met lateRequests (serveAll ⟨0xfffffffffffffffd⟩ lateRequests).1 := by
  have hlength : lateRequests.length ≤ UInt64.size := by decide
  obtain ⟨hdistinct, hmet⟩ := serveAll_distinct ⟨0xfffffffffffffffd⟩ lateRequests
  exact ⟨by decide +kernel, hlength, hdistinct hlength, hmet⟩

end Supply

end CostBound
