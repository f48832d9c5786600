/-!
# Sets of names

A set of names is a strictly increasing list, so that equal sets are equal lists and a set is listed in the
order of its names (by code point, which is also the order of their UTF-8 bytes).

* `Names.insert`, `Names.union`, `Names.unions` — the operations that build such lists.
* `mem_insert`, `mem_union`, `mem_unions` — what they contain.
-/

namespace CostBound.Names

/-- Puts a name in its place, once. -/
def insert (x : String) : List String → List String
  | [] => [x]
  | y :: ys => if x < y then x :: y :: ys else if x = y then y :: ys else y :: insert x ys

/-- The names of both lists. -/
def union (xs ys : List String) : List String := xs.foldr insert ys

/-- The names of all the lists. -/
def unions (sets : List (List String)) : List String := sets.foldr union []

@[simp]
theorem mem_insert {x z : String} {ys : List String} : z ∈ insert x ys ↔ z = x ∨ z ∈ ys := by
  induction ys with
  | nil => simp [insert]
  | cons y ys ih =>
      simp only [insert]
      split
      · simp
      · split
        · rename_i h
          subst h
          simp
        · simp only [List.mem_cons, ih]
          constructor
          · rintro (h | h | h) <;> simp [h]
          · rintro (h | h | h) <;> simp [h]

@[simp]
theorem mem_union {z : String} {xs ys : List String} : z ∈ union xs ys ↔ z ∈ xs ∨ z ∈ ys := by
  induction xs with
  | nil => simp [union]
  | cons x xs ih =>
      have h : union (x :: xs) ys = insert x (union xs ys) := rfl
      rw [h, mem_insert, ih, List.mem_cons, or_assoc]

@[simp]
theorem mem_unions {z : String} {sets : List (List String)} :
    z ∈ unions sets ↔ ∃ s ∈ sets, z ∈ s := by
  induction sets with
  | nil => simp [unions]
  | cons s sets ih =>
      have h : unions (s :: sets) = union s (unions sets) := rfl
      rw [h, mem_union, ih]
      simp

end CostBound.Names
