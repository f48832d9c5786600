import CostBound.Program

/-!
# Unknown constants

Names with a reserved beginning stand for constants that a solver may choose.

* `Unknown.Kind`, `Unknown.Kind.ofName?` — the two kinds, told apart by the beginning of a name.
* `Unknown` — a name with its kind.
* `Supply` — a supply of fresh names.
* `Program.scaled` — every bound `T` becomes `c0 * T + c1` with two fresh unknowns.
-/

namespace CostBound

namespace Unknown

/-- A factor or a summand of a bound. -/
inductive Kind where
  | scale
  | offset
deriving DecidableEq, Repr, Inhabited

namespace Kind

/-- How names of a kind begin. -/
def mark : Kind → String
  | scale => "c0__"
  | offset => "c1__"

/-- The kind of an unknown; other names have none. -/
def ofName? (name : String) : Option Kind :=
  if scale.mark.toList.isPrefixOf name.toList then some scale
  else if offset.mark.toList.isPrefixOf name.toList then some offset
  else none

/-- The least value that a solver may choose. -/
def lowerBound : Kind → Nat
  | scale => 0
  | offset => 1

/-- What a fresh name of a kind is built on. -/
def base : Kind → String
  | scale => "c0_"
  | offset => "c1_"

end Kind

end Unknown

/-- A constant that a solver may choose. -/
structure Unknown where
  name : String
  kind : Unknown.Kind
deriving DecidableEq, Repr, Inhabited

/-- The unknown that a name stands for, if its beginning is reserved. -/
def Unknown.ofName? (name : String) : Option Unknown := (Kind.ofName? name).map (⟨name, ·⟩)

/-- A supply of fresh names: the number of the name that it gave last. Numbers have 64 bits, and begin anew after the
greatest one. -/
structure Supply where
  given : UInt64
deriving DecidableEq, Repr, Inhabited

namespace Supply

/-- The next name on a base. -/
def fresh (s : Supply) (base : String) : String × Supply :=
  (base ++ "_" ++ toString (s.given + 1), ⟨s.given + 1⟩)

/-- The next unknown of a kind. -/
def freshUnknown (s : Supply) (kind : Unknown.Kind) : String × Supply := s.fresh kind.base

/-- A bound with an unknown factor and an unknown summand. -/
def scale (s : Supply) (bound : Expr) : Expr × Supply :=
  let (factor, s) := s.freshUnknown .scale
  let (summand, s) := s.freshUnknown .offset
  (.binary .add (.binary .mul (.var factor) bound) (.var summand), s)

/-- Scales the bounds of functions, in order. -/
def scaleAll (s : Supply) : List Function → List Function × Supply
  | [] => ([], s)
  | f :: fs =>
      let (bound, s) := s.scale f.bound
      let (fs, s) := s.scaleAll fs
      (f.withBound bound :: fs, s)

end Supply

/-- The program with every bound scaled by fresh unknowns. -/
def Program.scaled (p : Program) (s : Supply) : Program × Supply :=
  let (fs, s) := s.scaleAll p.functions
  (⟨fs⟩, s)

end CostBound
