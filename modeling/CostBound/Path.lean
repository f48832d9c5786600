/-!
# Paths

A path is kept as it is written, cut at its slashes. Empty parts and single dots do not count, except for a dot at
the start of a relative path.

* `Path.ofText`, `Path.text` — from text and back.
* `Path.parents` — the paths that are left when parts are taken off the end, the longest first.
* `Path.child` — a path with one more part.
-/

namespace CostBound

/-- A path: whether it starts at the root, and its parts, the last one first. -/
structure Path where
  absolute : Bool
  parts : List String
deriving DecidableEq, Repr, Inhabited

namespace Path

/-- Cuts a text at its slashes. -/
def split : List Char → List (List Char)
  | [] => [[]]
  | c :: cs =>
      if c = '/' then [] :: split cs
      else
        match split cs with
        | [] => [[c]]
        | part :: rest => (c :: part) :: rest

/-- The path that a text stands for. -/
def ofText (text : String) : Path :=
  match text.toList with
  | '/' :: cs => ⟨true, ((split cs).map String.ofList).reverse⟩
  | cs => ⟨false, ((split cs).map String.ofList).reverse⟩

/-- The path as it was written. -/
def text (p : Path) : String := (if p.absolute then "/" else "") ++ "/".intercalate p.parts.reverse

/-- A part that names something, where `outer` are the parts before it. -/
def counts (absolute : Bool) (part : String) (outer : List String) : Bool :=
  part ≠ "" && (part ≠ "." || outer.isEmpty && !absolute)

/-- Takes off parts that do not count. -/
def trim (absolute : Bool) : List String → List String
  | [] => []
  | part :: outer =>
      if counts absolute part outer then part :: outer else trim absolute outer

/-- The paths above the one with given parts, the nearest first. -/
def parentsOf (absolute : Bool) : List String → List Path
  | [] => []
  | part :: outer =>
      if counts absolute part outer then
        ⟨absolute, trim absolute outer⟩ :: parentsOf absolute outer
      else parentsOf absolute outer

/-- The paths above a path, the nearest first. The last is the root or the empty path. -/
def parents (p : Path) : List Path := parentsOf p.absolute p.parts

/-- The path of something directly inside; a slash at the end of a path is not written twice. -/
def child (p : Path) (name : String) : Path :=
  match p.parts with
  | "" :: outer => ⟨p.absolute, name :: outer⟩
  | parts => ⟨p.absolute, name :: parts⟩

end Path

end CostBound
