import CostBound.Manifest
import CostBound.Proofs.Typing

/-!
# Finding the settings of a project

Settings are looked for from a path upwards. Going up takes the names of a path off its end, one at a time, and keeps
the rest of the path as it is written.

* `Path.names` — what a path names on its way; `Path.Parent`, `Path.Above` — one step up, and many.
* `Path.above_iff` — the paths that are gone through are those of `Path.parents`.
* `FileTree.Contains` — a folder of a tree has an entry; `FileTree.holds_child_iff` asks for it by its path.
* `Manifest.Visits`, `FileSystem.HasManifest` — the folders that are looked in, and what is looked for.
* `Manifest.find_nearest` — the nearest file is found, and settings are missing only if there is none.
-/

namespace CostBound

namespace Path

/-! ### Going up -/

/-- A part that is neither empty nor a dot. -/
def isProper (part : String) : Bool := part ≠ "" && part ≠ "."

/-- What a path names on its way, the last one first. A dot at the start of a relative path is named, too. -/
def names (p : Path) : List String :=
  if p.absolute = false ∧ p.parts.getLast? = some "." then p.parts.filter isProper ++ ["."]
  else p.parts.filter isProper

/-- `q` is the least beginning of `p`, as it is written, with all names of `p` but the last. -/
structure Parent (p q : Path) : Prop where
  absolute_eq : q.absolute = p.absolute
  written : q.parts <:+ p.parts
  names_eq : ∃ name, p.names = name :: q.names
  least : ∀ l, l <:+ q.parts → names ⟨q.absolute, l⟩ = q.names → l = q.parts

/-- Going up `i` times from `p` leads to `d`. -/
inductive Above : Path → Nat → Path → Prop
  | self (p : Path) : Above p 0 p
  | up {p q d : Path} {i : Nat} : Parent p q → Above q i d → Above p (i + 1) d

/-! ### Names and parents -/

section

variable {absolute : Bool} {part : String} {parts outer l : List String}

theorem names_nil (absolute : Bool) : names ⟨absolute, []⟩ = [] := by
  simp [names]

theorem names_cons (absolute : Bool) (part : String) (outer : List String) :
    names ⟨absolute, part :: outer⟩
      = if counts absolute part outer then part :: names ⟨absolute, outer⟩ else names ⟨absolute, outer⟩ := by
  cases outer with
  | nil =>
      by_cases hempty : part = ""
      · subst hempty
        simp [names, isProper, counts]
      · by_cases hdot : part = "."
        · subst hdot
          cases absolute <;> simp [names, isProper, counts]
        · simp [names, isProper, counts, hempty, hdot]
  | cons next outer =>
      have hlast : (part :: next :: outer).getLast? = (next :: outer).getLast? := List.getLast?_cons_cons
      have hcounts : counts absolute part (next :: outer) = isProper part := by simp [counts, isProper]
      rw [hcounts]
      by_cases hproper : isProper part = true
      · simp only [names, hlast, List.filter_cons_of_pos hproper, if_pos hproper]
        split <;> rfl
      · simp only [names, hlast, List.filter_cons_of_neg hproper, if_neg hproper]

theorem names_cons_of_counts (h : counts absolute part outer = true) :
    names ⟨absolute, part :: outer⟩ = part :: names ⟨absolute, outer⟩ := by
  rw [names_cons, if_pos h]

theorem names_cons_of_not_counts (h : ¬ counts absolute part outer = true) :
    names ⟨absolute, part :: outer⟩ = names ⟨absolute, outer⟩ := by
  rw [names_cons, if_neg h]

theorem length_names_le (h : l <:+ parts) : (names ⟨absolute, l⟩).length ≤ (names ⟨absolute, parts⟩).length := by
  induction parts with
  | nil => exact Nat.le_of_eq (by rw [List.suffix_nil.1 h])
  | cons part outer ih =>
      rcases List.suffix_cons_iff.1 h with rfl | h
      · exact Nat.le_refl _
      · refine Nat.le_trans (ih h) ?_
        by_cases hc : counts absolute part outer = true
        · rw [names_cons_of_counts hc]
          exact Nat.le_succ _
        · exact Nat.le_of_eq (by rw [names_cons_of_not_counts hc])

theorem names_trim (absolute : Bool) (parts : List String) :
    names ⟨absolute, trim absolute parts⟩ = names ⟨absolute, parts⟩ := by
  induction parts with
  | nil => rfl
  | cons part outer ih =>
      by_cases hc : counts absolute part outer = true
      · rw [trim, if_pos hc]
      · rw [trim, if_neg hc, names_cons_of_not_counts hc, ih]

theorem trim_suffix (absolute : Bool) (parts : List String) : trim absolute parts <:+ parts := by
  induction parts with
  | nil => exact List.suffix_refl _
  | cons part outer ih =>
      rw [trim]
      split
      · exact List.suffix_refl _
      · exact ih.trans (List.suffix_cons part outer)

/-- Trimming leaves as little as the names allow. -/
theorem trim_least (hl : l <:+ parts) (hnames : names ⟨absolute, l⟩ = names ⟨absolute, parts⟩) :
    trim absolute parts <:+ l := by
  induction parts with
  | nil => exact List.nil_suffix
  | cons part outer ih =>
      by_cases hc : counts absolute part outer = true
      · rw [trim, if_pos hc]
        rcases List.suffix_cons_iff.1 hl with rfl | h
        · exact List.suffix_refl _
        · -- a shorter beginning lacks the name `part`
          have hle : (names ⟨absolute, l⟩).length ≤ (names ⟨absolute, outer⟩).length := length_names_le h
          rw [hnames, names_cons_of_counts hc, List.length_cons] at hle
          omega
      · rw [trim, if_neg hc]
        rcases List.suffix_cons_iff.1 hl with rfl | h
        · exact (trim_suffix absolute outer).trans (List.suffix_cons part outer)
        · exact ih h (hnames.trans (names_cons_of_not_counts hc))

theorem parentsOf_trim (absolute : Bool) (parts : List String) :
    parentsOf absolute (trim absolute parts) = parentsOf absolute parts := by
  induction parts with
  | nil => rfl
  | cons part outer ih =>
      by_cases hc : counts absolute part outer = true
      · rw [trim, if_pos hc]
      · rw [trim, if_neg hc, parentsOf, if_neg hc, ih]

theorem parent_iff_of_counts (hc : counts absolute part outer = true) {q : Path} :
    Parent ⟨absolute, part :: outer⟩ q ↔ q = ⟨absolute, trim absolute outer⟩ := by
  have hcons : names ⟨absolute, part :: outer⟩ = part :: names ⟨absolute, outer⟩ := names_cons_of_counts hc
  have htrim := names_trim absolute outer
  have hsuffix := trim_suffix absolute outer
  constructor
  · obtain ⟨absolute', l⟩ := q
    rintro ⟨rfl, hl, ⟨name, hname⟩, hleast⟩
    obtain ⟨rfl, hrest⟩ := List.cons_eq_cons.1 (hcons.symm.trans hname)
    -- the whole path has one name too many
    rcases List.suffix_cons_iff.1 hl with rfl | hl
    · exact absurd hname.symm (List.cons_ne_self _ _)
    · rw [hleast _ (trim_least hl hrest.symm) (htrim.trans hrest)]
  · rintro rfl
    refine ⟨rfl, hsuffix.trans (List.suffix_cons part outer), ⟨part, by rw [hcons, htrim]⟩, fun l hl hnames => ?_⟩
    exact hl.eq_of_length_le (trim_least (hl.trans hsuffix) (hnames.trans htrim)).length_le

theorem parent_iff_of_not_counts (hc : ¬ counts absolute part outer = true) {q : Path} :
    Parent ⟨absolute, part :: outer⟩ q ↔ Parent ⟨absolute, outer⟩ q := by
  have hnames : names ⟨absolute, part :: outer⟩ = names ⟨absolute, outer⟩ := names_cons_of_not_counts hc
  constructor
  · obtain ⟨absolute', l⟩ := q
    rintro ⟨rfl, hl, hname, hleast⟩
    -- the whole path is not the least one with its names
    rcases List.suffix_cons_iff.1 hl with rfl | hl
    · exact absurd (hleast outer (List.suffix_cons part outer) hnames.symm).symm (List.cons_ne_self _ _)
    · exact ⟨rfl, hl, hnames ▸ hname, hleast⟩
  · rintro ⟨habsolute, hl, hname, hleast⟩
    exact ⟨habsolute, hl.trans (List.suffix_cons part outer), hnames ▸ hname, hleast⟩

end

variable {p q d : Path}

/-- The first of the paths above a path is its parent, and the others are above that one. -/
theorem parents_eq_cons_iff {rest : List Path} : p.parents = q :: rest ↔ Parent p q ∧ rest = q.parents := by
  obtain ⟨absolute, parts⟩ := p
  induction parts with
  | nil =>
      refine iff_of_false (fun h => by cases h) ?_
      rintro ⟨⟨_, _, ⟨name, hname⟩, _⟩, _⟩
      cases (names_nil absolute).symm.trans hname
  | cons part outer ih =>
      by_cases hc : counts absolute part outer = true
      · have hparents :
            parents ⟨absolute, part :: outer⟩ = ⟨absolute, trim absolute outer⟩ :: parentsOf absolute outer :=
          if_pos hc
        rw [hparents, parent_iff_of_counts hc, List.cons_eq_cons]
        constructor
        · rintro ⟨rfl, rfl⟩
          exact ⟨rfl, (parentsOf_trim absolute outer).symm⟩
        · rintro ⟨rfl, rfl⟩
          exact ⟨rfl, (parentsOf_trim absolute outer).symm⟩
      · have hparents : parents ⟨absolute, part :: outer⟩ = parents ⟨absolute, outer⟩ := if_neg hc
        rw [hparents, parent_iff_of_not_counts hc]
        exact ih

theorem above_iff {i : Nat} : Above p i d ↔ (p :: p.parents)[i]? = some d := by
  induction i generalizing p with
  | zero =>
      constructor
      · rintro ⟨⟩
        rfl
      · rintro ⟨⟩
        exact .self _
  | succ i ih =>
      rw [List.getElem?_cons_succ]
      constructor
      · rintro (_ | ⟨hparent, habove⟩)
        rw [parents_eq_cons_iff.2 ⟨hparent, rfl⟩]
        exact ih.1 habove
      · intro h
        cases hparents : p.parents with
        | nil =>
            rw [hparents] at h
            cases h
        | cons q rest =>
            obtain ⟨hparent, rfl⟩ := parents_eq_cons_iff.1 hparents
            rw [hparents] at h
            exact .up hparent (ih.2 h)

theorem length_parents (p : Path) : p.parents.length = p.names.length := by
  obtain ⟨absolute, parts⟩ := p
  show (parentsOf absolute parts).length = _
  induction parts with
  | nil =>
      rw [names_nil]
      rfl
  | cons part outer ih =>
      by_cases hc : counts absolute part outer = true
      · rw [names_cons_of_counts hc, parentsOf, if_pos hc, List.length_cons, List.length_cons, ih]
      · rw [names_cons_of_not_counts hc, parentsOf, if_neg hc, ih]

/-- There are as many steps up as there are names. -/
theorem exists_above_iff {i : Nat} : (∃ d, Above p i d) ↔ i ≤ p.names.length := by
  rw [← length_parents]
  constructor
  · rintro ⟨d, h⟩
    exact Nat.lt_succ_iff.1 (List.getElem?_eq_some_iff.1 (above_iff.1 h)).1
  · intro h
    have hi : i < (p :: p.parents).length := Nat.lt_succ_iff.2 h
    exact ⟨_, above_iff.2 (List.getElem?_eq_getElem hi)⟩

theorem child_eq (p : Path) (name : String) :
    ∃ outer, p.child name = ⟨p.absolute, name :: outer⟩ ∧ (p.parts = outer ∨ p.parts = "" :: outer) := by
  unfold child
  split
  next outer h => exact ⟨outer, rfl, Or.inr h⟩
  next => exact ⟨p.parts, rfl, Or.inl rfl⟩

end Path

/-! ### Entries of folders in a tree -/

namespace FileTree

/-- The folder that a path leads to, seen from `here`, has an entry with a name, and the path to the entry is not too
long to look something up by it. The empty path leads to `here`. -/
def Contains (t : FileTree) (here : List String) (folder : Path) (name : String) : Prop :=
  ∃ place, t.follow (if folder.absolute then [] else here) folder.parts.reverse = .ok place
    ∧ t.get? place = some .folder ∧ (t.get? (name :: place)).isSome
    ∧ (folder.child name).text.utf8ByteSize ≤ pathLimit

/-- A name that an entry of a folder can have. -/
def IsEntryName (name : String) : Prop :=
  ¬ (name = "" ∨ name = ".") ∧ name ≠ ".." ∧ name.utf8ByteSize ≤ nameLimit

variable {t : FileTree} {here place place' : List String} {name : String} {p : Path}

theorem follow_cons (t : FileTree) (place : List String) (part : String) (parts : List String) :
    t.follow place (part :: parts) = t.follow place [part] >>= fun place => t.follow place parts := by
  rw [follow, follow]
  cases t.get? place with
  | none => rfl
  | some e =>
      cases e with
      | file bytes => rfl
      | folder =>
          by_cases hempty : part = "" ∨ part = "."
          · simp only [if_pos hempty]
            rfl
          · by_cases hup : part = ".."
            · simp only [if_neg hempty, if_pos hup]
              rfl
            · by_cases hlong : nameLimit < part.utf8ByteSize
              · simp only [if_neg hempty, if_neg hup, if_pos hlong]
                rfl
              · simp only [if_neg hempty, if_neg hup, if_neg hlong]
                rfl

theorem follow_append (t : FileTree) (place parts parts' : List String) :
    t.follow place (parts ++ parts') = t.follow place parts >>= fun place => t.follow place parts' := by
  induction parts generalizing place with
  | nil => rfl
  | cons part parts ih =>
      rw [List.cons_append, follow_cons, follow_cons t place part parts, bind_assoc]
      exact congrArg _ (funext ih)

/-- Parts are looked for in folders only. -/
theorem get?_of_follow {part : String} {parts : List String} (h : t.follow place (part :: parts) = .ok place') :
    t.get? place = some .folder := by
  rw [follow] at h
  split at h
  next => cases h
  next => cases h
  next hfolder => exact hfolder

theorem follow_part_eq_ok_iff {part : String} {inside : List String}
    (hpart : t.get? place = some .folder → t.follow place [part] = .ok inside) :
    t.follow place [part] = .ok place' ↔ t.get? place = some .folder ∧ place' = inside := by
  constructor
  · intro h
    have hfolder := get?_of_follow h
    rw [hpart hfolder] at h
    cases h
    exact ⟨hfolder, rfl⟩
  · rintro ⟨hfolder, rfl⟩
    exact hpart hfolder

theorem follow_empty_eq_ok_iff : t.follow place [""] = .ok place' ↔ t.get? place = some .folder ∧ place' = place := by
  refine follow_part_eq_ok_iff fun hfolder => ?_
  rw [follow, hfolder]
  exact if_pos (Or.inl rfl)

theorem follow_name_eq_ok_iff (h : IsEntryName name) :
    t.follow place [name] = .ok place' ↔ t.get? place = some .folder ∧ place' = name :: place := by
  refine follow_part_eq_ok_iff fun hfolder => ?_
  rw [follow, hfolder]
  dsimp only
  rw [if_neg h.1, if_neg h.2.1, if_neg (Nat.not_lt.2 h.2.2)]
  rfl

/-- A slash at the end of a path makes no difference to what is inside. -/
theorem follow_inside_eq_ok_iff (h : IsEntryName name) {parts outer : List String}
    (hparts : parts = outer ∨ parts = "" :: outer) :
    t.follow place (name :: outer).reverse = .ok place' ↔
      ∃ inside, t.follow place parts.reverse = .ok inside ∧ t.get? inside = some .folder ∧ place' = name :: inside := by
  rw [List.reverse_cons, follow_append, except_bind_eq_ok]
  simp only [follow_name_eq_ok_iff h]
  rcases hparts with rfl | rfl
  · exact Iff.rfl
  · -- the empty part asks for a folder, and so does the name
    rw [List.reverse_cons, follow_append]
    simp only [except_bind_eq_ok, follow_empty_eq_ok_iff]
    constructor
    · rintro ⟨inside, hinside, hfolder, rfl⟩
      exact ⟨inside, ⟨inside, hinside, hfolder, rfl⟩, hfolder, rfl⟩
    · rintro ⟨_, ⟨inside, hinside, hfolder, rfl⟩, _, rfl⟩
      exact ⟨_, hinside, hfolder, rfl⟩

theorem locate_eq_ok_iff {e : Entry} :
    t.locate here p = .ok (place, e) ↔ ¬ (p.absolute = false ∧ p.parts.all (· = "") = true)
      ∧ t.follow (if p.absolute then [] else here) p.parts.reverse = .ok place ∧ t.get? place = some e := by
  unfold locate
  by_cases hempty : p.absolute = false ∧ p.parts.all (· = "") = true
  · rw [if_pos hempty]
    exact iff_of_false (fun h => by cases h) fun h => h.1 hempty
  · rw [if_neg hempty]
    show (t.follow (if p.absolute then [] else here) p.parts.reverse >>= _) = _ ↔ _
    rw [except_bind_eq_ok, and_iff_right hempty]
    constructor
    · rintro ⟨place', hfollow, h⟩
      split at h
      next e' he =>
        cases h
        exact ⟨hfollow, he⟩
      next => cases h
    · rintro ⟨hfollow, he⟩
      refine ⟨place, hfollow, ?_⟩
      rw [he]
      rfl

theorem checkLength_eq_ok_iff : checkLength p = .ok () ↔ p.text.utf8ByteSize ≤ pathLimit := by
  unfold checkLength
  split
  next h => exact iff_of_false (fun h => by cases h) (Nat.not_le.2 h)
  next h => exact iff_of_true rfl (Nat.not_lt.1 h)

theorem holds_eq_true_iff :
    ((t.fileSystem here).holds p).run = true ↔
      p.text.utf8ByteSize ≤ pathLimit ∧ ∃ place e, t.locate here p = .ok (place, e) := by
  have hok : (t.resolve here p).isOk = true ↔ ∃ r, t.resolve here p = .ok r := by
    cases t.resolve here p with
    | error e => exact iff_of_false (fun h => by cases h) (fun ⟨_, h⟩ => by cases h)
    | ok r => exact iff_of_true rfl ⟨r, rfl⟩
  refine hok.trans ?_
  unfold resolve
  simp only [except_bind_eq_ok, Prod.exists]
  constructor
  · rintro ⟨place, e, _, hlength, h⟩
    exact ⟨checkLength_eq_ok_iff.1 hlength, place, e, h⟩
  · rintro ⟨hlength, place, e, h⟩
    exact ⟨place, e, (), checkLength_eq_ok_iff.2 hlength, h⟩

/-- What it means in a tree that the path of an entry is there. -/
theorem holds_child_iff (h : IsEntryName name) {folder : Path} :
    ((t.fileSystem here).holds (folder.child name)).run = true ↔ t.Contains here folder name := by
  unfold Contains
  obtain ⟨outer, hchild, hparts⟩ := folder.child_eq name
  have hname : ¬ (folder.absolute = false ∧ (name :: outer).all (· = "") = true) := by
    rw [List.all_cons, decide_eq_false fun hname => h.1 (Or.inl hname), Bool.false_and]
    exact fun hempty => absurd hempty.2 (by decide)
  rw [holds_eq_true_iff, hchild]
  simp only [locate_eq_ok_iff, follow_inside_eq_ok_iff h hparts]
  constructor
  · rintro ⟨hlength, _, e, -, ⟨place, hplace, hfolder, rfl⟩, he⟩
    exact ⟨place, hplace, hfolder, Option.isSome_of_mem he, hlength⟩
  · rintro ⟨place, hplace, hfolder, he, hlength⟩
    obtain ⟨e, he⟩ := Option.isSome_iff_exists.1 he
    exact ⟨hlength, _, e, hname, ⟨place, hplace, hfolder, rfl⟩, he⟩

end FileTree

/-! ### The nearest file -/

/-- The file with the settings is in a folder. -/
def FileSystem.HasManifest (fs : FileSystem Id) (folder : Path) : Prop :=
  (fs.holds (folder.child "tempo.toml")).run = true

namespace Manifest

/-- Folder number `i` that is looked in, where the first is the path itself, or its parent if the path is a file. -/
def Visits (fs : FileSystem Id) (start : Path) (i : Nat) (folder : Path) : Prop :=
  start.Above (if (fs.isFile start).run then i + 1 else i) folder

variable {fs : FileSystem Id} {start : Path}

theorem run_folders (fs : FileSystem Id) (start : Path) :
    (folders fs start).run = if (fs.isFile start).run then start.parents else start :: start.parents := rfl

theorem visits_iff {i : Nat} {folder : Path} : Visits fs start i folder ↔ (folders fs start).run[i]? = some folder := by
  unfold Visits
  rw [Path.above_iff, run_folders]
  split <;> rfl

theorem run_findIn (fs : FileSystem Id) (folders : List Path) :
    (findIn fs folders).run = (folders.find? fun d => (fs.holds (d.child fileName)).run).map (·.child fileName) := by
  induction folders with
  | nil => rfl
  | cons d folders ih =>
      rw [List.find?_cons, findIn]
      show (if (fs.holds (d.child fileName)).run = true then some (d.child fileName) else (findIn fs folders).run) = _
      rw [ih]
      cases (fs.holds (d.child fileName)).run <;> rfl

theorem run_find (fs : FileSystem Id) (start : Path) :
    (find fs start).run
      = ((folders fs start).run.find? fun d => (fs.holds (d.child fileName)).run).map (·.child fileName) :=
  run_findIn fs _

theorem find?_eq_some_iff_first {α : Type} {p : α → Bool} {l : List α} {a : α} :
    l.find? p = some a ↔ ∃ i : Nat, l[i]? = some a ∧ p a = true ∧ ∀ j < i, ∀ b, l[j]? = some b → ¬ p b = true := by
  rw [List.find?_eq_some_iff_getElem]
  constructor
  · rintro ⟨ha, i, hi, hget, hbefore⟩
    refine ⟨i, List.getElem?_eq_some_iff.2 ⟨hi, hget⟩, ha, fun j hj b hb => ?_⟩
    obtain ⟨_, rfl⟩ := List.getElem?_eq_some_iff.1 hb
    simpa using hbefore j hj
  · rintro ⟨i, hget, ha, hbefore⟩
    obtain ⟨hi, rfl⟩ := List.getElem?_eq_some_iff.1 hget
    refine ⟨ha, i, hi, rfl, fun j hj => ?_⟩
    simpa using hbefore j hj _ (List.getElem?_eq_getElem (Nat.lt_trans hj hi))

theorem run_find_eq_some_iff {file : Path} :
    (find fs start).run = some file ↔ ∃ i folder, Visits fs start i folder ∧ fs.HasManifest folder
      ∧ file = folder.child "tempo.toml" ∧ ∀ j < i, ∀ nearer, Visits fs start j nearer → ¬ fs.HasManifest nearer := by
  rw [run_find, Option.map_eq_some_iff]
  simp only [find?_eq_some_iff_first, visits_iff]
  constructor
  · rintro ⟨folder, ⟨i, hfolder, hhas, hnearer⟩, rfl⟩
    exact ⟨i, folder, hfolder, hhas, rfl, hnearer⟩
  · rintro ⟨i, folder, hfolder, hhas, rfl, hnearer⟩
    exact ⟨folder, ⟨i, hfolder, hhas, hnearer⟩, rfl⟩

theorem run_find_eq_none_iff :
    (find fs start).run = none ↔ ∀ i folder, Visits fs start i folder → ¬ fs.HasManifest folder := by
  rw [run_find, Option.map_eq_none_iff, List.find?_eq_none]
  simp only [visits_iff]
  constructor
  · intro h i folder hfolder
    exact h folder (List.mem_of_getElem? hfolder)
  · intro h folder hfolder
    obtain ⟨i, hi⟩ := List.mem_iff_getElem?.1 hfolder
    exact h i folder hi

/-- Settings that were read have the path of their file, so they are never all missing. -/
theorem run_load_eq_iff :
    (load fs start).run = .ok ⟨none, none, none, none⟩ ↔
      (find fs ((fs.canonical? start).run.getD start)).run = none := by
  simp only [load, Id.run_bind]
  split
  next h => exact iff_of_true rfl h
  next file h =>
    rw [h]
    refine iff_of_false ?_ (fun h => by cases h)
    simp only [Id.run_bind]
    split
    next => exact fun h => by cases h
    next source _ =>
      rw [Id.run_pure, except_bind_eq_ok]
      rintro ⟨settings, -, ⟨⟩⟩

/-- **The nearest file.** Whatever files there are, the file that is found is in the first folder on the way up that
has one, and none is found exactly if no folder on the way has one. The way takes off one name after the other until
none is left. All settings are missing exactly if there is no file on the way up from the canonical path, or from the
path as it is written if that leads nowhere. In a tree, a folder has the file exactly if its path leads to a place with
such an entry, as far as paths may be long. -/
theorem find_nearest (fs : FileSystem Id) (start : Path) :
    (∀ file, (find fs start).run = some file ↔ ∃ i folder, Visits fs start i folder ∧ fs.HasManifest folder
        ∧ file = folder.child "tempo.toml" ∧ ∀ j < i, ∀ nearer, Visits fs start j nearer → ¬ fs.HasManifest nearer)
      ∧ ((find fs start).run = none ↔ ∀ i folder, Visits fs start i folder → ¬ fs.HasManifest folder)
      ∧ (∀ i, (∃ folder, start.Above i folder) ↔ i ≤ start.names.length)
      ∧ ((load fs start).run = .ok ⟨none, none, none, none⟩ ↔
          ∀ i folder, Visits fs ((fs.canonical? start).run.getD start) i folder → ¬ fs.HasManifest folder)
      ∧ ∀ (t : FileTree) (here : List String) (folder : Path),
          (t.fileSystem here).HasManifest folder ↔ t.Contains here folder "tempo.toml" := by
  have hname : FileTree.IsEntryName "tempo.toml" := ⟨by decide, by decide, by decide⟩
  exact ⟨fun _ => run_find_eq_some_iff, run_find_eq_none_iff, fun _ => Path.exists_above_iff,
    run_load_eq_iff.trans run_find_eq_none_iff, fun _ _ _ => FileTree.holds_child_iff hname⟩

-- the way up a relative path ends in the folder that it is seen from
example : (find (FileTree.fileSystem ⟨[(["tempo.toml", "a"], .file .empty), (["a"], .folder)]⟩ ["a"])
    (.ofText "b//./c")).run = some (.ofText "tempo.toml") := by decide +kernel

end Manifest

end CostBound
