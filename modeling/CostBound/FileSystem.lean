import CostBound.Path

/-!
# Files

* `FileError` — why a file cannot be read.
* `FileSystem` — the questions that are asked of files and folders.
* `FileTree` — a tree of files and folders that answers them.
-/

namespace CostBound

/-- Why a file cannot be read. -/
inductive FileError where
  | notFound
  | notDirectory
  | isDirectory
  | nameTooLong
  | notText
  | other (message : String)
deriving DecidableEq, Repr

/-- The wording of the error. -/
def FileError.message : FileError → String
  | notFound => "No such file or directory (os error 2)"
  | notDirectory => "Not a directory (os error 20)"
  | isDirectory => "Is a directory (os error 21)"
  | nameTooLong => "File name too long (os error 36)"
  | notText => "stream did not contain valid UTF-8"
  | other message => message

/-- The questions that are asked of files and folders. -/
structure FileSystem (m : Type → Type) where
  /-- The absolute path without detours, of something that exists. -/
  canonical? : Path → m (Option Path)
  isFile : Path → m Bool
  holds : Path → m Bool
  /-- The text of a file. -/
  read : Path → m (Except FileError String)

/-- A file or a folder. -/
inductive FileTree.Entry where
  | file (bytes : ByteArray)
  | folder

/-- Files and folders by the names that lead to them from the root, the last name first. The root itself is always
there. -/
structure FileTree where
  entries : List (List String × FileTree.Entry)

namespace FileTree

/-- What stands at a place. -/
def get? (t : FileTree) : List String → Option Entry
  | [] => some .folder
  | place => t.entries.lookup place

/-- Puts something at a place. -/
def put (t : FileTree) (place : List String) (e : Entry) : FileTree :=
  ⟨(place, e) :: t.entries.filter fun x => x.1 ≠ place⟩

/-- Makes folders for the whole of a place, if there is nothing yet. -/
def makeFolders (t : FileTree) : List String → FileTree
  | [] => t
  | name :: outer =>
      let t := t.makeFolders outer
      if (t.get? (name :: outer)).isSome then t else t.put (name :: outer) .folder

/-- Puts a file at a place, and folders around it. -/
def putFile (t : FileTree) (place : List String) (bytes : ByteArray) : FileTree :=
  (t.makeFolders place.tail).put place (.file bytes)

/-- The greatest number of bytes in a name. -/
def nameLimit : Nat := 255

/-- Follows the parts of a path, the first one first, from a place. Only a folder has parts inside it. -/
def follow (t : FileTree) : List String → List String → Except FileError (List String)
  | place, [] => .ok place
  | place, part :: parts =>
      match t.get? place with
      | none => .error .notFound
      | some (.file _) => .error .notDirectory
      | some .folder =>
          if part = "" ∨ part = "." then t.follow place parts
          else if part = ".." then t.follow place.tail parts
          else if nameLimit < part.utf8ByteSize then .error .nameTooLong
          else t.follow (part :: place) parts

/-- The place and the thing that a path leads to, seen from a folder. The empty path leads nowhere. -/
def locate (t : FileTree) (here : List String) (p : Path) : Except FileError (List String × Entry) := do
  if p.absolute = false ∧ p.parts.all (· = "") then throw .notFound
  let place ← t.follow (if p.absolute then [] else here) p.parts.reverse
  match t.get? place with
  | some e => return (place, e)
  | none => throw .notFound

/-- The greatest number of bytes in a path that something is looked up by. -/
def pathLimit : Nat := 4095

/-- Complains of a path with too many bytes. -/
def checkLength (p : Path) : Except FileError Unit :=
  if pathLimit < p.text.utf8ByteSize then .error .nameTooLong else .ok ()

/-- The same as `locate`, for a path that is handed over whole and not part by part. -/
def resolve (t : FileTree) (here : List String) (p : Path) : Except FileError (List String × Entry) := do
  checkLength p
  t.locate here p

/-- The text of a file. -/
def read (t : FileTree) (here : List String) (p : Path) : Except FileError String := do
  match ← t.resolve here p with
  | (_, .folder) => throw .isDirectory
  | (_, .file bytes) =>
      match String.fromUTF8? bytes with
      | some text => return text
      | none => throw .notText

/-- Writes a file in a folder that is there. -/
def write (t : FileTree) (here : List String) (p : Path) (text : String) : Except FileError FileTree := do
  checkLength p
  if p.absolute = false ∧ p.parts.all (· = "") then throw .notFound
  let place ← t.follow (if p.absolute then [] else here) p.parts.reverse
  match t.get? place with
  | some .folder => throw .isDirectory
  | some (.file _) => return t.put place (.file text.toUTF8)
  | none =>
      match t.get? place.tail with
      | some .folder => return t.put place (.file text.toUTF8)
      | some (.file _) => throw .notDirectory
      | none => throw .notFound

/-- The tree as it is seen from a folder. A path is made canonical part by part, so it may be of any length. -/
def fileSystem (t : FileTree) (here : List String) : FileSystem Id where
  canonical? p :=
    match t.locate here p with
    | .ok (place, _) => some ⟨true, place⟩
    | .error _ => none
  isFile p :=
    match t.resolve here p with
    | .ok (_, .file _) => true
    | _ => false
  holds p := (t.resolve here p).isOk
  read p := t.read here p

end FileTree

end CostBound
