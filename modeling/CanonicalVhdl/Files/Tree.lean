import CanonicalVhdl.Files.Path

/-!
# Files and folders

The part of a file system that a command looks at.

## Main definitions

* `Tree` — a file or a folder; `FileError` says why a file could not be read.
* `Tree.find` — what stands at a path.
* `Disk` — a file system with a working folder.
-/

namespace CanonicalVhdl

open Text

/-- Why there is nothing to read at a path. -/
inductive FileError where
  /-- Nothing is there. -/
  | notFound
  /-- A part of the path that should be a folder is a file. -/
  | notFolder
  /-- A folder is there. -/
  | isFolder
  /-- A name is too long. -/
  | nameTooLong
  /-- The file is no text. -/
  | notUnicode
  /-- Another reason, in words. -/
  | other (message : Text)
deriving DecidableEq

namespace FileError

/-- The message about a file that could not be read. -/
def message : FileError → Text
  | notFound => "No such file or directory (os error 2)".toList
  | notFolder => "Not a directory (os error 20)".toList
  | isFolder => "Is a directory (os error 21)".toList
  | nameTooLong => "File name too long (os error 36)".toList
  | notUnicode => "stream did not contain valid UTF-8".toList
  | other message => message

end FileError

/-- A file or a folder. -/
inductive Tree where
  /-- A file with its contents, or the reason why they cannot be read. -/
  | file (contents : Except FileError Text)
  /-- A folder with its entries. -/
  | folder (entries : List (Text × Tree))

namespace Tree

/-- The contents of a file. -/
def contents : Tree → Except FileError Text
  | file contents => contents
  | folder _ => .error .isFolder

/-- The entry of a folder. -/
def entry? (name : Text) (entries : List (Text × Tree)) : Option Tree :=
  (entries.find? (·.1 == name)).map (·.2)

/-- The longest name, in bytes. -/
def maxNameBytes : Nat := 255

/-- What the parts of a path lead to from here; `above` holds the folders passed on
the way here, the nearest first. -/
def find (above : List Tree) (here : Tree) : List Text → Except FileError Tree
  | [] => .ok here
  | part :: parts =>
    match here with
    | file _ => .error .notFolder
    | folder entries =>
      if part.isEmpty || part == ['.'] then find above here parts
      else if part == ['.', '.'] then
        match above with
        | [] => find [] here parts
        | t :: above => find above t parts
      else if maxNameBytes < byteLength part then .error .nameTooLong
      else
        match entry? part entries with
        | none => .error .notFound
        | some t => find (here :: above) t parts

/-- The entries with what `f` makes of one of them, which may be new. -/
def alterEntry (name : Text) (f : Option Tree → Tree) :
    List (Text × Tree) → List (Text × Tree)
  | [] => [(name, f none)]
  | (n, t) :: entries =>
    if n == name then (n, f (some t)) :: entries else (n, t) :: alterEntry name f entries

/-- Puts a tree at the place that names lead to; folders on the way are made. -/
def place (t : Tree) : List Text → Option Tree → Tree
  | [], _ => t
  | name :: names, some (folder entries) => folder (alterEntry name (place t names) entries)
  | name :: names, _ => folder [(name, place t names none)]

mutual

/-- A tree as it is seen when it is walked from a path: a folder whose path is too
long looks like a file that cannot be read. -/
def seenFrom (path : Text) : Tree → Tree
  | file contents => file contents
  | folder entries =>
    if Path.isTooLong path then file (.error .nameTooLong)
    else folder (entriesSeenFrom path entries)

/-- The entries of a folder as they are seen from its path. -/
def entriesSeenFrom (path : Text) : List (Text × Tree) → List (Text × Tree)
  | [] => []
  | (name, t) :: entries =>
    (name, t.seenFrom (Path.join path name)) :: entriesSeenFrom path entries

end

mutual

/-- The files below a path with their contents. -/
def files (path : Text) : Tree → List (Text × Except FileError Text)
  | file contents => [(path, contents)]
  | folder entries => filesIn path entries

/-- The files of a folder's entries. -/
def filesIn (path : Text) : List (Text × Tree) → List (Text × Except FileError Text)
  | [] => []
  | (name, t) :: entries => t.files (Path.join path name) ++ filesIn path entries

end

end Tree

/-- A file system with a working folder. -/
structure Disk where
  /-- The absolute path of the working folder. -/
  home : Text
  /-- Everything from the root on. -/
  root : Tree

namespace Disk

/-- What stands at a path. -/
def find (d : Disk) (p : Text) : Except FileError Tree :=
  if p.isEmpty then .error .notFound
  else if Path.isTooLong p then .error .nameTooLong
  else (Tree.find [] d.root (splitOn '/' (Path.join d.home p))).map (·.seenFrom p)

/-- The names that lead from the root to a path. -/
def names (d : Disk) (p : Text) : List Text :=
  (splitOn '/' (Path.join d.home p)).foldl
    (fun names part =>
      if part.isEmpty || part == ['.'] then names
      else if part == ['.', '.'] then names.dropLast
      else names ++ [part])
    []

/-- Puts a tree at a path. -/
def place (d : Disk) (p : Text) (t : Tree) : Disk :=
  ⟨d.home, Tree.place t (d.names p) (some d.root)⟩

/-- A disk with nothing but an empty working folder. -/
def empty (home : Text) : Disk :=
  (⟨home, .folder []⟩ : Disk).place home (.folder [])

/-- Writes texts to files. -/
def write (d : Disk) (writes : List (Text × Text)) : Disk :=
  writes.foldl (fun d (p, t) => d.place p (.file (.ok t))) d

/-- The files of the working folder, by their paths from there. -/
def files (d : Disk) : List (Text × Except FileError Text) :=
  match d.find d.home with
  | .ok t => t.files []
  | .error _ => []

/-- Whether a file of the working folder has the given contents. -/
def holds (d : Disk) (path t : Text) : Bool :=
  d.files.any fun (p, contents) =>
    p == path && match contents with
      | .ok u => u == t
      | .error _ => false

/-- The text files of the working folder that are new or differ from before. -/
def changes (before after : Disk) : List (Text × Text) :=
  after.files.filterMap fun (p, contents) =>
    match contents with
    | .ok t => if before.holds p t then none else some (p, t)
    | .error _ => none

end Disk
end CanonicalVhdl
