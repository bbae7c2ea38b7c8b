import CanonicalVhdl.Files.Tree
import CanonicalVhdl.Settings.Read

/-!
# Finding settings and sources

What a command sees of the file system is a function from paths to what stands
there.

## Main definitions

* `Discover.settings` — the settings, and the folder that they concern.
* `Discover.walk` — the sources below a folder.
* `Discover.sources` — the sources that paths or settings name.
-/

namespace CanonicalVhdl

open Text

/-- What stands at each path. -/
abbrev Finder := Text → Except FileError Tree

/-- The contents of the file at a path. -/
def Finder.read (find : Finder) (p : Text) : Except FileError Text := do
  (← find p).contents

namespace Discover

/-- The name of the file that holds the settings of a folder. -/
def settingsName : Text := "vesta.toml".toList

/-! ## Settings -/

/-- Reads the settings at a path, where a file must be. -/
def readSettings (find : Finder) (p : Text) : Except Text Settings :=
  match find.read p with
  | .error e => .error ("failed to read configuration: ".toList ++ e.message)
  | .ok t =>
    match Settings.read t with
    | .error e => .error e.message
    | .ok s => .ok s

/-- Reads the settings of a folder; without any, those that hold unless said
otherwise. -/
def folderSettings (find : Finder) (folder : Text) : Except Text Settings :=
  let p := Path.join folder settingsName
  match find p with
  | .ok _ => readSettings find p
  | .error _ => .ok {}

/-- The settings, and the folder that they concern: those at a given path, those of
a given folder, or those of the working folder. -/
def settings (find : Finder) (home : Text) (config : Option Text) :
    Except Text (Settings × Text) :=
  match config with
  | none => (folderSettings find home).map (·, home)
  | some p =>
    match find p with
    | .ok (.folder _) => (folderSettings find p).map (·, p)
    | _ => (readSettings find p).map (·, (Path.parent? p).getD ['.'])

/-- The paths that `settings` looks at. -/
def settingsPaths (home : Text) (config : Option Text) : List Text :=
  match config with
  | none => [Path.join home settingsName]
  | some p => [p, Path.join p settingsName]

/-! ## Sources -/

/-- The components of a path below a folder, or of the whole path when it lies
elsewhere. -/
def relative (root p : Text) : List Component :=
  (Path.below? root p).getD (Path.components p)

mutual

/-- The sources that an entry of a folder is or holds. -/
def walk (s : SourceSettings) (root path : Text) : Tree → List Text
  | .file _ => if s.accepts (relative root path) then [path] else []
  | .folder entries =>
    if s.isExcluded (relative root path) then [] else walkEntries s root path entries

/-- The sources among the entries of a folder and below them. -/
def walkEntries (s : SourceSettings) (root folder : Text) : List (Text × Tree) → List Text
  | [] => []
  | (name, t) :: entries =>
    walk s root (Path.join folder name) t ++ walkEntries s root folder entries

end

/-- The paths to search: those given, or else those of the settings as seen from
the folder that they concern. -/
def searched (s : SourceSettings) (root : Text) (paths : List Text) : List Text :=
  if paths.isEmpty then
    s.paths.map fun p => if Path.same p ['.'] then root else Path.join root p
  else paths

/-- The sources that a path names: a file itself, or those below a folder. -/
def named (find : Finder) (s : SourceSettings) (root p : Text) : Except Text (List Text) :=
  match find p with
  | .ok (.file _) => .ok [p]
  | .ok (.folder entries) => .ok (walkEntries s root p entries)
  | .error _ => .error ("no such file or directory: ".toList ++ p)

/-- Drops each path that means the same as the one before it. -/
def dedup : List Text → List Text
  | [] => []
  | p :: ps =>
    p :: dedup (ps.dropWhile (Path.same p))
termination_by ps => ps.length
decreasing_by
  have h : (ps.dropWhile (Path.same p)).length ≤ ps.length :=
    (List.dropWhile_sublist _).length_le
  simp only [List.length_cons]
  omega

/-- The sources in order, none twice. -/
def sources (find : Finder) (s : SourceSettings) (root : Text) (paths : List Text) :
    Except Text (List Text) := do
  let found ← (searched s root paths).mapM (named find s root)
  .ok (dedup (found.flatten.mergeSort Path.le))

end Discover
end CanonicalVhdl
