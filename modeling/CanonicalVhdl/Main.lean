import CanonicalVhdl.Command.Run

/-!
# The program

Reads the parts of the file system that a command looks at, carries out the command,
and writes what it yields.
-/

namespace CanonicalVhdl.Main

/-- Why a file could not be read. -/
def fileError : IO.Error → FileError
  | .noFileOrDirectory .. => .notFound
  | .inappropriateType .. => .notFolder
  | .invalidArgument .. => .nameTooLong
  | e => .other (toString e).toList

/-- The contents of a file. -/
def readFile (path : String) : IO (Except FileError Text) := do
  try
    let bytes ← IO.FS.readBinFile path
    match String.fromUTF8? bytes with
    | some s => pure (.ok s.toList)
    | none => pure (.error .notUnicode)
  catch e => pure (.error (fileError e))

/-- What stands at a path.  Below a folder only files that are `wanted` are read. -/
partial def look (deep : Bool) (wanted : String → Bool) (path : String) :
    IO (Except FileError Tree) := do
  if Path.isTooLong path.toList then return .error .nameTooLong
  try
    let place ← IO.FS.realPath path
    if ← place.isDir then
      if deep then
        let entries ← place.readDir
        let trees ← entries.toList.mapM fun entry => do
          let name := entry.fileName.toList
          let tree ←
            if (← entry.path.isDir) || wanted entry.fileName then
              look true wanted (String.ofList (Path.join path.toList name))
            else pure (.ok (.file (.error .notFound)))
          let tree := match tree with
            | .ok tree => tree
            | .error e => .file (.error e)
          pure (name, tree)
        pure (.ok (.folder trees))
      else pure (.ok (.folder []))
    else
      pure (.ok (.file (← readFile path)))
  catch _ =>
    match ← readFile path with
    | .error e => pure (.error e)
    | .ok t => pure (.ok (.file (.ok t)))

/-- What stands at some paths. -/
def lookAll (deep : Bool) (wanted : String → Bool) (paths : List Text) :
    IO (List (Text × Except FileError Tree)) :=
  paths.mapM fun p => do pure (p, ← look deep wanted (String.ofList p))

/-- The finder that knows what was looked at, and what stands below it. -/
def finder (home : Text) (seen : List (Text × Except FileError Tree)) : Finder :=
  let disk := seen.foldr (fun (p, tree) d => tree.toOption.elim d (Disk.place d p))
    (Disk.empty home)
  fun p => ((seen.find? (·.1 == p)).map (·.2)).getD (disk.find p)

/-- What the command line makes the program look at. -/
def survey (home : Text) (i : Invocation) : IO Finder := do
  let shallow ← lookAll false (fun _ => true) (Discover.settingsPaths home i.options.config)
  match Discover.settings (finder home shallow) home i.options.config with
  | .error _ => pure (finder home shallow)
  | .ok (settings, root) =>
    let wanted (name : String) := settings.sources.hasExtension [.name name.toList]
    let deep ← lookAll true wanted (Command.searched i settings.sources root)
    pure (finder home (deep ++ shallow))

end CanonicalVhdl.Main

open CanonicalVhdl CanonicalVhdl.Main in
/-- Carries out the command line. -/
def main (args : List String) : IO UInt32 := do
  let home := (← IO.currentDir).toString.toList
  let terminal ← (← IO.getStderr).isTty
  let args := args.map String.toList
  let find ←
    match Invocation.parse args with
    | .ok i => survey home i
    | .error _ => pure (finder home [])
  let outcome := Command.run ⟨home, find, terminal⟩ args
  try
    for (path, text) in outcome.writes do
      IO.FS.writeFile (String.ofList path) (String.ofList text)
    IO.print (String.ofList outcome.output)
    IO.eprint (String.ofList outcome.messages)
    pure (UInt32.ofNat outcome.code)
  catch e =>
    IO.eprintln s!"error: {e}"
    pure 1
