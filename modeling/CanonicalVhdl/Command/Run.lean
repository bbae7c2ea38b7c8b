import CanonicalVhdl.Command.Arguments
import CanonicalVhdl.Command.Discover
import CanonicalVhdl.Command.Format
import CanonicalVhdl.Diagnostic.Render
import CanonicalVhdl.Json.Design

/-!
# The commands

A command is a function of its options and of what stands at the paths that it
looks at.  It yields what to print, what to write, and whether all was well.

## Main definitions

* `Outcome` — what a command yields.
* `Command.check`, `Command.format`, `Command.dump` — the commands.
* `Command.run` — carries out a command line.
-/

namespace CanonicalVhdl

open Text

/-- What a command yields. -/
structure Outcome where
  /-- The status to exit with. -/
  code : Nat
  /-- What to print as output. -/
  output : Text := []
  /-- What to print as messages. -/
  messages : Text := []
  /-- The files to write, with their contents. -/
  writes : List (Text × Text) := []
deriving DecidableEq

/-- What a command sees of the world. -/
structure World where
  /-- The working folder. -/
  home : Text
  /-- What stands at each path. -/
  find : Finder
  /-- Whether messages go to a terminal. -/
  terminal : Bool

namespace Command

/-- A message on a line of its own. -/
def line (parts : List Text) : Text := parts.flatten ++ ['\n']

/-- The outcome of a command that could not be carried out. -/
def failed (message : Text) : Outcome where
  code := 1
  messages := line ["error: ".toList, message]

/-- Whether reports are colored. -/
def isColored (w : World) (o : CommandOptions) : Bool :=
  match o.color with
  | .auto => w.terminal
  | .always => true
  | .never => false

/-- Reads files in order. -/
def load (find : Finder) (paths : List Text) : Except Text FileTable := do
  let files ← paths.mapM fun p =>
    match find.read p with
    | .ok t => Except.ok (⟨p, t⟩ : SourceFile)
    | .error e => .error ("failed to read ".toList ++ p ++ ": ".toList ++ e.message)
  .ok ⟨files⟩

/-- The files with their numbers. -/
def numbered (files : FileTable) : List (FileId × SourceFile) :=
  files.files.zipIdx.map fun (f, i) => (UInt32.ofNat i, f)

/-- A file that has been read, or the reports about it. -/
abbrev Reviewed := FileId × SourceFile × Except (List Diagnostic) DesignFile

/-- Reads every file as a design file. -/
def reviewAll (files : FileTable) : List Reviewed :=
  (numbered files).map fun (id, f) => (id, f, f.review Limits.depth id)

/-- The reports about files. -/
def complaints (reviewed : List Reviewed) : List Diagnostic :=
  reviewed.flatMap fun (_, _, result) =>
    match result with
    | .ok _ => []
    | .error ds => ds

/-- The line about each file that is read. -/
def progress (o : CommandOptions) (files : FileTable) : Text :=
  if o.verbose then files.files.flatMap fun f => line ["    Parsing ".toList, f.path] else []

/-- Whether a report comes before another or at the same place; those without a
place come last. -/
def reportLe (a b : Diagnostic) : Bool :=
  let key (d : Diagnostic) : Nat × Nat :=
    (d.span.map fun s => (s.file.toNat, s.start.toNat)).getD (maxOffset, maxOffset)
  let (f, i) := key a
  let (g, j) := key b
  decide (f < g ∨ (f = g ∧ i ≤ j))

/-- The written reports in order of their places. -/
def reports (render : Diagnostic → Text) (ds : List Diagnostic) : Text :=
  (ds.mergeSort reportLe).flatMap render

/-- The outcome when there is nothing to look at. -/
def noSources (o : CommandOptions) : Outcome where
  code := 0
  messages := if o.quiet then [] else line ["warning: no VHDL source files found".toList]

/-- Carries out a command on the sources that paths or settings name. -/
def onSources (w : World) (o : CommandOptions) (paths : List Text)
    (act : Settings → FileTable → Outcome) : Outcome :=
  let result : Except Text Outcome := do
    let (settings, root) ← Discover.settings w.find w.home o.config
    let sources ← Discover.sources w.find settings.sources root paths
    if sources.isEmpty then .ok (noSources o)
    else
      let files ← load w.find sources
      .ok (act settings files)
  match result with
  | .ok outcome => outcome
  | .error message => failed message

/-! ## Checking -/

/-- Reports on every unit that cannot be read. -/
def check (w : World) (o : CommandOptions) (paths : List Text) (form : Option ReportForm) :
    Outcome :=
  onSources w o paths fun settings files =>
    let form := form.getD settings.report
    let reviewed := reviewAll files
    let log := DiagnosticLog.empty.emitAll (complaints reviewed)
    let clean := reviewed.countP fun (_, _, result) => result.isOk
    let summary :=
      if o.quiet || form == .json then []
      else
        line ["    Checked ".toList, ofNat reviewed.length, " file(s), ".toList, ofNat clean,
          " clean: ".toList, ofNat log.errors, " error(s), ".toList, ofNat log.warnings,
          " warning(s)".toList]
    let code := if log.hasErrors then 1 else 0
    match form with
    | .json =>
      { code := code
        output := reports (·.renderJson files) log.entries
        messages := progress o files ++ summary }
    | .text =>
      { code := code
        messages := progress o files
          ++ reports (·.render (isColored w o) files) log.entries ++ summary }

/-! ## Formatting -/

/-- The files whose canonical text differs from their contents, with that text. -/
def changes (results : List (SourceFile × Except Diagnostic Text)) : List (Text × Text) :=
  results.filterMap fun (f, result) =>
    match result with
    | .ok t => if t == f.text then none else some (f.path, t)
    | .error _ => none

/-- The reports about canonical texts that do not read back. -/
def mismatches (results : List (SourceFile × Except Diagnostic Text)) : List Diagnostic :=
  results.filterMap fun (_, result) =>
    match result with
    | .ok _ => none
    | .error d => some d

/-- The canonical texts of the files that could be read. -/
def formatAll (s : FormatSettings) (reviewed : List Reviewed) :
    List (SourceFile × Except Diagnostic Text) :=
  reviewed.filterMap fun (id, f, result) =>
    match result with
    | .ok d => some (f, f.formatted s id d)
    | .error _ => none

/-- Writes files in canonical form, or lists those that are not. -/
def format (w : World) (o : CommandOptions) (paths : List Text) (listOnly : Bool) : Outcome :=
  onSources w o paths fun settings files =>
    let reviewed := reviewAll files
    let results := formatAll settings.format reviewed
    let changed := changes results
    let log := (DiagnosticLog.empty.emitAll (complaints reviewed)).emitAll (mismatches results)
    let reported := progress o files ++ reports (·.render (isColored w o) files) log.entries
    if listOnly then
      { code := if log.hasErrors || !changed.isEmpty then 1 else 0
        output := changed.flatMap fun (p, _) => line [p]
        messages := reported
          ++ if o.quiet then []
            else line ["    ".toList, ofNat changed.length,
              " file(s) would be reformatted".toList] }
    else
      { code := if log.hasErrors then 1 else 0
        writes := changed
        messages := reported
          ++ (if o.verbose then changed.flatMap fun (p, _) => line ["   Formatted ".toList, p]
            else [])
          ++ if o.quiet then []
            else line ["    Formatted ".toList, ofNat changed.length, " of ".toList,
              ofNat reviewed.length, " file(s)".toList] }

/-! ## Printing trees -/

/-- Prints the tree of a file. -/
def dump (w : World) (o : CommandOptions) (path : Text) : Outcome :=
  match load w.find [path] with
  | .error message => failed message
  | .ok files =>
    match reviewAll files with
    | (_, _, .ok d) :: _ => { code := 0, output := d.json.pretty 0 ++ ['\n'] }
    | reviewed =>
      { code := 1
        messages := reports (·.render (isColored w o) files) (complaints reviewed) }

/-! ## Command lines -/

/-- Carries out an action. -/
def perform (w : World) (i : Invocation) : Outcome :=
  match i.action with
  | .check paths form => check w i.options paths form
  | .format paths listOnly => format w i.options paths listOnly
  | .dump path => dump w i.options path

/-- The paths that the sources of an action are found at, given the settings and the
folder that they concern. -/
def searched (i : Invocation) (s : SourceSettings) (root : Text) : List Text :=
  match i.action with
  | .check paths _ | .format paths _ => Discover.searched s root paths
  | .dump path => [path]

/-- How the command line is written. -/
def usage : Text :=
  ("Usage: vesta [-q] [-v] [--color auto|always|never] [--config PATH] COMMAND\n\n"
    ++ "Commands:\n"
    ++ "  check [-f text|json] [PATHS]...  Parse sources and report every unit that fails\n"
    ++ "  fmt [--check] [PATHS]...         Rewrite sources in canonical form\n"
    ++ "  dump FILE                        Print the syntax tree of one file as JSON\n").toList

/-- Carries out a command line, without the name of the program. -/
def run (w : World) (args : List Text) : Outcome :=
  match Invocation.parse args with
  | .ok i => perform w i
  | .error .help => { code := 0, output := usage }
  | .error .version => { code := 0, output := "vesta 0.1.0\n".toList }
  | .error .usage => { code := 2, messages := usage }

end Command
end CanonicalVhdl
