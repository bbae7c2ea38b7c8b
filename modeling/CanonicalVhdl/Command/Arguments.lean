import CanonicalVhdl.Settings.Basic

/-!
# The command line

Options that concern every command may stand before or after its name; after it
they win.  No option may be given twice at one of these places.

## Main definitions

* `Invocation` — what the command line asks for.
* `Invocation.parse` — reads the command line.
-/

namespace CanonicalVhdl

open Text

/-- When reports are colored. -/
inductive ColorChoice where
  | auto | always | never
deriving DecidableEq, Repr

namespace ColorChoice

/-- Every choice. -/
def all : List ColorChoice := [auto, always, never]

/-- The name in options. -/
def label : ColorChoice → String
  | auto => "auto"
  | always => "always"
  | never => "never"

end ColorChoice

/-- The options of every command. -/
structure CommandOptions where
  /-- Whether summaries are left out. -/
  quiet : Bool
  /-- Whether each file is mentioned as it is read or written. -/
  verbose : Bool
  /-- When reports are colored. -/
  color : ColorChoice
  /-- The path of the settings, or of the folder that holds them. -/
  config : Option Text
deriving DecidableEq

/-- What is to be done. -/
inductive Action where
  /-- Report on files. -/
  | check (paths : List Text) (form : Option ReportForm)
  /-- Write files in canonical form, or only list those not in that form. -/
  | format (paths : List Text) (listOnly : Bool)
  /-- Print the tree of a file. -/
  | dump (path : Text)
deriving DecidableEq

/-- A command with its options. -/
structure Invocation where
  /-- The options. -/
  options : CommandOptions
  /-- What is to be done. -/
  action : Action
deriving DecidableEq

/-- Why a command line asks for no action. -/
inductive ArgumentStop where
  /-- The command line is malformed. -/
  | usage
  /-- It asks for help. -/
  | help
  /-- It asks for the version. -/
  | version
deriving DecidableEq, Repr

/-! ## Switches -/

/-- What can be given with hyphens. -/
inductive Switch where
  | quiet | verbose | color | config | form | check | help | version
deriving DecidableEq, Repr

namespace Switch

/-- The long name. -/
def long : Switch → String
  | quiet => "quiet"
  | verbose => "verbose"
  | color => "color"
  | config => "config"
  | form => "format"
  | check => "check"
  | help => "help"
  | version => "version"

/-- The short name, if there is one. -/
def short? : Switch → Option Char
  | quiet => some 'q'
  | verbose => some 'v'
  | form => some 'f'
  | help => some 'h'
  | version => some 'V'
  | color | config | check => none

/-- Whether a value follows. -/
def takesValue : Switch → Bool
  | color | config | form => true
  | _ => false

/-- Whether a value can be given. -/
def admits : Switch → Text → Bool
  | color, value => ColorChoice.all.any fun c => c.label.toList == value
  | form, value => (ReportForm.ofLabel? value).isSome
  | _, _ => true

end Switch

/-- Where a command line is being read. -/
inductive ArgumentScope where
  /-- Before the name of the command. -/
  | top
  /-- After `check`. -/
  | check
  /-- After `fmt`. -/
  | format
  /-- After `dump`. -/
  | dump
deriving DecidableEq, Repr

namespace ArgumentScope

/-- The scope after the name of a command. -/
def ofCommand? (t : Text) : Option ArgumentScope :=
  if t == "check".toList then some check
  else if t == "fmt".toList then some format
  else if t == "dump".toList then some dump
  else none

/-- The switches of a scope. -/
def switches : ArgumentScope → List Switch
  | top => [.quiet, .verbose, .color, .config, .help, .version]
  | check => [.quiet, .verbose, .color, .config, .form, .help]
  | format => [.quiet, .verbose, .color, .config, .check, .help]
  | dump => [.quiet, .verbose, .color, .config, .help]

end ArgumentScope

/-- What has been read in one scope. -/
structure ArgumentPart where
  /-- The switches with their values. -/
  given : List (Switch × Text)
  /-- The paths. -/
  paths : List Text
deriving DecidableEq

namespace ArgumentPart

/-- Nothing read. -/
def empty : ArgumentPart := ⟨[], []⟩

/-- Whether a switch was given. -/
def has (p : ArgumentPart) (s : Switch) : Bool := p.given.any (·.1 == s)

/-- The value of a switch. -/
def value? (p : ArgumentPart) (s : Switch) : Option Text :=
  (p.given.find? (·.1 == s)).map (·.2)

/-- One more switch, which must be new and admit its value. -/
def withSwitch (p : ArgumentPart) (s : Switch) (value : Text) :
    Except ArgumentStop ArgumentPart :=
  if s == .help then .error .help
  else if s == .version then .error .version
  else if p.has s || !s.admits value then .error .usage
  else .ok ⟨p.given ++ [(s, value)], p.paths⟩

/-- One more path; a command that takes one file takes only one, and no path is
empty. -/
def withPath (p : ArgumentPart) (scope : ArgumentScope) (path : Text) :
    Except ArgumentStop ArgumentPart :=
  if path.isEmpty || (scope == .dump && !p.paths.isEmpty) then .error .usage
  else .ok ⟨p.given, p.paths ++ [path]⟩

end ArgumentPart

/-! ## Reading -/

/-- Whether an argument starts with a hyphen, a hyphen alone aside. -/
def isHyphenated (t : Text) : Bool := t.head? == some '-' && t.length != 1

/-- The value that the next argument gives to a switch. -/
def nextValue? : List Text → Option (Text × List Text)
  | value :: args => if isHyphenated value then none else some (value, args)
  | [] => none

/-- The first equals sign of a text separates a name from its value. -/
def splitEquals (t : Text) : Text × Option Text :=
  match splitOnce '=' t with
  | some (name, value) => (name, some value)
  | none => (t, none)

/-- Reads a switch with a long name, and takes its value from `args` if need be. -/
def readLong (scope : ArgumentScope) (p : ArgumentPart) (t : Text) (args : List Text) :
    Except ArgumentStop (ArgumentPart × List Text) :=
  let (name, value?) := splitEquals t
  match scope.switches.find? fun s => s.long.toList == name with
  | none => .error .usage
  | some s =>
    if s.takesValue then
      match value?.map (·, args) |>.or (nextValue? args) with
      | none => .error .usage
      | some (value, args) => (p.withSwitch s value).map fun p => (p, args)
    else if value?.isSome then .error .usage
    else (p.withSwitch s []).map fun p => (p, args)

/-- Reads switches with short names; the first that takes a value takes the rest of
the argument as its value, or else the next argument. -/
def readShort (scope : ArgumentScope) (p : ArgumentPart) (args : List Text) :
    Text → Except ArgumentStop (ArgumentPart × List Text)
  | [] => .ok (p, args)
  | c :: rest =>
    match scope.switches.find? fun s => s.short? == some c with
    | none => .error .usage
    | some s =>
      if s.takesValue then
        let given := if rest.isEmpty then nextValue? args
          else some ((dropLead? ['='] rest).getD rest, args)
        match given with
        | none => .error .usage
        | some (value, args) => (p.withSwitch s value).map fun p => (p, args)
      else
        match p.withSwitch s [] with
        | .error e => .error e
        | .ok p => readShort scope p args rest

/-- Reads the arguments after the name of a command.  After two hyphens all are
paths.  The number bounds the number of arguments. -/
def readPart (scope : ArgumentScope) (onlyPaths : Bool) (p : ArgumentPart) :
    Nat → List Text → Except ArgumentStop ArgumentPart
  | 0, _ => .error .usage
  | _ + 1, [] => .ok p
  | fuel + 1, arg :: args =>
    if onlyPaths || !isHyphenated arg then do
      let p ← p.withPath scope arg
      readPart scope onlyPaths p fuel args
    else if arg == "--".toList then readPart scope true p fuel args
    else
      match dropLead? "--".toList arg with
      | some name => do
        let (p, args) ← readLong scope p name args
        readPart scope false p fuel args
      | none => do
        let (p, args) ← readShort scope p args (arg.drop 1)
        readPart scope false p fuel args

/-- What `help` asks for with the arguments after it: there is help on every command
and on itself. -/
def helpOn : List Text → ArgumentStop
  | [] => .help
  | name :: _ =>
    if (ArgumentScope.ofCommand? name).isSome || name == "help".toList then .help else .usage

/-- Reads the arguments up to the name of a command: what was read, the scope of the
command, and the arguments after its name. -/
def readTop (p : ArgumentPart) :
    Nat → List Text → Except ArgumentStop (ArgumentPart × ArgumentScope × List Text)
  | 0, _ => .error .usage
  | _ + 1, [] => .error .usage
  | fuel + 1, arg :: args =>
    if isHyphenated arg then
      match dropLead? "--".toList arg with
      | some name => do
        let (p, args) ← readLong .top p name args
        readTop p fuel args
      | none => do
        let (p, args) ← readShort .top p args (arg.drop 1)
        readTop p fuel args
    else if arg == "help".toList then .error (helpOn args)
    else
      match ArgumentScope.ofCommand? arg with
      | some scope => .ok (p, scope, args)
      | none => .error .usage

/-- The options of two scopes, of which the inner one wins. -/
def CommandOptions.ofParts (outer inner : ArgumentPart) : CommandOptions where
  quiet := outer.has .quiet || inner.has .quiet
  verbose := outer.has .verbose || inner.has .verbose
  color :=
    (((inner.value? .color).or (outer.value? .color)).bind fun value =>
      ColorChoice.all.find? fun c => c.label.toList == value).getD .auto
  config := (inner.value? .config).or (outer.value? .config)

namespace Invocation

/-- The action of a scope. -/
def actionOf? (scope : ArgumentScope) (p : ArgumentPart) : Option Action :=
  match scope with
  | .top => none
  | .check => some (.check p.paths ((p.value? .form).bind ReportForm.ofLabel?))
  | .format => some (.format p.paths (p.has .check))
  | .dump => p.paths.head?.map .dump

/-- Reads the command line, without the name of the program. -/
def parse (args : List Text) : Except ArgumentStop Invocation := do
  let (outer, scope, args) ← readTop .empty (args.length + 1) args
  let inner ← readPart scope false .empty (args.length + 1) args
  match actionOf? scope inner with
  | some action => .ok ⟨CommandOptions.ofParts outer inner, action⟩
  | none => .error .usage

end Invocation
end CanonicalVhdl
