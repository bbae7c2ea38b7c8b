import CanonicalVhdl.Files.Path

/-!
# Settings

## Main definitions

* `Settings` — where sources are, and how they are formatted and reported on.
* `SourceSettings.accepts`, `SourceSettings.isExcluded` — which paths are sources.
* `Settings.Problem` — what makes settings unusable.
-/

namespace CanonicalVhdl

open Text

/-- Where sources are. -/
structure SourceSettings where
  /-- The files and folders to search. -/
  paths : List Text := [['.']]
  /-- The extensions of source files. -/
  extensions : List Text := ["vhd".toList, "vhdl".toList]
  /-- What is skipped, with everything below it. -/
  exclude : List Text := []
deriving DecidableEq

/-- How files are formatted. -/
structure FormatSettings where
  /-- Whether a canonical text is only written if it reads back. -/
  verifyRoundTrip : Bool := true
  /-- Whether a file ends with a line end. -/
  finalNewline : Bool := true
deriving DecidableEq

/-- The form of reports. -/
inductive ReportForm where
  | text | json
deriving DecidableEq, Repr

namespace ReportForm

/-- Every form. -/
def all : List ReportForm := [text, json]

/-- The name in settings and options. -/
def label : ReportForm → String
  | text => "text"
  | json => "json"

/-- The form of a given name. -/
def ofLabel? (t : Text) : Option ReportForm := all.find? fun f => f.label.toList == t

end ReportForm

/-- All settings. -/
structure Settings where
  /-- Where sources are. -/
  sources : SourceSettings := {}
  /-- How files are formatted. -/
  format : FormatSettings := {}
  /-- The form of reports. -/
  report : ReportForm := .text
deriving DecidableEq

namespace SourceSettings

/-- The components of a path without a leading dot. -/
def plain (cs : List Component) : List Component :=
  if cs.head? == some .current then cs.tail else cs

/-- Whether the components are at or below an excluded path. -/
def isExcluded (s : SourceSettings) (cs : List Component) : Bool :=
  s.exclude.any fun p =>
    let base := plain (Path.components p)
    !base.isEmpty && (Path.dropComponents? base (plain cs)).isSome

/-- Whether the last component has one of the extensions, in either case. -/
def hasExtension (s : SourceSettings) (cs : List Component) : Bool :=
  (Path.extension? cs).any fun e => s.extensions.any (sameWord e)

/-- Whether the components are those of a source: they have one of the extensions
and are not excluded. -/
def accepts (s : SourceSettings) (cs : List Component) : Bool :=
  s.hasExtension cs && !s.isExcluded cs

end SourceSettings

namespace Settings

/-- What makes settings unusable. -/
inductive Problem where
  /-- No extension is listed. -/
  | noExtension
  /-- An extension is empty or starts with a dot. -/
  | badExtension (t : Text)
  /-- A path is empty. -/
  | emptyPath
deriving DecidableEq

/-- Whether an extension is unusable. -/
def isBadExtension (t : Text) : Bool := t.isEmpty || t.head? == some '.'

/-- The first problem of some settings. -/
def problem? (s : Settings) : Option Problem :=
  if s.sources.extensions.isEmpty then some .noExtension
  else
    match s.sources.extensions.find? isBadExtension with
    | some t => some (.badExtension t)
    | none => if s.sources.paths.any List.isEmpty then some .emptyPath else none

/-- The message about a problem. -/
def Problem.message : Problem → Text
  | noExtension => "sources.extensions is empty".toList
  | badExtension t =>
    "sources.extensions entry '".toList ++ t
      ++ "' must be a bare extension such as \"vhd\"".toList
  | emptyPath => "sources.paths contains an empty path".toList

end Settings
end CanonicalVhdl
