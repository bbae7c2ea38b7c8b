import CanonicalVhdl.Design.File
import CanonicalVhdl.Diagnostic.Basic
import CanonicalVhdl.Source.File

/-!
# Reading files with reports

A file is read unit by unit, and every unit that cannot be read is reported.

## Main definitions

* `SourceUnit.complaint` — the report about a unit that cannot be read.
* `SourceFile.review` — the file, or the reports about it.
-/

namespace CanonicalVhdl

open Text

namespace SourceUnit

/-- The longest quotation of a unit, in characters. -/
def quotedLength : Nat := 40

/-- The beginning of a unit's first line. -/
def beginning (u : SourceUnit) : Text :=
  (trim ((lines u.text).head?.getD u.text)).take quotedLength

/-- The place of a unit in a file. -/
def span (file : FileId) (u : SourceUnit) : Span :=
  Span.ofRange file u.start u.stop

/-- The report about a unit that cannot be read. -/
def complaint (file : FileId) (u : SourceUnit) : Diagnostic :=
  match u.kind with
  | .unknown =>
    { severity := .error
      code := .unrecognizedUnit
      message := "unexpected `".toList ++ u.beginning ++ "`".toList
      span := some (u.span file)
      label := some "not a design unit".toList
      notes := ["expected `entity`, `architecture`, `package`, `library` or `use`".toList] }
  | kind =>
    { severity := .error
      code := .malformedUnit
      message := "malformed ".toList ++ kind.describe.toList
      span := some (u.span file)
      label := some ("this ".toList ++ kind.describe.toList ++ " could not be parsed".toList) }

end SourceUnit

namespace SourceFile

/-- The report about a file that is too long. -/
def tooLarge (id : FileId) (t : Text) : Diagnostic where
  severity := .error
  code := .malformedUnit
  message := "file is too large to parse".toList
  span := some (Span.ofRange id 0 (byteLength t))
  notes := ["files are limited to ".toList ++ ofNat Limits.blockBytes ++ " bytes".toList]

/-- Reads a file, or reports on every unit that cannot be read. -/
def review (room : Nat) (id : FileId) (f : SourceFile) : Except (List Diagnostic) DesignFile :=
  if !fits Limits.blockBytes f.text then .error [tooLarge id f.text]
  else
    let units := (SourceUnit.kept (SourceUnit.split f.text)).map fun u =>
      (u, DesignUnit.read room u)
    let complaints := units.filterMap fun (u, read) =>
      if read.isNone then some (u.complaint id) else none
    if complaints.isEmpty then .ok (DesignFile.ofUnits (units.filterMap (·.2)))
    else .error complaints

end SourceFile
end CanonicalVhdl
