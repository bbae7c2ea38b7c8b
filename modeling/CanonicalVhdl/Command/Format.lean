import CanonicalVhdl.Diagnostic.Review
import CanonicalVhdl.Settings.Basic

/-!
# Formatting

## Main definitions

* `SourceFile.formatted` — the canonical text of a file that has been read.
-/

namespace CanonicalVhdl

open Text

namespace SourceFile

/-- The report about a canonical text that does not read back. -/
def mismatch (id : FileId) (t : Text) : Diagnostic where
  severity := .warning
  code := .roundTripMismatch
  message := "formatted output does not parse back to the same tree".toList
  span := some (Span.ofRange id 0 (byteLength t))
  notes := ["the file was left unchanged".toList]

/-- Whether the canonical text of a file reads back to an equal one. -/
def readsBack (d : DesignFile) : Bool :=
  (DesignFile.read Limits.depth d.text).any (·.same d)

/-- The canonical text of a file, or the report that it does not read back.  A text
that is not empty may get a line end. -/
def formatted (s : FormatSettings) (id : FileId) (f : SourceFile) (d : DesignFile) :
    Except Diagnostic Text :=
  if s.verifyRoundTrip && !readsBack d then .error (mismatch id f.text)
  else .ok (if s.finalNewline && !d.text.isEmpty then d.text ++ ['\n'] else d.text)

end SourceFile
end CanonicalVhdl
