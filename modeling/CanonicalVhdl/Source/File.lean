import CanonicalVhdl.Source.Span
import CanonicalVhdl.Text.Blank

/-!
# Source files

Files held in memory, and the lines and columns of their bytes.  Lines and columns
count from one; a column counts bytes.

## Main definitions

* `SourceFile.lineStarts` — the byte offsets at which lines start.
* `SourceFile.lineColumn`, `SourceFile.line?` — positions and lines.
* `FileTable` — numbered files; `FileTable.locate?` resolves a span.
-/

namespace CanonicalVhdl

open Text

/-- A file. -/
structure SourceFile where
  /-- The path under which the file is known. -/
  path : Text
  /-- The contents. -/
  text : Text
deriving DecidableEq

namespace SourceFile

/-- Collects the starts of the lines of a text that `n` bytes precede; those in
`found` come before them, in reverse. -/
def lineStartsFrom (found : List UInt32) (n : Nat) : Text → List UInt32
  | [] => found.reverse
  | c :: rest =>
    let next := n + c.utf8Size
    lineStartsFrom (if c == '\n' then clampOffset next :: found else found) next rest

/-- The offset of the start of each line.  The first line starts at zero, the
others after a line feed. -/
def lineStarts (f : SourceFile) : List UInt32 :=
  lineStartsFrom [0] 0 f.text

/-- The number of lines; the last one may be empty. -/
def lineCount (f : SourceFile) : Nat := f.lineStarts.length

/-- The line and the column of an offset: those of the last line that starts at or
before it. -/
def lineColumn (f : SourceFile) (offset : UInt32) : UInt32 × UInt32 :=
  let starts := f.lineStarts
  let index := (starts.takeWhile (· ≤ offset)).length - 1
  (UInt32.ofNat index + 1, clampedSub offset (starts.getD index 0) + 1)

/-- Whether a character ends a line. -/
def isLineEnd (c : Char) : Bool := c == '\n' || c == '\r'

/-- A line without the line feeds and carriage returns at its end. -/
def line? (f : SourceFile) (number : Nat) : Option Text :=
  match number with
  | 0 => none
  | index + 1 => do
    let starts := f.lineStarts
    let start ← starts[index]?
    let stop := (starts[index + 1]?.map (·.toNat)).getD (byteLength f.text)
    let line ← slice? f.text start.toNat stop
    some (line.reverse.dropWhile isLineEnd).reverse

/-- The text of a span; `none` when it leaves the file or cuts a character. -/
def slice? (f : SourceFile) (s : Span) : Option Text :=
  Text.slice? f.text s.start.toNat s.stop.toNat

end SourceFile

/-! ## Numbered files -/

/-- Where a span is. -/
structure Location where
  /-- The path of the file. -/
  path : Text
  /-- The line of the first byte. -/
  line : UInt32
  /-- The column of the first byte. -/
  column : UInt32
  /-- The line of the last byte. -/
  endLine : UInt32
  /-- The column of the last byte. -/
  endColumn : UInt32
deriving DecidableEq

namespace Location

/-- The path, the line and the column, with colons between them. -/
def text (l : Location) : Text :=
  l.path ++ ':' :: (ofNat l.line.toNat ++ ':' :: ofNat l.column.toNat)

end Location

/-- Files numbered from zero in the order in which they were inserted. -/
structure FileTable where
  /-- The files in order. -/
  files : List SourceFile
deriving DecidableEq

namespace FileTable

/-- No files. -/
def empty : FileTable := ⟨[]⟩

/-- The number that the next file gets. -/
def nextId (t : FileTable) : FileId := UInt32.ofNat t.files.length

/-- Adds a file at the end. -/
def insert (t : FileTable) (f : SourceFile) : FileTable := ⟨t.files ++ [f]⟩

/-- The file of a number. -/
def file? (t : FileTable) (id : FileId) : Option SourceFile := t.files[id.toNat]?

/-- Resolves a span.  A span without bytes ends where it starts. -/
def locate? (t : FileTable) (s : Span) : Option Location := do
  let f ← t.file? s.file
  let (line, column) := f.lineColumn s.start
  let (endLine, endColumn) := f.lineColumn (max (clampedSub s.stop 1) s.start)
  some ⟨f.path, line, column, endLine, endColumn⟩

end FileTable
end CanonicalVhdl
