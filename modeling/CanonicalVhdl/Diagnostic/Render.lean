import CanonicalVhdl.Diagnostic.Basic
import CanonicalVhdl.Json.Basic
import CanonicalVhdl.Source.File

/-!
# Written diagnostics

A diagnostic is written for people as

```text
error[E002]: malformed entity
 --> top.vhd:3:1
  |
3 | entity counter is
  | ^^^^^^^^^^^^^^^^^ this entity could not be parsed
  = note: a remark
```

and for tools as one line of JSON.  Only the first line of a span is quoted.

## Main definitions

* `Diagnostic.render` — the form for people, with or without colors.
* `Diagnostic.renderJson` — the form for tools.
-/

namespace CanonicalVhdl

open Text

namespace Diagnostic

/-- Puts a text between the control sequence of a color and that of no color. -/
def paint (color : Bool) (sequence : String) (t : Text) : Text :=
  if color then sequence.toList ++ t ++ "\x1b[0m".toList else t

/-- The control sequence for the marks beside a quoted line. -/
def gutterColor : String := "\x1b[1;34m"

/-- The number of carets under a quoted line: one per byte of the span, at most as
many as there are bytes from its column on, and at least one. -/
def caretCount (span column line : Nat) : Nat :=
  max 1 (min span (max (line - (column - 1)) 1))

/-- The carets under a quoted line. -/
def underline (span : Span) (location : Location) (line : Text) : Text :=
  let column := location.column.toNat
  List.replicate (column - 1) ' '
    ++ List.replicate (caretCount span.length.toNat column (byteLength line)) '^'

/-- What a diagnostic quotes: its span, where that is, and the first line of it. -/
def quoted? (files : FileTable) (d : Diagnostic) : Option (Span × Location × Text) := do
  let span ← d.span
  let file ← files.file? span.file
  let location ← files.locate? span
  let line ← file.line? location.line.toNat
  some (span, location, line)

/-- The quotation: the place, the line with its number, and the underline. -/
def quotation (color : Bool) (d : Diagnostic) (span : Span) (location : Location)
    (line : Text) : Text :=
  let number := ofNat location.line.toNat
  let pad := List.replicate number.length ' '
  let bar := paint color gutterColor ['|']
  let label := d.label.elim [] fun l => ' ' :: l
  pad ++ paint color gutterColor "-->".toList ++ ' ' :: location.text ++ '\n'
    :: pad ++ ' ' :: bar ++ '\n'
    :: paint color gutterColor number ++ ' ' :: bar ++ ' ' :: line ++ '\n'
    :: pad ++ ' ' :: bar ++ ' '
    :: paint color d.severity.color (underline span location line ++ label) ++ ['\n']

/-- The first line: severity, code and message. -/
def headline (color : Bool) (d : Diagnostic) : Text :=
  paint color d.severity.color (d.severity.label.toList ++ '[' :: d.code.text.toList ++ [']'])
    ++ ": ".toList ++ d.message ++ ['\n']

/-- A remark below a quotation whose line numbers have the given width. -/
def noteLine (width : Nat) (note : Text) : Text :=
  List.replicate width ' ' ++ " = note: ".toList ++ note ++ ['\n']

/-- The form for people. -/
def render (color : Bool) (files : FileTable) (d : Diagnostic) : Text :=
  match d.quoted? files with
  | none => d.headline color ++ d.notes.flatMap (noteLine 1)
  | some (span, location, line) =>
    d.headline color ++ d.quotation color span location line
      ++ d.notes.flatMap (noteLine (ofNat location.line.toNat).length)

/-! ## JSON -/

/-- Encodes a number. -/
def numberJson (n : UInt32) : Json := .integer n.toNat

/-- Encodes a span. -/
def spanJson (s : Span) : Json :=
  .record [("file", numberJson s.file), ("start", numberJson s.start), ("end", numberJson s.stop)]

/-- Encodes a diagnostic with the place where it is. -/
def json (files : FileTable) (d : Diagnostic) : Json :=
  let location := d.span.bind files.locate?
  .record [("severity", .name d.severity.label), ("code", .name d.code.label),
    ("message", .string d.message), ("span", .ofOption (d.span.map spanJson)),
    ("label", .ofOption (d.label.map .string)), ("notes", .array (d.notes.map .string)),
    ("path", .ofOption (location.map fun l => .string l.path)),
    ("line", .ofOption (location.map fun l => numberJson l.line)),
    ("column", .ofOption (location.map fun l => numberJson l.column))]

/-- The form for tools. -/
def renderJson (files : FileTable) (d : Diagnostic) : Text :=
  (d.json files).compact ++ ['\n']

end Diagnostic
end CanonicalVhdl
