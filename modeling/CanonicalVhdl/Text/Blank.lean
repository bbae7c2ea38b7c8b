import CanonicalVhdl.Text.Basic

/-!
# Blank characters, trimming and lines

Two notions of blank are in use.  Trimming and the gaps between words follow the
Unicode property White_Space; the gaps between statements only the ASCII blanks.

## Main definitions

* `Text.isBlank`, `Text.isAsciiBlank` — the two classes.
* `Text.trim`, `Text.trimStart`, `Text.trimEnd` — removal of blanks at the ends.
* `Text.lines` — the lines of a text without their terminators.
* `Text.indent` — a text moved to the right.
-/

namespace CanonicalVhdl.Text

/-- The characters of the Unicode property White_Space. -/
def isBlank (c : Char) : Bool :=
  let n := c.toNat
  (9 ≤ n && n ≤ 13) || n == 0x20 || n == 0x85 || n == 0xA0 || n == 0x1680
    || (0x2000 ≤ n && n ≤ 0x200A) || n == 0x2028 || n == 0x2029 || n == 0x202F
    || n == 0x205F || n == 0x3000

/-- Blank, tab, line feed, form feed and carriage return. -/
def isAsciiBlank (c : Char) : Bool :=
  c == ' ' || c == '\t' || c == '\n' || c == '\x0c' || c == '\r'

/-- Removes blanks at the start. -/
def trimStart (t : Text) : Text :=
  t.dropWhile isBlank

/-- Removes blanks at the end. -/
def trimEnd (t : Text) : Text :=
  (t.reverse.dropWhile isBlank).reverse

/-- Removes blanks at both ends. -/
def trim (t : Text) : Text :=
  trimEnd (trimStart t)

/-! ## Lines -/

/-- A line without the carriage return that precedes its line feed. -/
def withoutReturn (line : Text) : Text :=
  (dropFinal? '\r' line).getD line

/-- The lines of a text.  A line ends with a line feed or with a carriage return
and a line feed; the last line needs no terminator and is left out when empty. -/
def lines (t : Text) : List Text :=
  let pieces := splitOn '\n' t
  let last := pieces.getLast?.getD []
  pieces.dropLast.map withoutReturn ++ (if last.isEmpty then [] else [last])

/-- One step of indentation. -/
def indentStep : Text := "    ".toList

/-- Moves every line that is not empty `levels` steps to the right. -/
def indent (levels : Nat) (t : Text) : Text :=
  let pad := (List.replicate levels indentStep).flatten
  join ['\n'] ((lines t).map fun line => if line.isEmpty then [] else pad ++ line)

/-- A region on the lines after its header; nothing when the region is empty. -/
def nested (body : Text) : Text :=
  if body.isEmpty then [] else '\n' :: indent 1 body

end CanonicalVhdl.Text
