import CanonicalVhdl.Limits
import CanonicalVhdl.Text.Comments

/-!
# Comments kept in trees

## Main definitions

* `Comment` — a line comment, by the text after its two hyphens.
* `Comment.ofText?`, `Comment.read` — the comments that one line can hold.
* `Comment.splitTrailer` — a declaration and the comment on its last line.
* `Comment.append` — a text followed by an optional comment.
-/

namespace CanonicalVhdl

open Text

/-- A line comment. -/
structure Comment where
  /-- The text after the two hyphens. -/
  text : Text
deriving DecidableEq

namespace Comment

/-- The comment with a given text, which must not hold a line end; blanks at its
end are dropped. -/
def ofText? (t : Text) : Option Comment :=
  if t.contains '\n' || t.contains '\r' then none else some ⟨trimEnd t⟩

/-- The comment as written. -/
def line (c : Comment) : Text :=
  '-' :: '-' :: c.text

/-- Reads a comment that takes up the whole text. -/
def read (t : Text) : Option Comment :=
  let t := trim t
  if !fits Limits.statementBytes t then none
  else
    match t with
    | '-' :: '-' :: rest => ofText? rest
    | _ => none

/-- The comment after the first two hyphens of a trimmed text, if it starts with them. -/
def ofLine? (t : Text) : Option Comment :=
  (dropLead? "--".toList (trim t)).bind ofText?

/-- The lines before the last one, if there are any, and the last line. -/
def splitLast (t : Text) : Text × Text :=
  let pieces := splitOn '\n' t
  (join ['\n'] pieces.dropLast, pieces.getLast?.getD [])

/-- Separates a declaration from the comment on its last line.  Comments on
earlier lines are dropped. -/
def splitTrailer (t : Text) : Text × Option Comment :=
  let (head, last) := splitLast (trim t)
  let (code, trailer) := splitTrailing last
  let head := stripComments head
  let code := if head.isEmpty then trim code else head ++ '\n' :: trim code
  (code, trailer.bind ofText?)

/-- A text, and the comment after a blank when there is one. -/
def append (code : Text) : Option Comment → Text
  | none => code
  | some c => code ++ ' ' :: c.line

end Comment
end CanonicalVhdl
