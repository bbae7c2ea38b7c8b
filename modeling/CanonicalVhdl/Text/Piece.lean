import CanonicalVhdl.Text.Extent

/-!
# The pieces of a statement region

A region is a sequence of statements, constructs and comment lines.  A comment
on the line where a statement ends is the statement's *trailer*.

## Main definitions

* `Piece` — one element of a region, still as text.
* `Text.pieces?` — the pieces of a region.
-/

namespace CanonicalVhdl

/-- One element of a statement region. -/
inductive Piece where
  /-- A statement or construct with its semicolon, and the text of the comment
  that follows it on its last line. -/
  | code (text : Text) (trailer : Option Text)
  /-- The text of a comment that stands on a line of its own. -/
  | comment (text : Text)
deriving DecidableEq, Repr

namespace Text

/-- The comment after a statement's end: its text and what follows its line. -/
def trailer? (t : Text) : Option (Text × Text) :=
  (dropLead? "--".toList (t.dropWhile fun c => c != '\n' && isBlank c)).map fun comment =>
    (trimEnd (comment.takeWhile (· != '\n')), comment.dropWhile (· != '\n'))

/-- Collects the pieces of a region onto `found`, newest first.  The first
argument bounds the number of pieces. -/
def piecesFrom? (found : List Piece) : Nat → Text → Option (List Piece)
  | 0, _ => none
  | fuel + 1, t =>
    match t.dropWhile isAsciiBlank with
    | [] => some found.reverse
    | '-' :: '-' :: rest =>
      piecesFrom? (.comment (trimEnd (rest.takeWhile (· != '\n'))) :: found) fuel
        (rest.dropWhile (· != '\n'))
    | rest =>
      match extent? rest with
      | none => none
      | some n =>
        match trailer? (rest.drop n) with
        | some (comment, after) =>
          piecesFrom? (.code (rest.take n) (some comment) :: found) fuel after
        | none => piecesFrom? (.code (rest.take n) none :: found) fuel (rest.drop n)

/-- The pieces of a statement region; `none` when its last statement does not end. -/
def pieces? (t : Text) : Option (List Piece) :=
  piecesFrom? [] (t.length + 1) t

end Text
end CanonicalVhdl
