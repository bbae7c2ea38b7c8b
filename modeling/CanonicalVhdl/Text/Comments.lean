import CanonicalVhdl.Text.Outer

/-!
# Finding and removing comments

## Main definitions

* `Text.commentStart?` — where the first comment begins.
* `Text.stripComments`, `Text.withoutComments` — a text without its comments.
* `Text.maskComments` — a text with its comments blanked out, offsets unchanged.
* `Text.splitTrailing` — a line and the comment that ends it.
-/

namespace CanonicalVhdl.Text

/-- The position of the first comment from some place on; `skip` characters
belong to a literal that began earlier. -/
def commentFrom? (skip position : Nat) (before : Option Char) : Text → Option Nat
  | [] => none
  | c :: rest =>
    match skip with
    | skip + 1 => commentFrom? skip (position + 1) (some c) rest
    | 0 =>
      match Lexeme.at before (c :: rest) with
      | .comment _ => some position
      | .literal n => commentFrom? (n - 1) (position + 1) (some c) rest
      | .code => commentFrom? 0 (position + 1) (some c) rest

/-- The position of the first comment. -/
def commentStart? (t : Text) : Option Nat :=
  commentFrom? 0 0 none t

/-- The code of a line, without blanks at its end. -/
def lineCode (line : Text) : Text :=
  trimEnd ((commentStart? line).elim line fun i => line.take i)

/-- Removes comments, blanks at the ends of lines, and lines left blank. -/
def stripComments (t : Text) : Text :=
  join ['\n'] (((lines t).map lineCode).filter fun code => !code.isEmpty)

/-- The text without its comments; a text that has none stays as it is. -/
def withoutComments (t : Text) : Text :=
  if (commentStart? t).isSome then stripComments t else t

/-- Blanks out comments from some place on.  `masked` holds the result so far,
reversed; `skip` characters belong to an earlier lexeme, a comment if `hide`. -/
def maskFrom (masked : Text) (hide : Bool) (skip : Nat) (before : Option Char) : Text → Text
  | [] => masked.reverse
  | c :: rest =>
    let shown := c :: masked
    let blanked := List.replicate c.utf8Size ' ' ++ masked
    match skip with
    | skip + 1 => maskFrom (if hide then blanked else shown) hide skip (some c) rest
    | 0 =>
      match Lexeme.at before (c :: rest) with
      | .comment n => maskFrom blanked true (n - 1) (some c) rest
      | .literal n => maskFrom shown false (n - 1) (some c) rest
      | .code => maskFrom shown false 0 (some c) rest

/-- Replaces every byte of a comment with a blank, so that offsets stay put. -/
def maskComments (t : Text) : Text :=
  maskFrom [] false 0 none t

/-- A line without the comment that ends it, and the text of that comment. -/
def splitTrailing (line : Text) : Text × Option Text :=
  match commentStart? line with
  | some i => (trimEnd (line.take i), some (trimEnd (line.drop (i + 2))))
  | none => (trimEnd line, none)

end CanonicalVhdl.Text
