import CanonicalVhdl.Text.Word

/-!
# Searches outside parentheses, literals and comments

## Main definitions

* `Text.balancedSpan?` — the first group between two delimiters.
* `Text.splitOuter` — the pieces between separators that stand outside.
* `Text.outerMatches`, `Text.outerMatch?` — where a word or a symbol stands outside.
* `Text.cutOuter?` — the parts before and after the first such place.
* `Text.parenthesised?` — the interior of a leading pair of parentheses.
-/

namespace CanonicalVhdl.Text

/-! ## Groups -/

/-- The range of the first group among the given code points.  `state` holds the
position of the first opening delimiter and the number of groups still open. -/
def closeGroup (opening closing : Char) :
    Option (Nat × Nat) → List CodePoint → Option (Option (Nat × Nat))
  | none, [] => some none
  | some _, [] => none
  | state, p :: points =>
    if p.char == opening then
      match state with
      | none => closeGroup opening closing (some (p.position, 1)) points
      | some (start, count) => closeGroup opening closing (some (start, count + 1)) points
    else if p.char == closing then
      match state with
      | none => closeGroup opening closing none points
      | some (start, count) =>
        if count == 1 then some (some (start, p.position + 1))
        else closeGroup opening closing (some (start, count - 1)) points
    else closeGroup opening closing state points

/-- The range from the first opening delimiter through its partner.  Without an
opening delimiter this is the whole text; there is none when the group does not
close.  Both delimiters must be ASCII. -/
def balancedSpan? (opening closing : Char) (t : Text) : Option (Nat × Nat) :=
  if opening.toNat < 128 && closing.toNat < 128 then
    (closeGroup opening closing none (codePoints t)).map fun group => group.getD (0, t.length)
  else none

/-- The interior of the pair of parentheses that a text starts with, and the
text after it. -/
def parenthesised? (t : Text) : Option (Text × Text) :=
  if t.head? == some '(' then
    (balancedSpan? '(' ')' t).map fun (start, stop) =>
      ((t.take (stop - 1)).drop (start + 1), t.drop stop)
  else none

/-! ## Separators -/

/-- The pieces of `t` between the given positions; `start` characters of the
whole text precede `t`. -/
def piecesBetween (start : Nat) (t : Text) : List Nat → List Text
  | [] => [t]
  | i :: cuts => t.take (i - start) :: piecesBetween (i + 1) (t.drop (i + 1 - start)) cuts

/-- The pieces between the separators that stand outside parentheses, literals
and comments.  There is always at least one piece; pieces keep their blanks. -/
def splitOuter (separator : Char) (t : Text) : List Text :=
  piecesBetween 0 t (((outerPoints t).filter (·.char == separator)).map (·.position))

/-! ## Words and symbols -/

/-- Whether `pattern` stands at a code point.  A pattern that starts with a
letter is a whole word in either case; any other is matched exactly. -/
def matchesAt (pattern : Text) (p : CodePoint) : Bool :=
  match pattern with
  | [] => false
  | first :: _ =>
    if first.isAlpha then (wholeWord? true pattern p.before p.rest).isSome
    else pattern.isPrefixOf p.rest

/-- The positions of `pattern` outside parentheses, literals and comments. -/
def outerMatches (pattern t : Text) : List Nat :=
  ((outerPoints t).filter (matchesAt pattern)).map (·.position)

/-- The first position of `pattern` outside parentheses, literals and comments. -/
def outerMatch? (pattern t : Text) : Option Nat :=
  (findPoint? (fun p => p.depth == 0 && matchesAt pattern p) t).map (·.position)

/-- The first position is the head of all positions. -/
theorem outerMatch?_eq_head? (pattern t : Text) :
    outerMatch? pattern t = (outerMatches pattern t).head? := by
  simp [outerMatch?, outerMatches, outerPoints, findPoint?_eq_find?, List.filter_filter,
    Bool.and_comm]

/-- The parts before and after the first place where `pattern` stands outside. -/
def cutOuter? (pattern t : Text) : Option (Text × Text) :=
  (outerMatch? pattern t).map fun i => (t.take i, t.drop (i + pattern.length))

end CanonicalVhdl.Text
