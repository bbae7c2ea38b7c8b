/-!
# Texts

A text is a list of characters.  Positions inside the library count characters;
what a caller sees as an *offset* counts the bytes of the UTF-8 form, and
`offset` and `position?` are the only places where the two meet.

## Main definitions

* `Text.byteLength t` — the size of the UTF-8 form.
* `Text.offset t i`, `Text.position? n t` — from characters passed to bytes passed, and back.
* `Text.dropBytes n t` — what follows a number of bytes.
* `Text.sameWord a b` — equality that ignores ASCII case.
* `Text.splitOn c t`, `Text.splitOnce c t` — cutting at a character.
-/

namespace CanonicalVhdl

/-- A text, one entry per character. -/
abbrev Text := List Char

namespace Text

/-! ## Bytes -/

/-- The number of bytes of the UTF-8 form. -/
def byteLength (t : Text) : Nat :=
  t.foldl (fun n c => n + c.utf8Size) 0

/-- The byte offset of the place that `i` characters precede. -/
def offset (t : Text) (i : Nat) : Nat :=
  byteLength (t.take i)

/-- Counts the characters that make up exactly `n` bytes, on top of `i`. -/
def positionFrom (i : Nat) : Nat → Text → Option Nat
  | 0, _ => some i
  | _ + 1, [] => none
  | n + 1, c :: rest =>
    if c.utf8Size ≤ n + 1 then positionFrom (i + 1) (n + 1 - c.utf8Size) rest else none

/-- The number of characters that precede byte offset `n`; `none` when the
offset lies beyond the end or inside a character. -/
def position? (n : Nat) (t : Text) : Option Nat :=
  positionFrom 0 n t

/-- The part of `t` between two byte offsets, when both fall on character
boundaries and are in order. -/
def slice? (t : Text) (start stop : Nat) : Option Text := do
  let i ← position? start t
  let j ← position? stop t
  if start ≤ stop then some ((t.take j).drop i) else none

/-- The text after its first `n` bytes.  A character that these bytes cut in two
goes as a whole. -/
def dropBytes : Nat → Text → Text
  | 0, t => t
  | _ + 1, [] => []
  | n + 1, c :: rest => dropBytes (n + 1 - c.utf8Size) rest

/-- Whether `t` takes at most `limit` bytes. -/
def fits (limit : Nat) (t : Text) : Bool :=
  decide (byteLength t ≤ limit)

/-! ## Case -/

/-- The lower-case form, ASCII letters only. -/
def fold (t : Text) : Text :=
  t.map Char.toLower

/-- Equality that ignores the case of ASCII letters. -/
def sameWord (a b : Text) : Bool :=
  fold a == fold b

/-! ## Cutting -/

/-- The text after `lead`, when `t` starts with it. -/
def dropLead? (lead t : Text) : Option Text :=
  if lead.isPrefixOf t then some (t.drop lead.length) else none

/-- The text after a beginning that equals `word` up to ASCII case. -/
def dropWord? : Text → Text → Option Text
  | [], t => some t
  | _ :: _, [] => none
  | w :: word, c :: t => if w.toLower == c.toLower then dropWord? word t else none

/-- The text before a final `c`. -/
def dropFinal? (c : Char) (t : Text) : Option Text :=
  if t.getLast? == some c then some t.dropLast else none

/-- The parts before and after the first `c`. -/
def splitOnce (c : Char) (t : Text) : Option (Text × Text) :=
  match t.dropWhile (· != c) with
  | [] => none
  | _ :: after => some (t.takeWhile (· != c), after)

/-- The pieces between the occurrences of a character, collected from the left:
`piece` holds the current piece and `pieces` the earlier ones, both reversed. -/
def splitOnFrom (c : Char) (piece : Text) (pieces : List Text) : Text → List Text
  | [] => (piece.reverse :: pieces).reverse
  | d :: rest =>
    if d == c then splitOnFrom c [] (piece.reverse :: pieces) rest
    else splitOnFrom c (d :: piece) pieces rest

/-- The pieces between the occurrences of `c`; there is always at least one. -/
def splitOn (c : Char) (t : Text) : List Text :=
  splitOnFrom c [] [] t

/-- The parts one after the other with `separator` between them. -/
def join (separator : Text) (parts : List Text) : Text :=
  separator.intercalate parts

/-- The decimal digits of a natural number. -/
def ofNat (n : Nat) : Text :=
  (Nat.repr n).toList

/-- The decimal form of an integer, with a leading minus sign below zero. -/
def ofInt (n : Int) : Text :=
  if n < 0 then '-' :: ofNat n.natAbs else ofNat n.natAbs

end Text
end CanonicalVhdl
