import CanonicalVhdl.Lexical.Digit
import CanonicalVhdl.Text.Basic

/-!
# Strings of TOML

Strings stand between quotation marks, in which a backslash starts an escape, or
between apostrophes, in which nothing does.  Three marks enclose a string over
several lines.

## Main definitions

* `Toml.readBasic`, `Toml.readLiteral` — strings on one line.
* `Toml.readLongBasic`, `Toml.readLongLiteral` — strings over several lines.
* `Toml.readString?` — the string at the head of a text.
-/

namespace CanonicalVhdl.Toml

open Text

/-- Whether a character may stand in a line as it is. -/
def isLineChar (c : Char) : Bool :=
  c == '\t' || (32 ≤ c.toNat && c.toNat != 127)

/-- The character with a given code, unless it is half of a pair. -/
def scalar? (n : Nat) : Option Char :=
  if h : n.isValidChar then some (Char.ofNatAux n h) else none

/-- The character that hexadecimal digits denote. -/
def escaped? (digits : List Char) : Option Char := do
  let values ← digits.mapM HexDigit.ofChar?
  scalar? (values.foldl (fun n d => 16 * n + d.val) 0)

/-- The character of an escape after its backslash, and the number of characters
that it takes. -/
def escape? : Text → Option (Char × Nat)
  | 'b' :: _ => some ('\x08', 1)
  | 't' :: _ => some ('\t', 1)
  | 'n' :: _ => some ('\n', 1)
  | 'f' :: _ => some ('\x0c', 1)
  | 'r' :: _ => some ('\r', 1)
  | '"' :: _ => some ('"', 1)
  | '\\' :: _ => some ('\\', 1)
  | 'u' :: t =>
    if (t.take 4).length == 4 then (escaped? (t.take 4)).map fun c => (c, 5) else none
  | 'U' :: t =>
    if (t.take 8).length == 8 then (escaped? (t.take 8)).map fun c => (c, 9) else none
  | _ => none

/-! ## Strings on one line -/

/-- Reads a string from after its quotation mark.  The characters in `found` come
before, in reverse; `skip` characters belong to an escape. -/
def readBasic (found : Text) (skip : Nat) : Text → Option (Text × Text)
  | [] => none
  | c :: rest =>
    match skip with
    | skip + 1 => readBasic found skip rest
    | 0 =>
      if c == '"' then some (found.reverse, rest)
      else if c == '\\' then
        match escape? rest with
        | some (e, n) => readBasic (e :: found) n rest
        | none => none
      else if isLineChar c then readBasic (c :: found) 0 rest
      else none

/-- Reads a string from after its apostrophe. -/
def readLiteral (t : Text) : Option (Text × Text) :=
  let body := t.takeWhile (· != '\'')
  match t.dropWhile (· != '\'') with
  | _ :: rest => if body.all isLineChar then some (body, rest) else none
  | [] => none

/-! ## Strings over several lines -/

/-- The length of the blanks and line ends at the head of a text. -/
def gapLength (n : Nat) : Text → Nat
  | c :: rest =>
    if c == ' ' || c == '\t' || c == '\n' || (c == '\r' && rest.head? == some '\n') then
      gapLength (n + 1) rest
    else n
  | [] => n

/-- Whether blanks and then a line end stand at the head of a text. -/
def endsLine (t : Text) : Bool :=
  match t.dropWhile fun c => c == ' ' || c == '\t' with
  | '\n' :: _ => true
  | '\r' :: '\n' :: _ => true
  | _ => false

/-- The text without a line end at its head. -/
def dropLineEnd : Text → Text
  | '\n' :: t => t
  | '\r' :: '\n' :: t => t
  | t => t

/-- What a run of marks at the head of a text does: fewer than three belong to the
string, three close it, and up to two more before those belong to it. -/
def closing? (mark : Char) (t : Text) : Option Nat :=
  let n := (t.takeWhile (· == mark)).length
  if n < 3 then none else some (min n 5)

/-- Reads a string from after its three quotation marks.  A backslash before a line
end drops the blanks and line ends up to the next character. -/
def readLongBasic (found : Text) (skip : Nat) : Text → Option (Text × Text)
  | [] => none
  | c :: rest =>
    match skip with
    | skip + 1 => readLongBasic found skip rest
    | 0 =>
      if c == '"' then
        match closing? '"' (c :: rest) with
        | some n => some ((List.replicate (n - 3) '"' ++ found).reverse, rest.drop (n - 1))
        | none => readLongBasic (c :: found) 0 rest
      else if c == '\\' then
        if endsLine rest then readLongBasic found (gapLength 0 rest) rest
        else
          match escape? rest with
          | some (e, n) => readLongBasic (e :: found) n rest
          | none => none
      else if c == '\r' && rest.head? == some '\n' then readLongBasic found 0 rest
      else if c == '\n' || isLineChar c then readLongBasic (c :: found) 0 rest
      else none

/-- Reads a string from after its three apostrophes. -/
def readLongLiteral (found : Text) : Text → Option (Text × Text)
  | [] => none
  | c :: rest =>
    if c == '\'' then
      match closing? '\'' (c :: rest) with
      | some n => some ((List.replicate (n - 3) '\'' ++ found).reverse, rest.drop (n - 1))
      | none => readLongLiteral (c :: found) rest
    else if c == '\r' && rest.head? == some '\n' then readLongLiteral found rest
    else if c == '\n' || isLineChar c then readLongLiteral (c :: found) rest
    else none

/-- Reads the string at the head of a text, when there is one. -/
def readString? : Text → Option (Text × Text)
  | '"' :: '"' :: '"' :: t => readLongBasic [] 0 (dropLineEnd t)
  | '"' :: t => readBasic [] 0 t
  | '\'' :: '\'' :: '\'' :: t => readLongLiteral [] (dropLineEnd t)
  | '\'' :: t => readLiteral t
  | _ => none

end CanonicalVhdl.Toml
