import CanonicalVhdl.Text.Blank

/-!
# Lexemes

A text is read as a sequence of three kinds of lexeme: comments, which run from
two hyphens to the end of the line; literals in quotation marks or between two
ticks; and single characters of code.  Searches look at the *code points* of a
text: its code characters and the first characters of its literals, each with
the parenthesis depth it stands at.

## Main definitions

* `Lexeme.at before rest` — the lexeme at the head of `rest`.
* `Text.codePoints t` — the places outside comments and literals' interiors.
* `Place` — a place in a text together with the character before it.
-/

namespace CanonicalVhdl

/-- The characters of identifiers. -/
def isIdentChar (c : Char) : Bool :=
  c.isAlphanum || c == '_'

/-- What stands at the head of a text. -/
inductive Lexeme where
  /-- One character of code. -/
  | code
  /-- A literal of so many characters. -/
  | literal (length : Nat)
  /-- A comment of so many characters, its two hyphens included. -/
  | comment (length : Nat)
deriving DecidableEq, Repr

namespace Lexeme

/-- The length of a quoted literal, `n` characters of which are already read.
A doubled quotation mark belongs to the literal; a line feed ends it unclosed. -/
def quotedLength (n : Nat) : Text → Nat
  | '"' :: '"' :: rest => quotedLength (n + 2) rest
  | '"' :: _ => n + 1
  | '\n' :: _ => n
  | _ :: rest => quotedLength (n + 1) rest
  | [] => n

/-- The number of characters before the next line feed, on top of `n`. -/
def lineLength (n : Nat) : Text → Nat
  | [] => n
  | c :: rest => if c == '\n' then n else lineLength (n + 1) rest

/-- Whether a tick after this character belongs to a name and opens no literal. -/
def bindsTick (before : Option Char) : Bool :=
  before.any fun c => isIdentChar c || c == ')'

/-- The lexeme at the head of a text, given the character before it.  A tick
after a name or a closing parenthesis is an attribute mark and opens no literal. -/
def «at» (before : Option Char) : Text → Lexeme
  | '-' :: '-' :: rest => .comment (lineLength 2 rest)
  | '"' :: rest => .literal (quotedLength 1 rest)
  | '\'' :: c :: '\'' :: _ =>
    if c.toNat < 128 && c != '\n' && !bindsTick before then .literal 3 else .code
  | _ => .code

end Lexeme

/-- A place in a text: how many characters precede it, the last of them, and
what follows. -/
structure Place where
  /-- Number of characters before the place. -/
  passed : Nat
  /-- The character before the place. -/
  before : Option Char
  /-- The text from the place on. -/
  rest : Text

/-- A code character or the first character of a literal. -/
structure CodePoint where
  /-- Number of characters before it. -/
  position : Nat
  /-- The character before it. -/
  before : Option Char
  /-- The character itself. -/
  char : Char
  /-- The text after it. -/
  after : Text
  /-- The parenthesis depth; a pair of parentheses stands at one depth. -/
  depth : Nat

namespace CodePoint

/-- The text from the code point on. -/
def rest (p : CodePoint) : Text := p.char :: p.after

/-- Whether a word starts here. -/
def startsWord (p : CodePoint) : Bool :=
  isIdentChar p.char && !p.before.any isIdentChar

end CodePoint

namespace Text

/-- The code points of a text from some place on.  The first argument holds
those already found, newest first; `skip` characters belong to a literal or a
comment that began earlier. -/
def codePointsFrom (found : List CodePoint) (skip position depth : Nat)
    (before : Option Char) : Text → List CodePoint
  | [] => found.reverse
  | c :: rest =>
    match skip with
    | skip + 1 => codePointsFrom found skip (position + 1) depth (some c) rest
    | 0 =>
      match Lexeme.at before (c :: rest) with
      | .comment n => codePointsFrom found (n - 1) (position + 1) depth (some c) rest
      | .literal n =>
        codePointsFrom (⟨position, before, c, rest, depth⟩ :: found) (n - 1) (position + 1) depth
          (some c) rest
      | .code =>
        let outer := if c == ')' then depth - 1 else depth
        let inner := if c == '(' then depth + 1 else outer
        codePointsFrom (⟨position, before, c, rest, outer⟩ :: found) 0 (position + 1) inner
          (some c) rest

/-- The code points of a text in order. -/
def codePoints (t : Text) : List CodePoint :=
  codePointsFrom [] 0 0 0 none t

/-- The first code point from some place on that satisfies a test; the arguments are
those of `codePointsFrom`. -/
def findPointFrom (test : CodePoint → Bool) (skip position depth : Nat)
    (before : Option Char) : Text → Option CodePoint
  | [] => none
  | c :: rest =>
    match skip with
    | skip + 1 => findPointFrom test skip (position + 1) depth (some c) rest
    | 0 =>
      match Lexeme.at before (c :: rest) with
      | .comment n => findPointFrom test (n - 1) (position + 1) depth (some c) rest
      | .literal n =>
        if test ⟨position, before, c, rest, depth⟩ then some ⟨position, before, c, rest, depth⟩
        else findPointFrom test (n - 1) (position + 1) depth (some c) rest
      | .code =>
        let outer := if c == ')' then depth - 1 else depth
        let inner := if c == '(' then depth + 1 else outer
        if test ⟨position, before, c, rest, outer⟩ then some ⟨position, before, c, rest, outer⟩
        else findPointFrom test 0 (position + 1) inner (some c) rest

/-- The first code point that satisfies a test. -/
def findPoint? (test : CodePoint → Bool) (t : Text) : Option CodePoint :=
  findPointFrom test 0 0 0 none t

/-- What was found earlier comes first. -/
theorem codePointsFrom_append (found : List CodePoint) (skip position depth : Nat)
    (before : Option Char) (t : Text) :
    codePointsFrom found skip position depth before t =
      found.reverse ++ codePointsFrom [] skip position depth before t := by
  induction t generalizing found skip position depth before with
  | nil => simp [codePointsFrom]
  | cons c rest ih =>
    cases skip with
    | succ skip => simp only [codePointsFrom]; exact ih ..
    | zero =>
      simp only [codePointsFrom]
      split
      · exact ih ..
      · rw [ih, ih [_]]; simp
      · rw [ih, ih [_]]; simp

/-- The first member of a list that satisfies a test is its head or in its tail. -/
theorem find?_cons_ite {α : Type} (test : α → Bool) (a : α) (as : List α) :
    (a :: as).find? test = if test a then some a else as.find? test := by
  cases h : test a <;> simp [h]

/-- The search from some place on finds the first of the code points from there on. -/
theorem findPointFrom_eq_find? (test : CodePoint → Bool) (skip position depth : Nat)
    (before : Option Char) (t : Text) :
    findPointFrom test skip position depth before t =
      (codePointsFrom [] skip position depth before t).find? test := by
  induction t generalizing skip position depth before with
  | nil => simp [findPointFrom, codePointsFrom]
  | cons c rest ih =>
    cases skip with
    | succ skip => simp only [findPointFrom, codePointsFrom]; exact ih ..
    | zero =>
      simp only [findPointFrom, codePointsFrom]
      split
      · exact ih ..
      · rw [codePointsFrom_append, ih, List.reverse_singleton, List.singleton_append, find?_cons_ite]
      · rw [codePointsFrom_append, ih, List.reverse_singleton, List.singleton_append, find?_cons_ite]

/-- The search finds the first of the code points that satisfy a test. -/
theorem findPoint?_eq_find? (test : CodePoint → Bool) (t : Text) :
    findPoint? test t = (codePoints t).find? test :=
  findPointFrom_eq_find? ..

/-- The code points outside parentheses. -/
def outerPoints (t : Text) : List CodePoint :=
  (codePoints t).filter (·.depth == 0)

end Text
end CanonicalVhdl
