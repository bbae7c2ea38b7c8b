import CanonicalVhdl.Text.Comments

/-!
# The extent of statements and constructs

A statement ends at the next semicolon outside parentheses; a construct such as
`if … end if;` ends at the semicolon of its own closing clause.  Extents are found
by counting the words that open and close constructs.

## Main definitions

* `Text.skipTrivia` — past blanks and comments.
* `Nesting` — what has been opened and not yet closed.
* `Text.extent?` — the length of the statement or construct at the head of a text.
* `Text.clause?` — the first statement that begins with one of some keywords.
-/

namespace CanonicalVhdl

namespace Text

/-! ## Tokens -/

/-- The place after blanks and comments; `inComment` holds inside a comment. -/
def triviaEnd (inComment : Bool) (passed : Nat) (before : Option Char) : Text → Place
  | [] => ⟨passed, before, []⟩
  | c :: rest =>
    if inComment then triviaEnd (c != '\n') (passed + 1) (some c) rest
    else if isAsciiBlank c then triviaEnd false (passed + 1) (some c) rest
    else if c == '-' && rest.head? == some '-' then triviaEnd true (passed + 1) (some c) rest
    else ⟨passed, before, c :: rest⟩

/-- The place after the blanks and comments that follow a place. -/
def skipTrivia (p : Place) : Place :=
  triviaEnd false p.passed p.before p.rest

/-- The byte offset after the blanks and comments that follow byte offset `n`.  An
offset that is no character boundary of the text stays as it is. -/
def triviaOffset (n : Nat) (t : Text) : Nat :=
  match position? n t with
  | none => n
  | some i => offset t (skipTrivia ⟨i, (t.take i).getLast?, t.drop i⟩).passed

/-- The place `n` characters further on. -/
def advance (n : Nat) (p : Place) : Place :=
  ⟨p.passed + n, ((p.rest.take n).getLast?).or p.before, p.rest.drop n⟩

/-- The next word, literal or single character after blanks and comments, and
the place after it. -/
def nextToken? (p : Place) : Option (Text × Place) :=
  let q := skipTrivia p
  match q.rest with
  | [] => none
  | c :: _ =>
    let n :=
      match Lexeme.at q.before q.rest with
      | .literal n => n
      | _ => if isIdentChar c then (q.rest.takeWhile isIdentChar).length else 1
    some (q.rest.take n, advance n q)

/-- The next `n` tokens, fewer at the end of the text. -/
def nextTokens : Nat → Place → List Text
  | 0, _ => []
  | n + 1, p =>
    match nextToken? p with
    | none => []
    | some (token, q) => token :: nextTokens n q

/-! ## Words that open a construct -/

/-- Whether the word `is` stands outside parentheses before the next semicolon. -/
def isBeforeSemicolon (t : Text) : Bool :=
  (findPoint? (fun p => p.depth == 0 && (p.char == ';' || matchesAt "is".toList p)) t).any
    fun p => p.char != ';'

/-- The words that always open a construct. -/
def constructWords : List Text :=
  ["if", "case", "loop", "process", "generate", "record", "architecture", "block", "protected",
    "units"].map String.toList

/-- Whether the given words, in either case, are the head of a list of tokens. -/
def headed (words : List String) (tokens : List Text) : Bool :=
  words.length ≤ tokens.length &&
    (words.zip tokens).all fun (w, token) => sameWord w.toList token

/-- Whether a component's tokens after its name and an optional `is` open its
declaration: a generic or port clause that is no map, or the end. -/
def opensComponent (tokens : List Text) : Bool :=
  headed ["end"] tokens
    || (headed ["port"] tokens || headed ["generic"] tokens) && !headed ["map"] (tokens.drop 1)

/-- Whether `word` opens a construct that a clause with `end` closes, given the
place after the word. -/
def opensConstruct (word : Text) (after : Place) : Bool :=
  if constructWords.any (sameWord word) then true
  else if sameWord word "component".toList then
    match nextTokens 4 after with
    | [] => false
    | _ :: body => opensComponent (if headed ["is"] body then body.drop 1 else body)
  else if sameWord word "function".toList || sameWord word "procedure".toList then
    isBeforeSemicolon after.rest
  else if sameWord word "entity".toList then headed ["is"] ((nextTokens 2 after).drop 1)
  else if sameWord word "package".toList then
    let tokens := nextTokens 3 after
    if headed ["body"] tokens then headed ["is"] (tokens.drop 2)
    else headed ["is"] (tokens.drop 1)
  else false

end Text

/-! ## Nesting -/

/-- What a reader of statements has seen opened and not yet closed. -/
structure Nesting where
  /-- Number of constructs that still need their `end`. -/
  depth : Nat
  /-- The last word was `end`, so the next one names what ends. -/
  afterEnd : Bool
  /-- The words `then`, `is` or `generate` that belong to an opened construct are
  still to come, so that `if … generate` counts once. -/
  inHeader : Bool
deriving DecidableEq, Repr

namespace Nesting

/-- Nothing opened. -/
def start : Nesting := ⟨0, false, false⟩

/-- The state after a word outside parentheses; `none` for an `end` too many. -/
def word (s : Nesting) (w : Text) (after : Place) : Option Nesting :=
  let eq (k : String) := Text.sameWord w k.toList
  if s.afterEnd then some { s with afterEnd := false }
  else if eq "end" then
    if s.depth == 0 then none else some { s with depth := s.depth - 1, afterEnd := true }
  else if eq "then" || eq "is" then some { s with inHeader := false }
  else if eq "elsif" || eq "else" then some { s with inHeader := true }
  else if eq "generate" && s.inHeader then some { s with inHeader := false }
  else if Text.opensConstruct w after then
    some { s with depth := s.depth + 1, inHeader := eq "if" || eq "case" }
  else some s

/-- The state after a semicolon outside parentheses. -/
def semicolon (s : Nesting) : Nesting :=
  { s with afterEnd := false, inHeader := false }

end Nesting

namespace Text

/-! ## Extents -/

/-- The length of the statement at the head of a text.  `parens` counts open
parentheses and `state` open constructs; `skip` characters belong to a lexeme or
a word that began earlier. -/
def extentFrom (parens : Nat) (state : Nesting) (skip position : Nat) (before : Option Char) :
    Text → Option Nat
  | [] => none
  | c :: rest =>
    match skip with
    | skip + 1 => extentFrom parens state skip (position + 1) (some c) rest
    | 0 =>
      match Lexeme.at before (c :: rest) with
      | .comment n => extentFrom parens state (n - 1) (position + 1) (some c) rest
      | .literal n => extentFrom parens state (n - 1) (position + 1) (some c) rest
      | .code =>
        if isIdentChar c && !before.any isIdentChar then
          let w := c :: rest.takeWhile isIdentChar
          if parens == 0 then
            match state.word w (advance w.length ⟨position, before, c :: rest⟩) with
            | none => none
            | some next =>
              extentFrom parens next (w.length - 1) (position + 1) (some c) rest
          else extentFrom parens state (w.length - 1) (position + 1) (some c) rest
        else if c == '(' then extentFrom (parens + 1) state 0 (position + 1) (some c) rest
        else if c == ')' then
          if parens == 0 then none
          else extentFrom (parens - 1) state 0 (position + 1) (some c) rest
        else if c == ';' && parens == 0 then
          if state.depth == 0 then some (position + 1)
          else extentFrom parens state.semicolon 0 (position + 1) (some c) rest
        else extentFrom parens state 0 (position + 1) (some c) rest

/-- A character inside a lexeme or a word is passed over. -/
theorem extentFrom_inside (parens : Nat) (state : Nesting) (skip position : Nat)
    (before : Option Char) (c : Char) (rest : Text) :
    extentFrom parens state (skip + 1) position before (c :: rest)
      = extentFrom parens state skip (position + 1) (some c) rest := by
  rw [extentFrom]

/-- The number of characters of the statement or construct at the head of a
text, its semicolon included.  There is none when the text ends first, when
parentheses do not match, or when an `end` closes nothing. -/
def extent? (t : Text) : Option Nat :=
  extentFrom 0 .start 0 0 none t

/-- Whether a text is exactly one statement or construct. -/
def isConstruct (t : Text) : Bool :=
  extent? t == some t.length

/-! ## Clauses -/

/-- The first statement from a place on that begins with one of `words`, and the
index of the word.  The first argument bounds the number of statements. -/
def clauseFrom? (words : List Text) : Nat → Place → Option (Nat × Nat)
  | 0, _ => none
  | fuel + 1, p =>
    let q := skipTrivia p
    if q.rest.isEmpty then none
    else
      match words.findIdx? fun w => startsWith w q.rest with
      | some k => some (q.passed, k)
      | none => (extent? q.rest).bind fun n => clauseFrom? words fuel (advance n q)

/-- The position of the first statement that begins with one of `words`, and the
index of the word.  Statements before it are stepped over as a whole, so a
keyword inside a construct does not count. -/
def clause? (words : List Text) (t : Text) : Option (Nat × Nat) :=
  clauseFrom? words (t.length + 1) ⟨0, none, t⟩

/-- The parts before and after the first statement that begins with `word`.  As
many bytes as the word has are left out after the position of the statement, which
is the word itself unless blanks that are not ASCII precede it. -/
def cutClause? (word t : Text) : Option (Text × Text) :=
  (clause? [word] t).map fun (i, _) => (t.take i, dropBytes (byteLength word) (t.drop i))

end Text
end CanonicalVhdl
