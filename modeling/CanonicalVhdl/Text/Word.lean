import CanonicalVhdl.Text.Lexeme

/-!
# Words

Whole words at the ends of a text and anywhere inside it.  A word is *whole* when
no identifier character touches it.  These searches read plain characters: a word
inside a literal or a comment counts as well.

## Main definitions

* `Text.wordFrom?` — the first whole occurrence of a word from some place on.
* `Text.phrases` — the occurrences of a phrase whose words blanks separate.
* `Text.afterWord?`, `Text.beforeWord?` — a text without its first or last word.
* `Text.beforeEnd?` — a text without its closing clause.
-/

namespace CanonicalVhdl.Text

/-! ## Words anywhere -/

/-- The text after `word`, when the text starts with it. -/
def dropWordWith (ignoreCase : Bool) (word t : Text) : Option Text :=
  if ignoreCase then dropWord? word t else dropLead? word t

/-- The text after a whole occurrence of `word` at the head of `rest`. -/
def wholeWord? (ignoreCase : Bool) (word : Text) (before : Option Char) (rest : Text) :
    Option Text :=
  if word.isEmpty || before.any isIdentChar then none
  else
    (dropWordWith ignoreCase word rest).bind fun after =>
      if after.head?.any isIdentChar then none else some after

/-- The position of the first whole occurrence of `word` in `rest`, before which
`position` characters stand. -/
def wordAfter? (ignoreCase : Bool) (word : Text) (position : Nat) (before : Option Char) :
    Text → Option Nat
  | [] => none
  | c :: rest =>
    if (wholeWord? ignoreCase word before (c :: rest)).isSome then some position
    else wordAfter? ignoreCase word (position + 1) (some c) rest

/-- The position of the first whole occurrence of `word` at or after position `start`. -/
def wordFrom? (ignoreCase : Bool) (word : Text) (start : Nat) (t : Text) : Option Nat :=
  wordAfter? ignoreCase word start (t.take start).getLast? (t.drop start)

/-- The position of the first whole occurrence of `word`. -/
def word? (ignoreCase : Bool) (word t : Text) : Option Nat :=
  wordFrom? ignoreCase word 0 t

/-- The parts before and after the first whole occurrence of `word`. -/
def splitAtWord? (word t : Text) : Option (Text × Text) :=
  (word? true word t).map fun i => (t.take i, t.drop (i + word.length))

/-- How far the words of a phrase extend, each after at least one blank. -/
def phraseLength? (ignoreCase : Bool) (length : Nat) (t : Text) : List Text → Option Nat
  | [] => some length
  | word :: words =>
    let gap := (t.takeWhile isBlank).length
    if gap == 0 then none
    else
      match wholeWord? ignoreCase word (some ' ') (t.drop gap) with
      | none => none
      | some after => phraseLength? ignoreCase (length + gap + word.length) after words

/-- Collects the occurrences of the phrase `first, words` from some place on;
`skip` characters belong to an earlier candidate. -/
def phrasesFrom (ignoreCase : Bool) (first : Text) (words : List Text)
    (found : List (Nat × Nat)) (skip position : Nat) (before : Option Char) :
    Text → List (Nat × Nat)
  | [] => found.reverse
  | c :: rest =>
    match skip with
    | skip + 1 =>
      phrasesFrom ignoreCase first words found skip (position + 1) (some c) rest
    | 0 =>
      match wholeWord? ignoreCase first before (c :: rest) with
      | none => phrasesFrom ignoreCase first words found 0 (position + 1) (some c) rest
      | some after =>
        match phraseLength? ignoreCase first.length after words with
        | none =>
          phrasesFrom ignoreCase first words found (first.length - 1) (position + 1) (some c) rest
        | some n =>
          phrasesFrom ignoreCase first words ((position, position + n) :: found) (n - 1)
            (position + 1) (some c) rest

/-- The disjoint occurrences of a phrase, as ranges of positions. -/
def phrases (ignoreCase : Bool) (words : List Text) (t : Text) : List (Nat × Nat) :=
  match words with
  | [] => []
  | first :: rest => phrasesFrom ignoreCase first rest [] 0 0 none t

/-! ## Words at the ends -/

/-- A text without a leading whole word and the blanks around it. -/
def afterWord? (word t : Text) : Option Text :=
  (wholeWord? true word none (trimStart t)).map trimStart

/-- Whether a text begins with a whole word, leading blanks aside. -/
def startsWith (word t : Text) : Bool :=
  (afterWord? word t).isSome

/-- A text without a trailing whole word and the blanks around it. -/
def beforeWord? (word t : Text) : Option Text :=
  (wholeWord? true word.reverse none (t.reverse.dropWhile isBlank)).map
    fun r => (r.dropWhile isBlank).reverse

/-- A text without a leading sequence of whole words. -/
def afterWords? (words : List Text) (t : Text) : Option Text :=
  words.foldlM (fun rest word => afterWord? word rest) t

/-- A text without a trailing sequence of whole words. -/
def beforeWords? (words : List Text) (t : Text) : Option Text :=
  words.reverse.foldlM (fun rest word => beforeWord? word rest) t

/-- What precedes the closing clause `end keywords name;` of a construct.  The
keywords stand together or, unless `required`, may all be left out; a name may
always be left out. -/
def beforeEnd? (keywords : List Text) (required : Bool) (name : Option Text) (t : Text) :
    Option Text := do
  let closed := trimEnd (← dropFinal? ';' (trimEnd t))
  let unnamed := (name.bind fun n => beforeWord? n closed).getD closed
  match beforeWords? keywords unnamed with
  | some rest => beforeWord? "end".toList rest
  | none => if required then none else beforeWord? "end".toList unnamed

/-! ## Loose words -/

/-- The characters that end a loose word. -/
def isSeparator (c : Char) : Bool :=
  isBlank c || "();,+-*/&<>=:".toList.contains c

/-- The first run of characters that are no separators. -/
def firstWord? (t : Text) : Option Text :=
  match (t.dropWhile isSeparator).takeWhile (!isSeparator ·) with
  | [] => none
  | word => some word

/-- The last run of characters that are no separators. -/
def lastWord? (t : Text) : Option Text :=
  (firstWord? t.reverse).map List.reverse

end CanonicalVhdl.Text
