import CanonicalVhdl.Toml.Basic
import CanonicalVhdl.Toml.Quoted
import CanonicalVhdl.Toml.Scalar

/-!
# Reading TOML

## Main definitions

* `Toml.readKey`, `Toml.readValue` — the parts of an entry.
* `Toml.read` — reads a document.
-/

namespace CanonicalVhdl.Toml

open Text

/-- How deep arrays and inline tables may be nested, and how many parts a key may
have, is below this number. -/
def depthLimit : Nat := 80

/-! ## Blanks and line ends -/

/-- Whether a character is a blank within a line. -/
def isGap (c : Char) : Bool := c == ' ' || c == '\t'

/-- Drops the blanks at the head of a text. -/
def skipGap (t : Text) : Text := t.dropWhile isGap

/-- What follows the end of the line: a line end, or the end of the text. -/
def afterLine? : Text → Option Text
  | [] => some []
  | '\n' :: t => some t
  | '\r' :: '\n' :: t => some t
  | _ => none

/-- What follows the rest of a line that holds nothing but a comment. -/
def finishLine? (t : Text) : Option Text :=
  match skipGap t with
  | '#' :: rest => afterLine? (rest.dropWhile isLineChar)
  | rest => afterLine? rest

/-- Drops blanks, line ends and comments; `inComment` holds inside a comment. -/
def skipLines (inComment : Bool) : Text → Option Text
  | [] => some []
  | c :: rest =>
    if c == '\n' then skipLines false rest
    else if c == '\r' then if rest.head? == some '\n' then skipLines inComment rest else none
    else if inComment then if isLineChar c then skipLines true rest else none
    else if isGap c then skipLines false rest
    else if c == '#' then skipLines true rest
    else some (c :: rest)

/-! ## Keys -/

/-- Whether a character may stand in a key without quotation marks. -/
def isBareChar (c : Char) : Bool := c.isAlphanum || c == '_' || c == '-'

/-- Reads one part of a key. -/
def readKeyPart (t : Text) : Option (Text × Text) :=
  match t with
  | '"' :: rest => readBasic [] 0 rest
  | '\'' :: rest => readLiteral rest
  | _ =>
    let bare := t.takeWhile isBareChar
    if bare.isEmpty then none else some (bare, t.dropWhile isBareChar)

/-- Reads the parts of a key between dots, and the blanks around them.  The first
argument bounds their number. -/
def readKey : Nat → Text → Option (List Text × Text)
  | 0, _ => none
  | n + 1, t => do
    let (part, rest) ← readKeyPart (skipGap t)
    match skipGap rest with
    | '.' :: rest => do
      let (parts, rest) ← readKey n rest
      some (part :: parts, rest)
    | rest => some ([part], rest)

/-- Reads a key and the equals sign after it. -/
def readAssigned (t : Text) : Option (List Text × Text) := do
  let (key, rest) ← readKey (depthLimit - 1) t
  let rest ← dropLead? ['='] rest
  some (key, skipGap rest)

/-! ## Values -/

/-- Reads a truth value, a number or a date at the head of a text. -/
def readPlain (t : Text) : Option (Toml × Text) :=
  let (word, rest) := splitPlain t
  if word == "true".toList then some (boolean true, rest)
  else if word == "false".toList then some (boolean false, rest)
  else if isInteger word || isReal word || isDateTime word then some (plain word, rest)
  else none

/-- An inline table of given entries, the keys of which may be dotted. -/
def inlineTable? (entries : List (List Text × Toml)) : Option Toml := do
  let filled ← entries.foldlM (fun t (key, value) => insert key value t) (emptyTable .header)
  match filled with
  | table _ entries => some (table .inline entries)
  | _ => none

mutual

/-- Reads the value at the head of a text.  The numbers bound the number of steps
and the depth. -/
def readValue : Nat → Nat → Text → Option (Toml × Text)
  | 0, _, _ => none
  | fuel + 1, depth, t =>
    match t with
    | '[' :: rest => if depth ≤ 1 then none else readItems fuel (depth - 1) [] rest
    | '\x7b' :: rest =>
      if depth ≤ 1 then none
      else
        match skipGap rest with
        | '\x7d' :: rest => (inlineTable? []).map fun value => (value, rest)
        | rest => readEntries fuel (depth - 1) [] rest
    | c :: _ =>
      if c == '"' || c == '\'' then (readString? t).map fun (s, rest) => (string s, rest)
      else readPlain t
    | [] => none

/-- Reads the items of an array; those in `found` come before, in reverse. -/
def readItems : Nat → Nat → List Toml → Text → Option (Toml × Text)
  | 0, _, _, _ => none
  | fuel + 1, depth, found, t => do
    match ← skipLines false t with
    | ']' :: rest => some (array found.reverse, rest)
    | t => do
      let (item, rest) ← readValue fuel depth t
      match ← skipLines false rest with
      | ',' :: rest => readItems fuel depth (item :: found) rest
      | ']' :: rest => some (array (item :: found).reverse, rest)
      | _ => none

/-- Reads the entries of an inline table; those in `found` come before, in reverse. -/
def readEntries : Nat → Nat → List (List Text × Toml) → Text → Option (Toml × Text)
  | 0, _, _, _ => none
  | fuel + 1, depth, found, t => do
    let (key, rest) ← readAssigned t
    let (value, rest) ← readValue fuel depth rest
    let found := (key, value) :: found
    match skipGap rest with
    | ',' :: rest => readEntries fuel depth found rest
    | '\x7d' :: rest => (inlineTable? found.reverse).map fun value => (value, rest)
    | _ => none

end

/-! ## Documents -/

/-- Reads a header up to its closing brackets, and the rest of its line. -/
def readHeader (closing : String) (t : Text) : Option (List Text × Text) := do
  let (path, rest) ← readKey (depthLimit - 1) t
  let rest ← dropLead? closing.toList rest
  let rest ← finishLine? rest
  some (path, rest)

/-- Adds an entry to the table that a header opened. -/
def insertUnder (header key : List Text) (value : Toml) (root : Toml) : Option Toml :=
  modifyAt false (insert key value) header root

/-- Reads the lines of a document onto what the earlier lines say.  The number
bounds the number of lines. -/
def readLines (header : List Text) (root : Toml) : Nat → Text → Option Toml
  | 0, _ => none
  | fuel + 1, t =>
    match skipGap t with
    | [] => some root
    | '[' :: '[' :: rest => do
      let (path, rest) ← readHeader "]]" rest
      readLines path (← openItem path root) fuel rest
    | '[' :: rest => do
      let (path, rest) ← readHeader "]" rest
      readLines path (← openTable path root) fuel rest
    | t =>
      match finishLine? t with
      | some rest => readLines header root fuel rest
      | none => do
        let (key, rest) ← readAssigned t
        let (value, rest) ← readValue (t.length + 1) depthLimit rest
        let rest ← finishLine? rest
        readLines header (← insertUnder header key value root) fuel rest

/-- Reads a document, which may start with a byte order mark. -/
def read (t : Text) : Option Toml :=
  let t := (dropLead? ['\ufeff'] t).getD t
  readLines [] (emptyTable .header) (t.length + 2) t

end CanonicalVhdl.Toml
