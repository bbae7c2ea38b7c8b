import CanonicalVhdl.Sequential.Basic

/-!
# Reading sequential code

A region is cut into pieces, and each piece is read by the construct that its first
word selects.  A comment on the line of a declaration belongs to the declaration;
on the line of any other statement it becomes a comment line after it.

A region uses up one level of the reader's room, and so does each compound
statement.

## Main definitions

* `Sequential.read` — reads a region.
* `Sequential.readConditional`, `Sequential.readSelection`, `Sequential.readLoop` —
  read the compound statements.
* `Branch.readWith`, `Choice.read` — read the parts of a `case` statement.
-/

namespace CanonicalVhdl

open Text

/-! ## Choices -/

namespace Choice

/-- Reads a choice without alternatives. -/
def readSingle (room : Nat) (t : Text) : Option Choice :=
  let t := trim t
  if sameWord t "others".toList then some others
  else
    match Range.read room t with
    | some r => some (range r)
    | none => (Expr.read room t).map value

/-- Reads one of several alternatives, which must not be `others`. -/
def readAlternative (room : Nat) (t : Text) : Option Choice :=
  match readSingle room t with
  | some others => none
  | choice => choice

/-- Reads a choice. -/
def read (room : Nat) (t : Text) : Option Choice :=
  match splitOuter '|' (trim t) with
  | [single] => readSingle room single
  | several => (several.mapM (readAlternative room)).map alternatives

end Choice

/-! ## Regions -/

namespace Sequential

/-- Reads a piece of a region, given readers for declarations and for other
statements. -/
def readPieceWith (room : Nat) (statement : Text → Option Sequential) :
    Piece → Option (List Sequential)
  | .comment c => (Comment.ofText? c).map fun c => [comment c]
  | .code code trailer =>
    match ObjectDecl.readWithTrailer room code trailer with
    | some d => some [simple (.declaration d)]
    | none => do
      let element ← statement code
      match trailer with
      | none => some [element]
      | some c => (Comment.ofText? c).map fun c => [element, comment c]

/-- Reads a region, given a reader for its statements. -/
def readRegionWith (room : Nat) (statement : Text → Option Sequential) (t : Text) :
    Option Sequential :=
  if !fits Limits.blockBytes t then none
  else do
    let pieces ← pieces? t
    let elements ← pieces.mapM (readPieceWith room statement)
    some (ofElements elements.flatten)

/-! ## Compound statements -/

/-- The interior of a compound statement between its first word and its closing
clause.  The text must be exactly that statement. -/
def interior? (opening closing : Text) (t : Text) : Option Text := do
  let t := trim t
  if !fits Limits.blockBytes t || !isConstruct t then none
  else
    let rest ← afterWord? opening t
    beforeEnd? [closing] true none rest

/-- Reads a conditional statement, given readers for the regions inside and for
the conditional statement that an `elsif` stands for. -/
def readConditionalWith (room : Nat) (region conditional : Text → Option Sequential) (t : Text) :
    Option Sequential := do
  let inner ← interior? "if".toList "if".toList t
  let (condition, branches) ← cutOuter? "then".toList inner
  let condition ← Expr.read room condition
  match clause? ["elsif".toList, "else".toList] branches with
  | none => (region branches).map fun body => .conditional condition body none
  | some (i, 0) => do
    let body ← region (branches.take i)
    let rest ← conditional ("if ".toList ++ dropBytes 5 (branches.drop i) ++ " end if;".toList)
    some (.conditional condition body (some rest))
  | some (i, _) => do
    let body ← region (branches.take i)
    let rest ← region (dropBytes 4 (branches.drop i))
    some (.conditional condition body (some rest))

end Sequential

namespace Branch

/-- Reads a branch, given a reader for its body. -/
def readWith (room : Nat) (region : Text → Option Sequential) (t : Text) : Option Branch := do
  let rest ← afterWord? "when".toList t
  let (choice, body) ← cutOuter? "=>".toList rest
  let choice ← Choice.read room choice
  let body ← region body
  some (.mk choice body)

/-- Cuts the branches of a `case` statement apart; the text starts with the first
`when`.  The first argument bounds the number of branches. -/
def split? : Nat → Text → Option (List Text)
  | 0, _ => none
  | fuel + 1, t => do
    let (_, rest) ← cutOuter? "=>".toList (dropBytes 4 t)
    match clause? ["when".toList] rest with
    | none => some [t]
    | some (i, _) =>
      let n := t.length - rest.length + i
      let branches ← split? fuel (t.drop n)
      some (t.take n :: branches)

end Branch

namespace Sequential

/-- Reads a `case` statement, given a reader for the regions inside. -/
def readSelectionWith (room : Nat) (region : Text → Option Sequential) (t : Text) :
    Option Sequential := do
  let inner ← interior? "case".toList "case".toList t
  let (selector, branches) ← cutOuter? "is".toList inner
  let selector ← Expr.read room selector
  let (i, _) ← clause? ["when".toList] branches
  if !(trim (branches.take i)).isEmpty then none
  else
    let branches ← Branch.split? (branches.length + 1) (branches.drop i)
    let branches ← branches.mapM (Branch.readWith room region)
    some (.selection selector branches)

/-- The name, the range and the body of a header `name in range opening body`. -/
def splitIteration? (opening : Text) (inner : Text) : Option (Text × Text × Text) := do
  let i ← outerMatch? "in".toList inner
  let j ← outerMatch? opening inner
  if j < i then none
  else some (inner.take i, (inner.take j).drop (i + 2), inner.drop (j + opening.length))

/-- Reads a `for` loop, given a reader for its body. -/
def readLoopWith (room : Nat) (region : Text → Option Sequential) (t : Text) :
    Option Sequential := do
  let inner ← interior? "for".toList "loop".toList t
  let (parameter, range, body) ← splitIteration? "loop".toList inner
  let parameter ← Ident.ofText? (trim parameter)
  let range ← Range.read room range
  let body ← region body
  some (.loop parameter range body)

mutual

/-- Reads a region of sequential code. -/
def read : Nat → Text → Option Sequential
  | 0, _ => none
  | room + 1, t =>
    readRegionWith room
      (fun code =>
        if startsWith "if".toList code then readConditional room code
        else if startsWith "case".toList code then readSelection room code
        else if startsWith "for".toList code then readLoop room code
        else (Statement.read room code).map simple)
      t

/-- Reads a conditional statement. -/
def readConditional : Nat → Text → Option Sequential
  | 0, _ => none
  | room + 1, t => readConditionalWith room (read room) (readConditional room) t

/-- Reads a `case` statement. -/
def readSelection : Nat → Text → Option Sequential
  | 0, _ => none
  | room + 1, t => readSelectionWith room (read room) t

/-- Reads a `for` loop. -/
def readLoop : Nat → Text → Option Sequential
  | 0, _ => none
  | room + 1, t => readLoopWith room (read room) t

end

end Sequential

/-- Reads a branch of a `case` statement. -/
def Branch.read (room : Nat) (t : Text) : Option Branch :=
  Branch.readWith room (Sequential.read room) t

end CanonicalVhdl
