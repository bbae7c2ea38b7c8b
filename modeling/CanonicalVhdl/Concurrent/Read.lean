import CanonicalVhdl.Concurrent.Basic
import CanonicalVhdl.Sequential.Read

/-!
# Reading concurrent code

The kind of a concurrent statement shows in its label and the word after it.  A
comment on the line where a statement ends becomes a comment line after it.

A region uses up one level of the reader's room, and so do a process and a
generated region.

## Main definitions

* `Concurrent.read`, `Concurrent.readGenerate` — read regions and generated regions.
* `ProcessStatement.read`, `Instance.read` — read processes and instances.
* `ConditionalWaveform.read`, `Waveform.read`, `ConcurrentStatement.read` — read
  concurrent assignments.
-/

namespace CanonicalVhdl

open Text

/-! ## Assignments -/

namespace ConditionalWaveform

/-- The positions of the words `when` and `else` outside parentheses, and whether
each is a `when`. -/
def keywords (t : Text) : List (Nat × Bool) :=
  (outerPoints t).filterMap fun p =>
    if matchesAt "when".toList p then some (p.position, true)
    else if matchesAt "else".toList p then some (p.position, false)
    else none

/-- Whether the words are `when`, `else`, `when`, `else` and so on, in pairs. -/
def alternates : List (Nat × Bool) → Bool
  | [] => true
  | (_, true) :: (_, false) :: rest => alternates rest
  | _ => false

/-- The parts of a text between words of four letters at the given positions;
`start` characters of the whole text precede `t`. -/
def segments (start : Nat) (t : Text) : List Nat → List Text
  | [] => [t]
  | i :: cuts => t.take (i - start) :: segments (i + 4) (t.drop (i + 4 - start)) cuts

/-- Reads a chain from its parts: values and conditions in turn, and a last value. -/
def readParts (room : Nat) : List Text → Option ConditionalWaveform
  | [] => none
  | [last] => (Expr.read room last).map value
  | v :: c :: rest => do
    let v ← Expr.read room v
    let c ← Expr.read room c
    let rest ← readParts room rest
    some (choose v c rest)

/-- Reads a chain of values with conditions. -/
def read (room : Nat) (t : Text) : Option ConditionalWaveform :=
  let t := trim (withoutComments t)
  let words := keywords t
  if !fits Limits.statementBytes t || !alternates words then none
  else readParts room (segments 0 t (words.map (·.1)))

end ConditionalWaveform

/-- Reads the value of a concurrent assignment. -/
def Waveform.read (room : Nat) (t : Text) : Option Waveform :=
  (ConditionalWaveform.read room t).map fun
    | .value e => .plain e
    | chain => .conditional chain

/-- Reads a simple concurrent statement. -/
def ConcurrentStatement.read (room : Nat) (t : Text) : Option ConcurrentStatement :=
  let t := trim t
  if !fits Limits.statementBytes t then none
  else
    match Comment.read t with
    | some c => some (.comment c)
    | none => do
      let code := withoutComments t
      if !isConstruct code then none
      else
        let body ← dropFinal? ';' code
        let (target, value) ← cutOuter? "<=".toList body
        let target ← Reference.read room target
        let value ← Waveform.read room value
        some (.assignment target value)

/-! ## Processes -/

namespace ProcessStatement

/-- Reads a sensitivity list, whose names must be distinct. -/
def readSensitivity (t : Text) : Option (List Ident) := do
  let names ← (splitOuter ',' t).mapM fun name => Ident.ofText? (trim name)
  if Ident.distinct names then some names else none

/-- The sensitivity list in parentheses that a text may start with, and the rest. -/
def splitSensitivity? (t : Text) : Option (List Ident × Text) :=
  if t.head? == some '(' then do
    let (inner, rest) ← parenthesised? t
    let names ← readSensitivity inner
    some (names, trimStart rest)
  else some ([], t)

/-- Reads a process whose label is already split off. -/
def readLabelled (room : Nat) (label : Option Ident) (t : Text) : Option ProcessStatement := do
  let rest ← afterWord? "process".toList t
  let rest ← beforeEnd? ["process".toList] true (label.map (·.text)) rest
  let (sensitivity, rest) ← splitSensitivity? rest
  let rest := (afterWord? "is".toList rest).getD rest
  let (declarations, body) ← cutClause? "begin".toList rest
  let declarations ← Statement.readDeclarations room declarations
  let body ← Sequential.read room body
  some ⟨label, sensitivity, declarations, body⟩

/-- Reads a process. -/
def read (room : Nat) (t : Text) : Option ProcessStatement :=
  let t := trim t
  if !fits Limits.blockBytes t || !isConstruct t then none
  else
    match room with
    | 0 => none
    | room + 1 =>
      match labelled? t with
      | some (label, rest) => readLabelled room (some label) rest
      | none => readLabelled room none t

end ProcessStatement

/-! ## Instances -/

/-- Reads an association of a generic or port map. -/
def Association.read (room : Nat) (t : Text) : Option Association := do
  let t := trim t
  let (formal, actual) ←
    match cutOuter? "=>".toList t with
    | some (formal, actual) => do
      let formal ← Reference.read room formal
      some (some formal, trim actual)
    | none => some (none, t)
  if sameWord actual "open".toList then some ⟨formal, .unconnected⟩
  else
    let value ← Expr.read room actual
    some ⟨formal, .value value⟩

namespace InstanceSource

/-- The architecture in parentheses after the name of an entity, if there is any,
and what precedes it. -/
def splitArchitecture? (t : Text) : Option (Text × Option Ident) :=
  match splitOnce '(' t with
  | none => some (t, none)
  | some (selected, inner) => do
    let inner ← dropFinal? ')' (trimEnd inner)
    let architecture ← Ident.ofText? (trim inner)
    some (selected, some architecture)

/-- Reads what an instance is made from. -/
def read (t : Text) : Option InstanceSource :=
  let t := trim t
  match afterWord? "entity".toList t with
  | some rest => do
    let (selected, architecture) ← splitArchitecture? rest
    let (lib, name) ← splitOnce '.' selected
    let lib ← Ident.ofText? (trim lib)
    let name ← Ident.ofText? (trim name)
    some (entity lib name architecture)
  | none =>
    (Ident.ofText? ((afterWord? "component".toList t).getD t)).map component

end InstanceSource

namespace Instance

/-- The associations of a map that a text starts with, and the rest. -/
def splitMap? (room : Nat) (keyword : Text) (t : Text) : Option (List Association × Text) := do
  let rest ← afterWords? [keyword, "map".toList] t
  let (inner, after) ← parenthesised? rest
  let associations ← (splitOuter ',' inner).mapM (Association.read room)
  some (associations, trimStart after)

/-- Reads an instance, comments aside. -/
def read (room : Nat) (t : Text) : Option Instance :=
  let t := trim (withoutComments t)
  if !fits Limits.blockBytes t then none
  else do
    let (label, rest) ← labelled? t
    let body := trimEnd (← dropFinal? ';' rest)
    let starts := outerMatches "generic".toList body ++ outerMatches "port".toList body
    let i := starts.min?.getD body.length
    let source ← InstanceSource.read (body.take i)
    let (generics, rest) := (splitMap? room "generic".toList (body.drop i)).getD ([], body.drop i)
    let (ports, rest) := (splitMap? room "port".toList rest).getD ([], rest)
    if rest.isEmpty then some ⟨label, source, generics, ports⟩ else none

end Instance

/-! ## Regions -/

namespace Concurrent

/-- Reads a piece of a region, given a reader for statements. -/
def readPieceWith (statement : Text → Option Concurrent) : Piece → Option (List Concurrent)
  | .comment c => (Comment.ofText? c).map fun c => [comment c]
  | .code code trailer => do
    let element ← statement code
    match trailer with
    | none => some [element]
    | some c => (Comment.ofText? c).map fun c => [element, comment c]

/-- Reads a generated region, given a reader for its body. -/
def readGenerateWith (room : Nat) (body : Text → Option Concurrent) (t : Text) :
    Option Concurrent := do
  let t := trim t
  if !fits Limits.blockBytes t || !isConstruct t then none
  else
    let (label, rest) ← labelled? t
    let rest ← afterWord? "for".toList rest
    let inner ← beforeEnd? ["generate".toList] true (some label.text) rest
    let (parameter, range, inside) ← Sequential.splitIteration? "generate".toList inner
    let parameter ← Ident.ofText? (trim parameter)
    let range ← Range.read room range
    let inside ← body ((afterWord? "begin".toList inside).getD inside)
    some (.generate label parameter range inside)

mutual

/-- Reads a region of concurrent code. -/
def read : Nat → Text → Option Concurrent
  | 0, _ => none
  | room + 1, t =>
    if !fits Limits.blockBytes t then none
    else do
      let pieces ← pieces? t
      let elements ← pieces.mapM (readPieceWith fun code =>
        match labelled? code with
        | some (_, rest) =>
          if startsWith "process".toList rest then (ProcessStatement.read room code).map process
          else if startsWith "for".toList rest then readGenerate room code
          else (Instance.read room code).map component
        | none =>
          if startsWith "process".toList code then (ProcessStatement.read room code).map process
          else (ConcurrentStatement.read room code).map simple)
      some (ofElements elements.flatten)

/-- Reads a generated region. -/
def readGenerate : Nat → Text → Option Concurrent
  | 0, _ => none
  | room + 1, t => readGenerateWith room (read room) t

end

end Concurrent
end CanonicalVhdl
