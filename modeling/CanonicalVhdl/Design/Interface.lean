import CanonicalVhdl.Object.Basic
import CanonicalVhdl.Text.Extent

/-!
# Ports and generics

The entries of port and generic clauses, the clauses themselves, and the entities
and components that they describe.

A clause is a list of entries between parentheses, separated by semicolons.  The
comment on the line where an entry ends belongs to the entry; comments on lines of
their own are dropped.

## Main definitions

* `Port`, `Generic` — entries.
* `ListEntry`, `ListEntry.split?`, `ListEntry.clauseText` — clauses as text.
* `PortClause`, `GenericClause` — clauses; `ofPorts?` and `ofGenerics?` check one.
* `Interface` — the shape that entities and component declarations share.
-/

namespace CanonicalVhdl

open Text

/-! ## Clauses as text -/

/-- An entry of a clause: its code, and the comment that ends its line. -/
structure ListEntry where
  /-- The code without comments. -/
  code : Text
  /-- The comment on the line where the entry ends. -/
  comment : Option Comment
deriving DecidableEq

namespace ListEntry

/-- The comment on the rest of the current line. -/
def lineComment (t : Text) : Option Comment :=
  Comment.ofLine? (t.takeWhile (· != '\n'))

/-- The entries of the pieces between semicolons.  The comment of an entry
follows its semicolon; that of the last entry follows its code. -/
def ofPieces? : List Text → Option (List ListEntry)
  | [] => some []
  | piece :: pieces => do
    let masked := maskComments piece
    let code := trim masked
    if code.isEmpty then none
    else
      let comment :=
        match pieces with
        | next :: _ => lineComment next
        | [] =>
          lineComment (piece.drop ((position? (byteLength (trimEnd masked)) piece).getD 0))
      let entries ← ofPieces? pieces
      some (⟨code, comment⟩ :: entries)

/-- The entries of the interior of a clause.  None may be empty. -/
def split? (inner : Text) : Option (List ListEntry) :=
  ofPieces? (splitOuter ';' inner)

/-- The lines of a clause: every entry but the last has a semicolon. -/
def lines : List ListEntry → List Text
  | [] => []
  | [e] => [Comment.append e.code e.comment]
  | e :: es => Comment.append (e.code ++ [';']) e.comment :: lines es

/-- The canonical text of a clause. -/
def clauseText (keyword : Text) (entries : List ListEntry) : Text :=
  keyword ++ " (\n".toList ++ indent 1 (join ['\n'] (lines entries)) ++ "\n);".toList

/-- The interior of a clause that takes up the whole text. -/
def interior? (keyword : Text) (t : Text) : Option Text := do
  let rest ← afterWord? keyword t
  let (inner, after) ← parenthesised? rest
  if trim after == [';'] then some inner else none

end ListEntry

/-! ## Ports -/

/-- A port. -/
structure Port where
  /-- The name. -/
  name : Ident
  /-- The direction. -/
  mode : Mode
  /-- The type. -/
  type : TypeMark
  /-- The default value. -/
  default : Option Expr
  /-- The comment on the line where the port ends. -/
  comment : Option Comment

namespace Port

/-- A port with a default, which must be consistent with its type. -/
def declare? (name : Ident) (mode : Mode) (type : TypeMark) (value : Expr) : Option Port :=
  if type.admits value then some ⟨name, mode, type, some value, none⟩ else none

/-- The mode that a text starts with and the rest; without one it is `in`. -/
def splitMode? (t : Text) : Option (Mode × Text) :=
  match (firstWord? t).bind Mode.read with
  | some mode => (afterWord? mode.text t).map fun rest => (mode, rest)
  | none => some (.input, t)

/-- Reads the code of a port. -/
def readEntry (room : Nat) (e : ListEntry) : Option Port := do
  let (name, rest) ← TypedName.splitName? e.code
  let (mode, rest) ← splitMode? (trimStart rest)
  let typed ← TypedName.readTyped room name rest
  some ⟨name, mode, typed.type, typed.default, e.comment⟩

/-- Reads a port with the comment on its last line. -/
def read (room : Nat) (t : Text) : Option Port :=
  if !fits Limits.statementBytes t then none
  else
    let (code, comment) := Comment.splitTrailer t
    readEntry room ⟨code, comment⟩

/-- The canonical text of a port as an entry. -/
def entry (p : Port) : ListEntry :=
  ⟨p.name.text ++ ": ".toList
    ++ TypedName.typeText (p.mode.text ++ ' ' :: p.type.text) p.default, p.comment⟩

/-- The canonical text. -/
def text (p : Port) : Text :=
  Comment.append p.entry.code p.comment

/-- Equality up to the case of identifiers. -/
def same (p q : Port) : Bool :=
  p.name.same q.name && p.mode == q.mode && p.type.same q.type && sameExpr? p.default q.default
    && p.comment == q.comment

/-- Equality of lists up to the case of identifiers. -/
def sameAll : List Port → List Port → Bool
  | [], [] => true
  | p :: ps, q :: qs => p.same q && sameAll ps qs
  | _, _ => false

end Port

/-! ## Generics -/

/-- A generic. -/
structure Generic where
  /-- The name. -/
  name : Ident
  /-- The type. -/
  type : TypeMark
  /-- The default value. -/
  default : Option Expr
  /-- The comment on the line where the generic ends. -/
  comment : Option Comment

namespace Generic

/-- A generic with a default, which must be consistent with its type. -/
def declare? (name : Ident) (type : TypeMark) (value : Expr) : Option Generic :=
  if type.admits value then some ⟨name, type, some value, none⟩ else none

/-- Reads the code of a generic. -/
def readEntry (room : Nat) (e : ListEntry) : Option Generic := do
  let (name, rest) ← TypedName.splitName? e.code
  let typed ← TypedName.readTyped room name (trimStart rest)
  some ⟨name, typed.type, typed.default, e.comment⟩

/-- Reads a generic with the comment on its last line. -/
def read (room : Nat) (t : Text) : Option Generic :=
  if !fits Limits.statementBytes t then none
  else
    let (code, comment) := Comment.splitTrailer t
    readEntry room ⟨code, comment⟩

/-- The canonical text of a generic as an entry. -/
def entry (g : Generic) : ListEntry :=
  ⟨g.name.text ++ ": ".toList ++ TypedName.typeText g.type.text g.default, g.comment⟩

/-- The canonical text. -/
def text (g : Generic) : Text :=
  Comment.append g.entry.code g.comment

/-- Equality up to the case of identifiers. -/
def same (g h : Generic) : Bool :=
  g.name.same h.name && g.type.same h.type && sameExpr? g.default h.default
    && g.comment == h.comment

/-- Equality of lists up to the case of identifiers. -/
def sameAll : List Generic → List Generic → Bool
  | [], [] => true
  | g :: gs, h :: hs => g.same h && sameAll gs hs
  | _, _ => false

end Generic

/-! ## Clauses -/

/-- A port clause. -/
structure PortClause where
  /-- The ports in order. -/
  ports : List Port

namespace PortClause

/-- A clause of at least one port, no two of the same name. -/
def ofPorts? (ports : List Port) : Option PortClause :=
  if !ports.isEmpty && Ident.distinct (ports.map (·.name)) then some ⟨ports⟩ else none

/-- Reads a port clause. -/
def read (room : Nat) (t : Text) : Option PortClause :=
  let t := trim t
  if !fits Limits.blockBytes t then none
  else do
    let inner ← ListEntry.interior? "port".toList t
    let entries ← ListEntry.split? inner
    let ports ← entries.mapM (Port.readEntry room)
    ofPorts? ports

/-- The canonical text. -/
def text (c : PortClause) : Text :=
  ListEntry.clauseText "port".toList (c.ports.map Port.entry)

/-- Equality up to the case of identifiers. -/
def same (c d : PortClause) : Bool := Port.sameAll c.ports d.ports

end PortClause

/-- A generic clause. -/
structure GenericClause where
  /-- The generics in order. -/
  generics : List Generic

namespace GenericClause

/-- A clause of at least one generic, no two of the same name. -/
def ofGenerics? (generics : List Generic) : Option GenericClause :=
  if !generics.isEmpty && Ident.distinct (generics.map (·.name)) then some ⟨generics⟩ else none

/-- Reads a generic clause. -/
def read (room : Nat) (t : Text) : Option GenericClause :=
  let t := trim t
  if !fits Limits.blockBytes t then none
  else do
    let inner ← ListEntry.interior? "generic".toList t
    let entries ← ListEntry.split? inner
    let generics ← entries.mapM (Generic.readEntry room)
    ofGenerics? generics

/-- The canonical text. -/
def text (c : GenericClause) : Text :=
  ListEntry.clauseText "generic".toList (c.generics.map Generic.entry)

/-- Equality up to the case of identifiers. -/
def same (c d : GenericClause) : Bool := Generic.sameAll c.generics d.generics

end GenericClause

/-! ## Entities and component declarations -/

/-- A name with the clauses that describe its interface. -/
structure Interface where
  /-- The name. -/
  name : Ident
  /-- The generic clause. -/
  generics : Option GenericClause
  /-- The port clause. -/
  ports : Option PortClause

namespace Interface

/-- Reads a generic clause and a port clause, each optional, in this order.  The
first argument bounds the number of clauses. -/
def readClauses (room : Nat) (generics : Option GenericClause) (ports : Option PortClause) :
    Nat → Text → Option (Option GenericClause × Option PortClause)
  | 0, _ => none
  | fuel + 1, t =>
    let t := (skipTrivia ⟨0, none, t⟩).rest
    if t.isEmpty then some (generics, ports)
    else do
      let n ← extent? t
      let clause := t.take n
      if startsWith "generic".toList clause && generics.isNone && ports.isNone then
        let clause ← GenericClause.read room clause
        readClauses room (some clause) ports fuel (t.drop n)
      else if startsWith "port".toList clause && ports.isNone then
        let clause ← PortClause.read room clause
        readClauses room generics (some clause) fuel (t.drop n)
      else none

/-- The name and the body of `keyword name is body end keyword name;`.  The word
`is` may be left out unless it is required. -/
def splitUnit? (keyword : Text) (requireIs : Bool) (t : Text) : Option (Ident × Text) := do
  if !fits Limits.blockBytes t || !isConstruct t then none
  else
    let rest ← afterWord? keyword t
    let isEnd (c : Char) := isBlank c || c == '-'
    let name ← Ident.ofText? (rest.takeWhile (!isEnd ·))
    let body := trimStart (rest.dropWhile (!isEnd ·))
    let body ←
      match afterWord? "is".toList body with
      | some after => some after
      | none => if requireIs then none else some body
    let body ← beforeEnd? [keyword] false (some name.text) body
    some (name, body)

/-- Reads an entity or a component declaration. -/
def readAs (room : Nat) (keyword : Text) (requireIs : Bool) (t : Text) : Option Interface := do
  let (name, body) ← splitUnit? keyword requireIs (trim t)
  let (generics, ports) ← readClauses room none none (body.length + 1) body
  some ⟨name, generics, ports⟩

/-- Reads an entity. -/
def readEntity (room : Nat) (t : Text) : Option Interface :=
  readAs room "entity".toList true t

/-- Reads a component declaration. -/
def readComponent (room : Nat) (t : Text) : Option Interface :=
  readAs room "component".toList false t

/-- The canonical text after a keyword. -/
def textAs (keyword : Text) (u : Interface) : Text :=
  keyword ++ ' ' :: u.name.text ++ " is".toList
    ++ (u.generics.elim [] fun c => '\n' :: indent 1 c.text)
    ++ (u.ports.elim [] fun c => '\n' :: indent 1 c.text)
    ++ "\nend ".toList ++ keyword ++ ' ' :: u.name.text ++ [';']

/-- The canonical text of an entity. -/
def entityText (u : Interface) : Text := textAs "entity".toList u

/-- The canonical text of a component declaration. -/
def componentText (u : Interface) : Text := textAs "component".toList u

/-- Equality up to the case of identifiers. -/
def same (u v : Interface) : Bool :=
  u.name.same v.name
    && (match u.generics, v.generics with
      | none, none => true
      | some c, some d => c.same d
      | _, _ => false)
    && (match u.ports, v.ports with
      | none, none => true
      | some c, some d => c.same d
      | _, _ => false)

/-- Equality of lists up to the case of identifiers. -/
def sameAll : List Interface → List Interface → Bool
  | [], [] => true
  | u :: us, v :: vs => u.same v && sameAll us vs
  | _, _ => false

end Interface
end CanonicalVhdl
