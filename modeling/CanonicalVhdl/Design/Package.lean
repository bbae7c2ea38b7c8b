import CanonicalVhdl.Design.Architecture

/-!
# Packages and package bodies

A package holds declarations but no function bodies; those belong in its body.

## Main definitions

* `Package`, `Package.ofItems?` — packages, and the check of their items.
* `BodyItem`, `PackageBody` — the contents of package bodies.
-/

namespace CanonicalVhdl

open Text

/-- A package. -/
structure Package where
  /-- The name. -/
  name : Ident
  /-- The declarations in order. -/
  items : List Declaration

namespace Package

/-- A package of items that declare distinct names, none of them a function body. -/
def ofItems? (name : Ident) (items : List Declaration) : Option Package :=
  if !items.any Declaration.isFunction && Declaration.namesDistinct items then some ⟨name, items⟩
  else none

/-- Reads a package. -/
def read (room : Nat) (t : Text) : Option Package := do
  let t := trim t
  if !fits Limits.blockBytes t || !isConstruct t then none
  else
    let rest ← afterWord? "package".toList t
    let (name, rest) ← splitIdent? rest
    let rest ← afterWord? "is".toList rest
    let body ← beforeEnd? ["package".toList] false (some name.text) rest
    let items ← Declaration.readPart room body
    ofItems? name items

/-- The canonical text. -/
def text (p : Package) : Text :=
  "package ".toList ++ p.name.text ++ " is".toList ++ nested (Declaration.partText p.items)
    ++ "\nend package ".toList ++ p.name.text ++ [';']

/-- Equality up to the case of identifiers. -/
def same (p q : Package) : Bool :=
  p.name.same q.name && Declaration.sameAll p.items q.items

/-- Equality of lists up to the case of identifiers. -/
def sameAll : List Package → List Package → Bool
  | [], [] => true
  | p :: ps, q :: qs => p.same q && sameAll ps qs
  | _, _ => false

end Package

/-! ## Bodies -/

/-- The contents of a package body: one item, or none or several. -/
inductive BodyItem where
  /-- A function with its body. -/
  | function (f : FunctionBody)
  /-- A declaration of an object. -/
  | object (d : ObjectDecl)
  /-- A declaration of a type. -/
  | type (d : TypeDecl)
  /-- A comment line. -/
  | comment (c : Comment)
  /-- Items in order. -/
  | items (items : List BodyItem)

namespace BodyItem

/-- The items in order. -/
def elements : BodyItem → List BodyItem
  | items elements => elements
  | single => [single]

/-- The contents with the given items; a single item stands for itself. -/
def ofElements : List BodyItem → BodyItem
  | [single] => single
  | several => items several

/-- Reads an item that is no comment line, by its first word. -/
def readItem (room : Nat) (t : Text) : Option BodyItem :=
  if startsWith "function".toList t then (FunctionBody.read room t).map function
  else if startsWith "type".toList t then (TypeDecl.read room t).map type
  else (ObjectDecl.read room t).map object

/-- Reads a piece of a package body. -/
def readPiece (room : Nat) : Piece → Option (List BodyItem)
  | .comment c => (Comment.ofText? c).map fun c => [comment c]
  | .code code trailer =>
    match ObjectDecl.readWithTrailer room code trailer with
    | some d => some [object d]
    | none => do
      let item ← readItem room code
      match trailer with
      | none => some [item]
      | some c => (Comment.ofText? c).map fun c => [item, comment c]

/-- Reads the contents of a package body, which use up one level of room. -/
def read (room : Nat) (t : Text) : Option BodyItem :=
  if !fits Limits.blockBytes t then none
  else
    match room with
    | 0 => none
    | room + 1 => do
      let pieces ← pieces? t
      let elements ← pieces.mapM (readPiece room)
      some (ofElements elements.flatten)

mutual

/-- The canonical text. -/
def text : BodyItem → Text
  | function f => f.text
  | object d => d.text
  | type d => d.text
  | comment c => c.line
  | items elements => join ['\n'] (texts elements)

/-- The canonical texts of a list of items. -/
def texts : List BodyItem → List Text
  | [] => []
  | i :: is => i.text :: texts is

end

mutual

/-- Equality up to the case of identifiers. -/
def same : BodyItem → BodyItem → Bool
  | function a, function b => a.same b
  | object a, object b => a.same b
  | type a, type b => a.same b
  | comment a, comment b => a == b
  | items as, items bs => sameAll as bs
  | _, _ => false
termination_by structural x _ => x

/-- Equality of lists up to the case of identifiers. -/
def sameAll : List BodyItem → List BodyItem → Bool
  | [], [] => true
  | a :: as, b :: bs => a.same b && sameAll as bs
  | _, _ => false
termination_by structural x _ => x

end

end BodyItem

/-- A package body. -/
structure PackageBody where
  /-- The name of the package. -/
  name : Ident
  /-- The contents. -/
  body : BodyItem

namespace PackageBody

/-- Reads a package body. -/
def read (room : Nat) (t : Text) : Option PackageBody := do
  let t := trim t
  if !fits Limits.blockBytes t || !isConstruct t then none
  else
    let rest ← afterWords? ["package".toList, "body".toList] t
    let (name, rest) ← splitIdent? rest
    let rest ← afterWord? "is".toList rest
    let inner ← beforeEnd? ["package".toList, "body".toList] false (some name.text) rest
    let body ← BodyItem.read room inner
    some ⟨name, body⟩

/-- The canonical text. -/
def text (b : PackageBody) : Text :=
  "package body ".toList ++ b.name.text ++ " is".toList ++ nested b.body.text
    ++ "\nend package body ".toList ++ b.name.text ++ [';']

/-- Equality up to the case of identifiers. -/
def same (b c : PackageBody) : Bool :=
  b.name.same c.name && b.body.same c.body

/-- Equality of lists up to the case of identifiers. -/
def sameAll : List PackageBody → List PackageBody → Bool
  | [], [] => true
  | b :: bs, c :: cs => b.same c && sameAll bs cs
  | _, _ => false

end PackageBody
end CanonicalVhdl
