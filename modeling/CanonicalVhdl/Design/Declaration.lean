import CanonicalVhdl.Design.Function
import CanonicalVhdl.Design.Interface
import CanonicalVhdl.Design.TypeDecl

/-!
# Declarative parts

The items of architectures' and packages' declarative parts.  Objects, types and
components must have distinct names; functions may be overloaded.

## Main definitions

* `Declaration` — an item.
* `Declaration.readPart` — reads the items of a declarative part.
* `Declaration.namesDistinct` — whether no two items declare the same name.
-/

namespace CanonicalVhdl

open Text

/-- An item of a declarative part. -/
inductive Declaration where
  /-- A declaration of an object. -/
  | object (d : ObjectDecl)
  /-- A comment line. -/
  | comment (c : Comment)
  /-- A declaration of a type. -/
  | type (d : TypeDecl)
  /-- A declaration of a component. -/
  | component (c : Interface)
  /-- The signature of a function. -/
  | signature (s : Signature)
  /-- A function with its body. -/
  | function (f : FunctionBody)

namespace Declaration

/-- The declared name, if it must be unique in its part. -/
def declaredName? : Declaration → Option Ident
  | object d => some d.name
  | type d => some d.declaredName
  | component c => some c.name
  | comment _ | signature _ | function _ => none

/-- Whether no two items declare the same name. -/
def namesDistinct (items : List Declaration) : Bool :=
  Ident.distinct (items.filterMap declaredName?)

/-- Whether an item is a function with its body. -/
def isFunction : Declaration → Bool
  | function _ => true
  | _ => false

/-- Reads an item that is no comment line, by its first word. -/
def readItem (room : Nat) (t : Text) : Option Declaration := do
  let word ← firstWord? t
  let eq (k : String) := sameWord word k.toList
  if eq "signal" || eq "variable" || eq "constant" then (ObjectDecl.read room t).map object
  else if eq "type" then (TypeDecl.read room t).map type
  else if eq "component" then (Interface.readComponent room t).map component
  else if eq "function" then
    match FunctionBody.read room t with
    | some f => some (function f)
    | none => (Signature.read room t).map signature
  else none

/-- Reads a piece of a declarative part. -/
def readPiece (room : Nat) : Piece → Option (List Declaration)
  | .comment c => (Comment.ofText? c).map fun c => [comment c]
  | .code code trailer =>
    match ObjectDecl.readWithTrailer room code trailer with
    | some d => some [object d]
    | none => do
      let item ← readItem room code
      match trailer with
      | none => some [item]
      | some c => (Comment.ofText? c).map fun c => [item, comment c]

/-- Reads the items of a declarative part. -/
def readPart (room : Nat) (t : Text) : Option (List Declaration) := do
  let pieces ← pieces? t
  let items ← pieces.mapM (readPiece room)
  some items.flatten

/-- Reads a single item. -/
def read (room : Nat) (t : Text) : Option Declaration := do
  match ← readPart room t with
  | [item] => some item
  | _ => none

/-- The canonical text. -/
def text : Declaration → Text
  | object d => d.text
  | comment c => c.line
  | type d => d.text
  | component c => c.componentText
  | signature s => s.text
  | function f => f.text

/-- The canonical text of a declarative part. -/
def partText (items : List Declaration) : Text :=
  join ['\n'] (items.map text)

/-- Equality up to the case of identifiers. -/
def same : Declaration → Declaration → Bool
  | object a, object b => a.same b
  | comment a, comment b => a == b
  | type a, type b => a.same b
  | component a, component b => a.same b
  | signature a, signature b => a.same b
  | function a, function b => a.same b
  | _, _ => false

/-- Equality of lists up to the case of identifiers. -/
def sameAll : List Declaration → List Declaration → Bool
  | [], [] => true
  | a :: as, b :: bs => a.same b && sameAll as bs
  | _, _ => false

end Declaration

/-- The declarative part of an architecture. -/
structure DeclarativePart where
  /-- The items in order. -/
  items : List Declaration

namespace DeclarativePart

/-- A part no two items of which declare the same name. -/
def ofItems? (items : List Declaration) : Option DeclarativePart :=
  if Declaration.namesDistinct items then some ⟨items⟩ else none

/-- Reads a declarative part. -/
def read (room : Nat) (t : Text) : Option DeclarativePart :=
  if !fits Limits.blockBytes t then none else (Declaration.readPart room t).bind ofItems?

/-- The canonical text. -/
def text (p : DeclarativePart) : Text := Declaration.partText p.items

/-- Equality up to the case of identifiers. -/
def same (p q : DeclarativePart) : Bool := Declaration.sameAll p.items q.items

end DeclarativePart
end CanonicalVhdl
