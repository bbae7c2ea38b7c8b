import CanonicalVhdl.Concurrent.Read
import CanonicalVhdl.Design.Declaration

/-!
# Architectures
-/

namespace CanonicalVhdl

open Text

/-- The identifier that a text starts with, and the rest. -/
def splitIdent? (t : Text) : Option (Ident × Text) := do
  let t := trimStart t
  let name ← Ident.ofText? (t.takeWhile isIdentChar)
  some (name, trimStart (t.dropWhile isIdentChar))

/-- An architecture of an entity. -/
structure Architecture where
  /-- The name of the architecture. -/
  name : Ident
  /-- The name of the entity. -/
  entity : Ident
  /-- The declarations before `begin`. -/
  head : DeclarativePart
  /-- The concurrent body. -/
  body : Concurrent

namespace Architecture

/-- Reads an architecture, which uses up one level of room. -/
def read (room : Nat) (t : Text) : Option Architecture :=
  let t := trim t
  if !fits Limits.blockBytes t || !isConstruct t then none
  else
    match room with
    | 0 => none
    | room + 1 => do
      let rest ← afterWord? "architecture".toList t
      let (name, rest) ← splitIdent? rest
      let rest ← afterWord? "of".toList rest
      let (entity, rest) ← splitIdent? rest
      let rest ← afterWord? "is".toList rest
      let inner ← beforeEnd? ["architecture".toList] false (some name.text) rest
      let (head, body) ← cutClause? "begin".toList inner
      let head ← DeclarativePart.read room head
      let body ← Concurrent.read room body
      some ⟨name, entity, head, body⟩

/-- The canonical text. -/
def text (a : Architecture) : Text :=
  "architecture ".toList ++ a.name.text ++ " of ".toList ++ a.entity.text ++ " is".toList
    ++ nested a.head.text ++ "\nbegin".toList ++ nested a.body.text
    ++ "\nend architecture ".toList ++ a.name.text ++ [';']

/-- Equality up to the case of identifiers. -/
def same (a b : Architecture) : Bool :=
  a.name.same b.name && a.entity.same b.entity && a.head.same b.head && a.body.same b.body

/-- Equality of lists up to the case of identifiers. -/
def sameAll : List Architecture → List Architecture → Bool
  | [], [] => true
  | a :: as, b :: bs => a.same b && sameAll as bs
  | _, _ => false

end Architecture
end CanonicalVhdl
