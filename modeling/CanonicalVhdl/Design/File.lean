import CanonicalVhdl.Design.Context
import CanonicalVhdl.Design.Package

/-!
# Design files

A file is cut into units: comment lines, context clauses and design units.  Units
are grouped by kind and written in a fixed order.

## Main definitions

* `UnitKind`, `SourceUnit`, `SourceUnit.split` — the units of a file as text.
* `DesignUnit`, `DesignFile` — units and files as trees.
* `DesignFile.read`, `DesignFile.text` — reading and writing.
-/

namespace CanonicalVhdl

open Text

/-- What the first words of a unit say it is. -/
inductive UnitKind where
  | comment | context | entity | architecture | package | packageBody | unknown
deriving DecidableEq, Repr

namespace UnitKind

/-- The kind of a unit, by its first words. -/
def ofText (t : Text) : UnitKind :=
  if "--".toList.isPrefixOf t then comment
  else if startsWith "library".toList t || startsWith "use".toList t then context
  else if startsWith "entity".toList t then entity
  else if startsWith "architecture".toList t then architecture
  else if (afterWords? ["package".toList, "body".toList] t).isSome then packageBody
  else if startsWith "package".toList t then package
  else unknown

/-- The name of a kind in messages. -/
def describe : UnitKind → String
  | comment => "comment"
  | context => "context clause"
  | entity => "entity"
  | architecture => "architecture"
  | package => "package"
  | packageBody => "package body"
  | unknown => "unit"

end UnitKind

/-- A unit of a file, still as text. -/
structure SourceUnit where
  /-- What the unit is. -/
  kind : UnitKind
  /-- The byte offset of its start. -/
  start : Nat
  /-- The unit's text. -/
  text : Text

namespace SourceUnit

/-- The byte offset of the unit's end. -/
def stop (u : SourceUnit) : Nat := u.start + byteLength u.text

/-- The number of characters of the unit at the head of a text: a comment line,
or a construct, or all the rest when that does not end. -/
def lengthAt (t : Text) : Nat :=
  match Lexeme.at none t with
  | .comment n => n
  | _ => (extent? t).getD t.length

/-- Collects the units from byte offset `start` on, newest first in `found`.  The
first argument bounds the number of units. -/
def splitFrom (found : List SourceUnit) (start : Nat) : Nat → Text → List SourceUnit
  | 0, _ => found.reverse
  | fuel + 1, t =>
    let rest := t.dropWhile isAsciiBlank
    if rest.isEmpty then found.reverse
    else
      let start := start + byteLength (t.takeWhile isAsciiBlank)
      let n := lengthAt rest
      let u : SourceUnit := ⟨UnitKind.ofText (rest.take n), start, rest.take n⟩
      splitFrom (u :: found) u.stop fuel (rest.drop n)

/-- The units of a file in order. -/
def split (t : Text) : List SourceUnit :=
  splitFrom [] 0 (t.length + 1) t

/-- Whether the unit is a comment line. -/
def isComment (u : SourceUnit) : Bool := u.kind == .comment

/-- The units that a file keeps: of the comment lines only those before the first
other unit. -/
def kept (units : List SourceUnit) : List SourceUnit :=
  units.takeWhile isComment ++ (units.dropWhile isComment).filter (!·.isComment)

end SourceUnit

/-- A unit of a file. -/
inductive DesignUnit where
  /-- A comment line. -/
  | comment (c : Comment)
  /-- A context clause. -/
  | context (c : ContextClause)
  /-- A package. -/
  | package (p : Package)
  /-- A package body. -/
  | packageBody (b : PackageBody)
  /-- An entity. -/
  | entity (e : Interface)
  /-- An architecture. -/
  | architecture (a : Architecture)

namespace DesignUnit

/-- Reads a unit as its kind. -/
def read (room : Nat) (u : SourceUnit) : Option DesignUnit :=
  match u.kind with
  | .comment => (Comment.read u.text).map comment
  | .context => (ContextClause.read u.text).map context
  | .entity => (Interface.readEntity room u.text).map entity
  | .architecture => (Architecture.read room u.text).map architecture
  | .package => (Package.read room u.text).map package
  | .packageBody => (PackageBody.read room u.text).map packageBody
  | .unknown => none

/-- The comment that a unit is. -/
def comment? : DesignUnit → Option Comment
  | comment c => some c
  | _ => none

/-- The context clause that a unit is. -/
def context? : DesignUnit → Option ContextClause
  | context c => some c
  | _ => none

/-- The package that a unit is. -/
def package? : DesignUnit → Option Package
  | package p => some p
  | _ => none

/-- The package body that a unit is. -/
def packageBody? : DesignUnit → Option PackageBody
  | packageBody b => some b
  | _ => none

/-- The entity that a unit is. -/
def entity? : DesignUnit → Option Interface
  | entity e => some e
  | _ => none

/-- The architecture that a unit is. -/
def architecture? : DesignUnit → Option Architecture
  | architecture a => some a
  | _ => none

end DesignUnit

/-- A design file. -/
structure DesignFile where
  /-- The comment lines before the first unit. -/
  header : List Comment
  /-- The context clauses. -/
  context : List ContextClause
  /-- The packages. -/
  packages : List Package
  /-- The package bodies. -/
  packageBodies : List PackageBody
  /-- The entities. -/
  entities : List Interface
  /-- The architectures. -/
  architectures : List Architecture

namespace DesignFile

/-- The file made of the given units. -/
def ofUnits (units : List DesignUnit) : DesignFile where
  header := units.filterMap DesignUnit.comment?
  context := units.filterMap DesignUnit.context?
  packages := units.filterMap DesignUnit.package?
  packageBodies := units.filterMap DesignUnit.packageBody?
  entities := units.filterMap DesignUnit.entity?
  architectures := units.filterMap DesignUnit.architecture?

/-- Whether the file declares nothing. -/
def isEmpty (f : DesignFile) : Bool :=
  f.context.isEmpty && f.packages.isEmpty && f.packageBodies.isEmpty && f.entities.isEmpty
    && f.architectures.isEmpty

/-- Reads a file, all of whose kept units must be readable. -/
def read (room : Nat) (t : Text) : Option DesignFile :=
  if !fits Limits.blockBytes t then none
  else ((SourceUnit.kept (SourceUnit.split t)).mapM (DesignUnit.read room)).map ofUnits

/-- The sections of a file.  The header and the context clauses share one. -/
def sections (f : DesignFile) : List Text :=
  let prologue := f.header.map (·.line) ++ f.context.map (·.text)
  (if prologue.isEmpty then [] else [join ['\n'] prologue])
    ++ f.packages.map (·.text) ++ f.packageBodies.map (·.text) ++ f.entities.map (·.entityText)
    ++ f.architectures.map (·.text)

/-- The canonical text: the sections with a blank line between them. -/
def text (f : DesignFile) : Text :=
  join "\n\n".toList f.sections

/-- Equality up to the case of identifiers. -/
def same (f g : DesignFile) : Bool :=
  f.header == g.header && ContextClause.sameAll f.context g.context
    && Package.sameAll f.packages g.packages
    && PackageBody.sameAll f.packageBodies g.packageBodies
    && Interface.sameAll f.entities g.entities
    && Architecture.sameAll f.architectures g.architectures

end DesignFile
end CanonicalVhdl
