import CanonicalVhdl.Object.Basic
import CanonicalVhdl.Text.Piece

/-!
# Declarations of types

Enumerations, records and constrained arrays.

## Main definitions

* `RecordField`, `TypeDecl` — fields and declarations.
* `TypeDecl.enumeration?`, `TypeDecl.record?` — checked declarations.
* `TypeDecl.read`, `TypeDecl.text` — reading and writing.
-/

namespace CanonicalVhdl

open Text

/-- A field of a record. -/
structure RecordField where
  /-- The name. -/
  name : Ident
  /-- The type. -/
  type : TypeMark
  /-- The comment on the line where the field ends. -/
  comment : Option Comment

namespace RecordField

/-- Reads a field. -/
def read (room : Nat) (t : Text) : Option RecordField :=
  if !fits Limits.statementBytes t then none
  else do
    let (code, comment) := Comment.splitTrailer t
    let body ← dropFinal? ';' code
    let (name, type) ← splitOnce ':' body
    let name ← Ident.ofText? (trim name)
    let type ← TypeMark.read room type
    some ⟨name, type, comment⟩

/-- Reads a field and attaches the comment that follows it on its line, unless a
comment stands inside. -/
def readWithTrailer (room : Nat) (t : Text) (trailer : Option Text) : Option RecordField :=
  (read room t).map fun f =>
    if f.comment.isNone then { f with comment := trailer.bind Comment.ofText? } else f

/-- The canonical text. -/
def text (f : RecordField) : Text :=
  Comment.append (f.name.text ++ ": ".toList ++ f.type.text ++ [';']) f.comment

/-- Equality up to the case of identifiers. -/
def same (f g : RecordField) : Bool :=
  f.name.same g.name && f.type.same g.type && f.comment == g.comment

/-- Equality of lists up to the case of identifiers. -/
def sameAll : List RecordField → List RecordField → Bool
  | [], [] => true
  | f :: fs, g :: gs => f.same g && sameAll fs gs
  | _, _ => false

end RecordField

/-- A declaration of a type. -/
inductive TypeDecl where
  /-- An enumeration. -/
  | enumeration (name : Ident) (values : List Ident)
  /-- A record. -/
  | record (name : Ident) (fields : List RecordField)
  /-- An array over a range. -/
  | array (name : Ident) (range : Range) (element : TypeMark)

namespace TypeDecl

/-- The declared name. -/
def declaredName : TypeDecl → Ident
  | enumeration n _ => n
  | record n _ => n
  | array n _ _ => n

/-- An enumeration of at least one value, no two equal. -/
def enumeration? (name : Ident) (values : List Ident) : Option TypeDecl :=
  if !values.isEmpty && Ident.distinct values then some (enumeration name values) else none

/-- A record of at least one field, no two of the same name. -/
def record? (name : Ident) (fields : List RecordField) : Option TypeDecl :=
  if !fields.isEmpty && Ident.distinct (fields.map (·.name)) then some (record name fields)
  else none

/-- Reads the values of an enumeration, from its parenthesis on. -/
def readEnumeration (name : Ident) (t : Text) : Option TypeDecl := do
  let (inner, after) ← parenthesised? t
  if trim after != [';'] then none
  else
    let values ← (splitOuter ',' inner).mapM fun value => Ident.ofText? (trim value)
    enumeration? name values

/-- Reads a piece of a record; comment lines hold no field. -/
def readField (room : Nat) : Piece → Option (Option RecordField)
  | .comment _ => some none
  | .code code trailer => (RecordField.readWithTrailer room code trailer).map some

/-- Reads the fields of a record, from the word `record` on; `whole` is the whole
declaration, which must be one construct. -/
def readRecord (room : Nat) (name : Ident) (whole t : Text) : Option TypeDecl := do
  if !isConstruct whole then none
  else
    let body ← afterWord? "record".toList t
    let body ← beforeEnd? ["record".toList] true (some name.text) body
    let pieces ← pieces? body
    let fields ← pieces.mapM (readField room)
    record? name (fields.filterMap id)

/-- Reads an array type, from the word `array` on. -/
def readArray (room : Nat) (name : Ident) (t : Text) : Option TypeDecl := do
  let rest ← afterWord? "array".toList t
  let (range, after) ← parenthesised? rest
  let element ← afterWord? "of".toList after
  let range ← Range.read room range
  let element ← dropFinal? ';' element
  let element ← TypeMark.read room element
  some (array name range element)

/-- Reads a declaration of a type. -/
def read (room : Nat) (t : Text) : Option TypeDecl :=
  let t := trim t
  if !fits Limits.blockBytes t then none
  else do
    let rest ← afterWord? "type".toList t
    let (name, body) ← splitAtWord? "is".toList rest
    let name ← Ident.ofText? (trim name)
    let body := trimStart body
    if startsWith "record".toList body then readRecord room name t body
    else
      let code := stripComments body
      if code.head? == some '(' then readEnumeration name code else readArray room name code

/-- The canonical text. -/
def text : TypeDecl → Text
  | enumeration name values =>
    "type ".toList ++ name.text ++ " is (".toList ++ join ", ".toList (values.map (·.text))
      ++ ");".toList
  | record name fields =>
    "type ".toList ++ name.text ++ " is record\n".toList
      ++ indent 1 (join ['\n'] (fields.map (·.text))) ++ "\nend record ".toList ++ name.text ++ [';']
  | array name range element =>
    "type ".toList ++ name.text ++ " is array (".toList ++ range.text ++ ") of ".toList
      ++ element.text ++ [';']

/-- Equality up to the case of identifiers. -/
def same : TypeDecl → TypeDecl → Bool
  | enumeration n vs, enumeration n' vs' => n.same n' && Ident.sameAll vs vs'
  | record n fs, record n' fs' => n.same n' && RecordField.sameAll fs fs'
  | array n r e, array n' r' e' => n.same n' && r.same r' && e.same e'
  | _, _ => false

end TypeDecl
end CanonicalVhdl
