import CanonicalVhdl.Lexical.Comment
import CanonicalVhdl.Types.Read

/-!
# Declarations of objects

Signals, variables and constants.  A constant always has a value; the default of a
signal or variable may be missing.  A default that is a literal must be a value of
its type, if that is a built-in one.

## Main definitions

* `ObjectDecl` — a declaration, with the comment on its last line.
* `ObjectDecl.declare?` — a declaration whose default is checked.
* `ObjectDecl.read`, `ObjectDecl.text` — reading and writing.
-/

namespace CanonicalVhdl

open Text

/-- Equality of optional expressions up to the case of identifiers. -/
def sameExpr? : Option Expr → Option Expr → Bool
  | none, none => true
  | some a, some b => a.same b
  | _, _ => false

/-- The class of an object. -/
inductive ObjectClass where
  | signal | var | constant
deriving DecidableEq, Repr

namespace ObjectClass

/-- Every class. -/
def all : List ObjectClass := [signal, var, constant]

/-- The keyword of a class. -/
def keyword : ObjectClass → String
  | signal => "signal"
  | var => "variable"
  | constant => "constant"

/-- The name in the JSON form of trees. -/
def label : ObjectClass → String
  | signal => "Signal"
  | var => "Variable"
  | constant => "Constant"

/-- The class of the declaration that a text starts with. -/
def ofDeclaration? (t : Text) : Option ObjectClass :=
  all.find? fun c => startsWith c.keyword.toList t

end ObjectClass

/-- A name with a type and an optional default. -/
structure TypedName where
  /-- The name. -/
  name : Ident
  /-- The type. -/
  type : TypeMark
  /-- The default. -/
  default : Option Expr

namespace TypedName

/-- Whether the default, if any, may be a value of the type. -/
def isConsistent (n : TypedName) : Bool :=
  n.default.all n.type.admits

/-- Reads a type with an optional default after `:=`. -/
def readTyped (room : Nat) (name : Ident) (t : Text) : Option TypedName := do
  let typed : TypedName ←
    match cutOuter? ":=".toList t with
    | some (type, default) => do
      let type ← TypeMark.read room type
      let default ← Expr.read room default
      some ⟨name, type, some default⟩
    | none => (TypeMark.read room t).map fun type => ⟨name, type, none⟩
  if typed.isConsistent then some typed else none

/-- The name before the first colon, and the text after the colon; the colon of
`:=` does not count. -/
def splitName? (t : Text) : Option (Ident × Text) := do
  let (name, rest) ← splitOnce ':' t
  if rest.head? == some '=' then none
  else
    let name ← Ident.ofText? (trim name)
    some (name, rest)

/-- A type and the default after it. -/
def typeText (type : Text) : Option Expr → Text
  | none => type
  | some value => type ++ (" := ".toList ++ value.text)

end TypedName

/-- A declaration of an object. -/
structure ObjectDecl where
  /-- The class of the object. -/
  objectClass : ObjectClass
  /-- The name of the object. -/
  name : Ident
  /-- The type of the object. -/
  type : TypeMark
  /-- The default value, or the value of a constant. -/
  default : Option Expr
  /-- The comment on the last line of the declaration. -/
  comment : Option Comment
  /-- A constant has a value. -/
  valued : objectClass = .constant → default.isSome = true

namespace ObjectDecl

/-- The declaration with a given comment. -/
def withComment (d : ObjectDecl) (comment : Option Comment) : ObjectDecl :=
  { d with comment := comment }

/-- A declaration made of a name with a type and a default, unless it is a
constant without a value. -/
def ofTyped? (c : ObjectClass) (n : TypedName) (comment : Option Comment) : Option ObjectDecl :=
  if h : c = .constant → n.default.isSome = true then
    some ⟨c, n.name, n.type, n.default, comment, h⟩
  else none

/-- A declaration with a default, which must be consistent with the type. -/
def declare? (c : ObjectClass) (name : Ident) (type : TypeMark) (value : Expr) :
    Option ObjectDecl :=
  if type.admits value then some ⟨c, name, type, some value, none, fun _ => rfl⟩ else none

/-- Reads a declaration of a given class. -/
def readAs (room : Nat) (c : ObjectClass) (t : Text) : Option ObjectDecl :=
  if !fits Limits.statementBytes t then none
  else do
    let (code, comment) := Comment.splitTrailer t
    let body ← afterWord? c.keyword.toList code
    let body ← dropFinal? ';' body
    let (name, rest) ← TypedName.splitName? (trimEnd body)
    let typed ← TypedName.readTyped room name rest
    ofTyped? c typed comment

/-- Reads a declaration of any class. -/
def read (room : Nat) (t : Text) : Option ObjectDecl :=
  let t := trimStart t
  (ObjectClass.ofDeclaration? t).bind fun c => readAs room c t

/-- Reads a declaration and attaches the comment that follows it on its line,
unless a comment stands inside. -/
def readWithTrailer (room : Nat) (t : Text) (trailer : Option Text) : Option ObjectDecl :=
  (read room t).map fun d =>
    match trailer with
    | some comment => if d.comment.isNone then d.withComment (Comment.ofText? comment) else d
    | none => d

/-- The canonical text. -/
def text (d : ObjectDecl) : Text :=
  Comment.append
    (d.objectClass.keyword.toList ++ ' ' :: (d.name.text ++ ": ".toList
      ++ TypedName.typeText d.type.text d.default ++ [';']))
    d.comment

/-- Equality up to the case of identifiers. -/
def same (a b : ObjectDecl) : Bool :=
  a.objectClass == b.objectClass && a.name.same b.name && a.type.same b.type
    && sameExpr? a.default b.default && a.comment == b.comment

end ObjectDecl
end CanonicalVhdl
