import CanonicalVhdl.Sequential.Read

/-!
# Functions

## Main definitions

* `Parameter`, `Signature`, `FunctionBody` — parameters, signatures and bodies.
* `Signature.ofParameters?` — a signature with distinct parameters.
* `Signature.read`, `FunctionBody.read` — reading.
-/

namespace CanonicalVhdl

open Text

/-- A parameter of a function. -/
structure Parameter where
  /-- The name. -/
  name : Ident
  /-- The type. -/
  type : TypeMark

namespace Parameter

/-- The text of a parameter's type after its mode, which can only be `in`. -/
def afterMode? (t : Text) : Option Text :=
  match (firstWord? t).bind Mode.read with
  | some .input => afterWord? "in".toList t
  | some _ => none
  | none => some t

/-- Reads a parameter. -/
def read (room : Nat) (t : Text) : Option Parameter := do
  let t := (afterWord? "constant".toList t).getD t
  let (name, rest) ← splitOnce ':' t
  let type ← afterMode? (trimStart rest)
  let name ← Ident.ofText? (trim name)
  let type ← TypeMark.read room type
  some ⟨name, type⟩

/-- The canonical text. -/
def text (p : Parameter) : Text :=
  p.name.text ++ ": ".toList ++ p.type.text

/-- Equality up to the case of identifiers. -/
def same (p q : Parameter) : Bool :=
  p.name.same q.name && p.type.same q.type

/-- Equality of lists up to the case of identifiers. -/
def sameAll : List Parameter → List Parameter → Bool
  | [], [] => true
  | p :: ps, q :: qs => p.same q && sameAll ps qs
  | _, _ => false

end Parameter

/-- The signature of a function. -/
structure Signature where
  /-- The name. -/
  name : Ident
  /-- The parameters in order. -/
  parameters : List Parameter
  /-- The type of the result. -/
  result : TypeMark

namespace Signature

/-- A signature, no two parameters of which have the same name. -/
def ofParameters? (name : Ident) (parameters : List Parameter) (result : TypeMark) :
    Option Signature :=
  if Ident.distinct (parameters.map (·.name)) then some ⟨name, parameters, result⟩ else none

/-- The parameters in parentheses that a text may start with, and the rest. -/
def splitParameters? (room : Nat) (t : Text) : Option (List Parameter × Text) :=
  if t.head? == some '(' then do
    let (inner, rest) ← parenthesised? t
    let parameters ← (splitOuter ';' inner).mapM (Parameter.read room)
    some (parameters, rest)
  else some ([], t)

/-- Reads a signature without what ends it. -/
def readOpen (room : Nat) (t : Text) : Option Signature := do
  let rest ← afterWord? "function".toList t
  let isEnd (c : Char) := isBlank c || c == '('
  let name ← Ident.ofText? (rest.takeWhile (!isEnd ·))
  let (parameters, rest) ← splitParameters? room (trimStart (rest.dropWhile (!isEnd ·)))
  let result ← afterWord? "return".toList rest
  let result ← TypeMark.read room result
  ofParameters? name parameters result

/-- Reads a signature with its semicolon, comments aside. -/
def read (room : Nat) (t : Text) : Option Signature :=
  let t := trim (withoutComments t)
  if !fits Limits.statementBytes t then none
  else (dropFinal? ';' t).bind fun body => readOpen room (trimEnd body)

/-- The canonical text without the semicolon. -/
def openText (s : Signature) : Text :=
  "function ".toList ++ s.name.text
    ++ (if s.parameters.isEmpty then []
      else '(' :: (join "; ".toList (s.parameters.map (·.text)) ++ [')']))
    ++ " return ".toList ++ s.result.text

/-- The canonical text. -/
def text (s : Signature) : Text :=
  s.openText ++ [';']

/-- Equality up to the case of identifiers. -/
def same (s t : Signature) : Bool :=
  s.name.same t.name && Parameter.sameAll s.parameters t.parameters && s.result.same t.result

end Signature

/-- A function with its body. -/
structure FunctionBody where
  /-- The signature. -/
  signature : Signature
  /-- The declarations and comment lines before `begin`. -/
  declarations : List Statement
  /-- The sequential body. -/
  body : Sequential

namespace FunctionBody

/-- Reads a function with its body, which uses up one level of room. -/
def read (room : Nat) (t : Text) : Option FunctionBody :=
  let t := trim t
  if !fits Limits.blockBytes t || !isConstruct t then none
  else
    match room with
    | 0 => none
    | room + 1 => do
      let (header, rest) ← cutOuter? "is".toList t
      let signature ← Signature.readOpen room (trim (withoutComments header))
      let inner ← beforeEnd? ["function".toList] false (some signature.name.text) rest
      let (declarations, body) ← cutClause? "begin".toList inner
      let declarations ← Statement.readDeclarations room declarations
      let body ← Sequential.read room body
      some ⟨signature, declarations, body⟩

/-- The canonical text. -/
def text (f : FunctionBody) : Text :=
  f.signature.openText ++ " is".toList ++ nested (join ['\n'] (f.declarations.map (·.text)))
    ++ "\nbegin".toList ++ nested f.body.text ++ "\nend function ".toList
    ++ f.signature.name.text ++ [';']

/-- Equality up to the case of identifiers. -/
def same (f g : FunctionBody) : Bool :=
  f.signature.same g.signature && Statement.sameAll f.declarations g.declarations
    && f.body.same g.body

end FunctionBody
end CanonicalVhdl
