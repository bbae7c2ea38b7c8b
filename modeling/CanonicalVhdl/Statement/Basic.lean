import CanonicalVhdl.Object.Basic
import CanonicalVhdl.Text.Piece

/-!
# Simple sequential statements

## Main definitions

* `Statement` — declarations, assignments, `null`, `return` and comment lines.
* `Statement.read`, `Statement.text` — reading and writing.
* `Statement.readDeclarations` — a declarative part with objects and comments only.
* `labelled?` — a text without its leading label.
-/

namespace CanonicalVhdl

open Text

/-- What is assigned to. -/
inductive AssignmentKind where
  | signal | var
deriving DecidableEq, Repr

namespace AssignmentKind

/-- Every kind. -/
def all : List AssignmentKind := [signal, var]

/-- The mark of the assignment. -/
def symbol : AssignmentKind → String
  | signal => "<="
  | var => ":="

/-- The name in the JSON form of trees. -/
def label : AssignmentKind → String
  | signal => "Signal"
  | var => "Variable"

end AssignmentKind

/-- A simple sequential statement. -/
inductive Statement where
  /-- A declaration of an object. -/
  | declaration (d : ObjectDecl)
  /-- An assignment. -/
  | assignment (target : Reference) (kind : AssignmentKind) (value : Expr)
  /-- A comment line. -/
  | comment (c : Comment)
  /-- The statement that does nothing. -/
  | null
  /-- The end of a function, with its result. -/
  | result (value : Option Expr)

/-- The label before the first colon and the text after it; the colon of `:=`
does not count. -/
def labelled? (t : Text) : Option (Ident × Text) := do
  let (label, rest) ← splitOnce ':' (trimStart t)
  if rest.head? == some '=' then none
  else
    let label ← Ident.ofText? (trimEnd label)
    some (label, trimStart rest)

/-- The first mark of an assignment outside parentheses. -/
def firstAssignment? (t : Text) : Option (Nat × AssignmentKind) :=
  match outerMatch? "<=".toList t, outerMatch? ":=".toList t with
  | some i, some j => some (if i < j then (i, .signal) else (j, .var))
  | some i, none => some (i, .signal)
  | none, some j => some (j, .var)
  | none, none => none

namespace Statement

/-- Reads a statement without its semicolon. -/
def readBody (room : Nat) (body : Text) : Option Statement :=
  if sameWord body "null".toList then some null
  else
    match afterWord? "return".toList body with
    | some value =>
      if value.isEmpty then some (result none)
      else (Expr.read room value).map fun e => result (some e)
    | none => do
      let (i, kind) ← firstAssignment? body
      let target ← Reference.read room (body.take i)
      let value ← Expr.read room (body.drop (i + 2))
      some (assignment target kind value)

/-- Reads a statement: a comment line, a declaration, or one with a semicolon. -/
def read (room : Nat) (t : Text) : Option Statement :=
  let t := trim t
  if !fits Limits.statementBytes t then none
  else
    match Comment.read t with
    | some c => some (comment c)
    | none =>
      match ObjectDecl.read room t with
      | some d => some (declaration d)
      | none => do
        let code := withoutComments t
        if !isConstruct code then none
        else
          let body ← dropFinal? ';' code
          readBody room (trimEnd body)

/-- Reads a declarative part: declarations of objects and comment lines. -/
def readDeclarations (room : Nat) (t : Text) : Option (List Statement) := do
  let pieces ← pieces? t
  pieces.mapM fun
    | .comment c => (Comment.ofText? c).map comment
    | .code code trailer => (ObjectDecl.readWithTrailer room code trailer).map declaration

/-- The canonical text. -/
def text : Statement → Text
  | declaration d => d.text
  | assignment target kind value =>
    target.text ++ ' ' :: (kind.symbol.toList ++ ' ' :: (value.text ++ [';']))
  | comment c => c.line
  | null => "null;".toList
  | result none => "return;".toList
  | result (some value) => "return ".toList ++ value.text ++ [';']

/-- Equality up to the case of identifiers. -/
def same : Statement → Statement → Bool
  | declaration a, declaration b => a.same b
  | assignment t k v, assignment t' k' v' => t.same t' && k == k' && v.same v'
  | comment a, comment b => a == b
  | null, null => true
  | result a, result b => sameExpr? a b
  | _, _ => false

/-- Equality of lists up to the case of identifiers. -/
def sameAll : List Statement → List Statement → Bool
  | [], [] => true
  | a :: as, b :: bs => a.same b && sameAll as bs
  | _, _ => false

end Statement
end CanonicalVhdl
