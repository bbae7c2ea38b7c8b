import CanonicalVhdl.Lexical.Comment
import CanonicalVhdl.Lexical.Ident

/-!
# Context clauses

The clauses `library name;` and `use prefix.name;`, the latter perhaps for all
names of a package.
-/

namespace CanonicalVhdl

open Text

/-- A context clause. -/
inductive ContextClause where
  /-- A library clause. -/
  | library (name : Ident)
  /-- A use clause: a selected name, and whether `all` follows it. -/
  | use (path : List Ident) (all : Bool)

namespace ContextClause

/-- Reads the selected name of a use clause.  It has at least two parts, `all`
included. -/
def readUse (t : Text) : Option ContextClause := do
  let segments := (splitOn '.' t).map trim
  let all := segments.getLast?.any fun s => sameWord s "all".toList
  let path ← (if all then segments.dropLast else segments).mapM Ident.ofText?
  if path.length < 2 && !(all && path.length == 1) then none else some (use path all)

/-- Reads a context clause, comments aside. -/
def read (t : Text) : Option ContextClause :=
  let t := trim (withoutComments t)
  if !fits Limits.statementBytes t then none
  else do
    let body := trimEnd (← dropFinal? ';' t)
    match afterWord? "library".toList body with
    | some name => (Ident.ofText? name).map library
    | none => (afterWord? "use".toList body).bind readUse

/-- The canonical text. -/
def text : ContextClause → Text
  | library name => "library ".toList ++ name.text ++ [';']
  | use path all =>
    "use ".toList ++ join ['.'] (path.map (·.text) ++ if all then ["all".toList] else []) ++ [';']

/-- Equality up to the case of identifiers. -/
def same : ContextClause → ContextClause → Bool
  | library a, library b => a.same b
  | use p a, use q b => Ident.sameAll p q && a == b
  | _, _ => false

/-- Equality of lists up to the case of identifiers. -/
def sameAll : List ContextClause → List ContextClause → Bool
  | [], [] => true
  | a :: as, b :: bs => a.same b && sameAll as bs
  | _, _ => false

end ContextClause
end CanonicalVhdl
