import CanonicalVhdl.Lexical.Reserved
import CanonicalVhdl.Text.Lexeme

/-!
# Identifiers

A basic identifier starts with an ASCII letter, goes on with letters, digits and
single underscores, does not end with an underscore, has at most 255 bytes and is
no reserved word.  Identifiers are compared without regard to case, but each keeps
the spelling it was written with.

## Main definitions

* `Ident` — a valid identifier; `Ident.ofText?` checks one.
* `Ident.key` — the form that comparison looks at; `Ident.same`, `Ident.cmp`.
* `Ident.distinct` — whether no two identifiers of a list are the same.
-/

namespace CanonicalVhdl

/-- The longest identifier, in bytes. -/
def maxIdentBytes : Nat := 255

/-- Whether two underscores stand side by side. -/
def hasDoubleUnderscore : Text → Bool
  | '_' :: '_' :: _ => true
  | _ :: rest => hasDoubleUnderscore rest
  | [] => false

/-- Whether a text is a basic identifier. -/
def isIdent (t : Text) : Bool :=
  t.head?.any Char.isAlpha && Text.fits maxIdentBytes t && t.all isIdentChar
    && !hasDoubleUnderscore t && t.getLast? != some '_' && !isReserved t

/-- A basic identifier. -/
structure Ident where
  /-- The identifier as it was written. -/
  text : Text
  /-- The text is a basic identifier. -/
  valid : isIdent text = true
deriving DecidableEq

namespace Ident

/-- Checks an identifier. -/
def ofText? (t : Text) : Option Ident :=
  if h : isIdent t then some ⟨t, h⟩ else none

/-- The lower-case form, which comparison looks at. -/
def key (i : Ident) : Text :=
  Text.fold i.text

/-- Whether two identifiers are equal up to case. -/
def same (a b : Ident) : Bool :=
  a.key == b.key

/-- Equality of lists of identifiers up to case. -/
def sameAll : List Ident → List Ident → Bool
  | [], [] => true
  | a :: as, b :: bs => a.same b && sameAll as bs
  | _, _ => false

/-- Whether a text names the identifier. -/
def isNamed (i : Ident) (t : Text) : Bool :=
  Text.sameWord i.text t

/-- The order of identifiers, by the characters of their keys. -/
def cmp (a b : Ident) : Ordering :=
  compare (a.key.map Char.toNat) (b.key.map Char.toNat)

/-- Whether no two identifiers are equal up to case. -/
def distinct : List Ident → Bool
  | [] => true
  | i :: is => !is.any (same i) && distinct is

/-- The message about a text that is no identifier. -/
def invalidMessage (t : Text) : Text :=
  "'".toList ++ t ++ "' is not a valid VHDL identifier".toList

end Ident
end CanonicalVhdl
