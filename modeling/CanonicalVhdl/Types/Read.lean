import CanonicalVhdl.Expr.Read
import CanonicalVhdl.Types.Basic

/-!
# Reading types

## Main definitions

* `BuiltinType.read`, `TypeMark.read` — read a type, given the room for its bounds.
-/

namespace CanonicalVhdl

open Text

namespace BuiltinType

/-- Reads a type that is no plain scalar: the integers of a range, or a vector
with its range in parentheses that end the text. -/
def readConstrained (room : Nat) (t : Text) : Option BuiltinType :=
  match afterWord? "integer".toList t with
  | some rest => do
    let range ← afterWord? "range".toList rest
    (Range.read room range).map integerRange
  | none => do
    let name := t.takeWhile (· != '(')
    let kind ← VectorType.ofName? (trimEnd name)
    let (inner, after) ← parenthesised? (t.drop name.length)
    if after.isEmpty then (Range.read room inner).map (vector kind) else none

/-- Reads a built-in type, comments aside. -/
def read (room : Nat) (t : Text) : Option BuiltinType :=
  let t := trim (withoutComments t)
  if !fits Limits.expressionBytes t then none
  else
    match ScalarType.ofName? t with
    | some kind => some (scalar kind)
    | none => readConstrained room t

end BuiltinType

/-- Reads a type: a built-in one, or a name. -/
def TypeMark.read (room : Nat) (t : Text) : Option TypeMark :=
  match BuiltinType.read room t with
  | some type => some (.builtin type)
  | none => (Ident.ofText? (trim t)).map .named

end CanonicalVhdl
