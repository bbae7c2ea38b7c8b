import CanonicalVhdl.Expr.Print

/-!
# Types of objects

The built-in types, user-defined types by name, and the modes of ports.

## Main definitions

* `BuiltinType` — scalar types, constrained vectors and constrained integers.
* `TypeMark` — the type of a declared object.
* `Mode` — the direction of a port.
* `Literal.fits` — whether a literal may be a value of a built-in type.
-/

namespace CanonicalVhdl

/-! ## Names with a fixed spelling -/

/-- A scalar type without a constraint. -/
inductive ScalarType where
  | bit | boolean | integer | natural | positive | real | stdLogic | stdULogic
deriving DecidableEq, Repr

namespace ScalarType

/-- Every scalar type. -/
def all : List ScalarType :=
  [bit, boolean, integer, natural, positive, real, stdLogic, stdULogic]

/-- The type as written. -/
def name : ScalarType → String
  | bit => "bit"
  | boolean => "boolean"
  | integer => "integer"
  | natural => "natural"
  | positive => "positive"
  | real => "real"
  | stdLogic => "std_logic"
  | stdULogic => "std_ulogic"

/-- The name in the JSON form of trees. -/
def label : ScalarType → String
  | bit => "Bit"
  | boolean => "Boolean"
  | integer => "Integer"
  | natural => "Natural"
  | positive => "Positive"
  | real => "Real"
  | stdLogic => "StdLogic"
  | stdULogic => "StdULogic"

/-- The type of a given name, in either case. -/
def ofName? (name : Text) : Option ScalarType :=
  all.find? fun t => Text.sameWord name t.name.toList

end ScalarType

/-- A vector type, its range aside. -/
inductive VectorType where
  | bitVector | stdLogicVector | stdULogicVector | signed | unsigned
deriving DecidableEq, Repr

namespace VectorType

/-- Every vector type. -/
def all : List VectorType := [bitVector, stdLogicVector, stdULogicVector, signed, unsigned]

/-- The type as written. -/
def name : VectorType → String
  | bitVector => "bit_vector"
  | stdLogicVector => "std_logic_vector"
  | stdULogicVector => "std_ulogic_vector"
  | signed => "signed"
  | unsigned => "unsigned"

/-- The name in the JSON form of trees. -/
def label : VectorType → String
  | bitVector => "BitVector"
  | stdLogicVector => "StdLogicVector"
  | stdULogicVector => "StdULogicVector"
  | signed => "Signed"
  | unsigned => "Unsigned"

/-- The type of a given name, in either case. -/
def ofName? (name : Text) : Option VectorType :=
  all.find? fun t => Text.sameWord name t.name.toList

end VectorType

/-- The direction of a port or a parameter. -/
inductive Mode where
  | input | output | inout | buffer | linkage
deriving DecidableEq, Repr

namespace Mode

/-- Every mode. -/
def all : List Mode := [input, output, inout, buffer, linkage]

/-- The mode as written. -/
def name : Mode → String
  | input => "in"
  | output => "out"
  | inout => "inout"
  | buffer => "buffer"
  | linkage => "linkage"

/-- The name in the JSON form of trees. -/
def label : Mode → String
  | input => "In"
  | output => "Out"
  | inout => "InOut"
  | buffer => "Buffer"
  | linkage => "Linkage"

/-- The canonical text. -/
def text (m : Mode) : Text := m.name.toList

/-- Reads a mode, in either case. -/
def read (t : Text) : Option Mode :=
  all.find? fun m => Text.sameWord (Text.trim t) m.text

end Mode

/-! ## Types -/

/-- A built-in type. -/
inductive BuiltinType where
  /-- A scalar type. -/
  | scalar (kind : ScalarType)
  /-- A vector over a range. -/
  | vector (kind : VectorType) (range : Range)
  /-- The integers of a range. -/
  | integerRange (range : Range)

namespace BuiltinType

/-- The range of a constrained type. -/
def range? : BuiltinType → Option Range
  | scalar _ => none
  | vector _ range => some range
  | integerRange range => some range

/-- The index range of a vector type. -/
def vectorRange? : BuiltinType → Option Range
  | vector _ range => some range
  | scalar _ | integerRange _ => none

/-- The canonical text. -/
def text : BuiltinType → Text
  | scalar kind => kind.name.toList
  | vector kind range => kind.name.toList ++ '(' :: (range.text ++ [')'])
  | integerRange range => "integer range ".toList ++ range.text

/-- Equality up to the case of identifiers. -/
def same : BuiltinType → BuiltinType → Bool
  | scalar a, scalar b => a == b
  | vector a r, vector b s => a == b && r.same s
  | integerRange r, integerRange s => r.same s
  | _, _ => false

end BuiltinType

/-- The type of a declared object. -/
inductive TypeMark where
  /-- A built-in type. -/
  | builtin (type : BuiltinType)
  /-- A user-defined type. -/
  | named (name : Ident)

namespace TypeMark

/-- The built-in type, unless the type is user-defined. -/
def builtin? : TypeMark → Option BuiltinType
  | builtin type => some type
  | named _ => none

/-- The canonical text. -/
def text : TypeMark → Text
  | builtin type => type.text
  | named name => name.text

/-- Equality up to the case of identifiers. -/
def same : TypeMark → TypeMark → Bool
  | builtin a, builtin b => a.same b
  | named a, named b => a.same b
  | _, _ => false

end TypeMark

/-! ## Values of a type -/

/-- Whether an integer lies in a range, as far as the ends are integer literals. -/
def Range.admits (r : Range) (n : Integer64) : Bool :=
  match r.low.integer?, r.high.integer? with
  | some low, some high => low.val ≤ n.val && n.val ≤ high.val
  | _, _ => true

/-- Whether a vector literal may be a value of a vector type: two-state values
only in a `bit_vector`, and equal sizes where both are fixed. -/
def VectorLiteral.fits (v : VectorLiteral) (kind : VectorType) (range : Range) : Bool :=
  (kind != .bitVector || v.isBitsOnly) &&
    match v.size?, range.size? with
    | some actual, some expected => actual == expected
    | _, _ => true

/-- Whether a literal may be a value of a built-in type. -/
def Literal.fits : Literal → BuiltinType → Bool
  | .bit _, .scalar kind => kind == .bit || kind == .stdLogic || kind == .stdULogic
  | .logic _, .scalar kind => kind == .stdLogic || kind == .stdULogic
  | .boolean _, .scalar kind => kind == .boolean
  | .real _, .scalar kind => kind == .real
  | .integer n, .scalar kind =>
    kind == .integer || kind == .natural && 0 ≤ n.val || kind == .positive && 0 < n.val
  | .integer n, .integerRange range => range.admits n
  | .vector v, .vector kind range => v.fits kind range
  | _, _ => false

/-- Whether a value may be the default of an object: anything but a literal that
is no value of a built-in type. -/
def TypeMark.admits (type : TypeMark) (value : Expr) : Bool :=
  match type, value with
  | .builtin type, .literal literal => literal.fits type
  | _, _ => true

end CanonicalVhdl
