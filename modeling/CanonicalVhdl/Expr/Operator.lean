import CanonicalVhdl.Text.Word

/-!
# Operators and the names with a meaning of their own

The binary operators in four tiers, the type conversions and the clock edges.

## Main definitions

* `ArithOp`, `RelOp`, `LogicOp` — the operators; `symbol` writes them.
* `BinaryOp` — any of them, with its `tier`; a looser tier has a lower number.
* `Conversion`, `Edge` — the names whose calls are no function calls.
-/

namespace CanonicalVhdl

/-- An arithmetic operator, or concatenation. -/
inductive ArithOp where
  | add | sub | concat | mul | div | mod | rem
deriving DecidableEq, Repr

namespace ArithOp

/-- Every operator. -/
def all : List ArithOp := [add, sub, concat, mul, div, mod, rem]

/-- The operator as written. -/
def symbol : ArithOp → String
  | add => "+"
  | sub => "-"
  | concat => "&"
  | mul => "*"
  | div => "/"
  | mod => "mod"
  | rem => "rem"

/-- The name in the JSON form of trees. -/
def label : ArithOp → String
  | add => "Add"
  | sub => "Sub"
  | concat => "Concat"
  | mul => "Mul"
  | div => "Div"
  | mod => "Mod"
  | rem => "Rem"

/-- Whether the operator binds as tightly as multiplication. -/
def isMultiplicative : ArithOp → Bool
  | mul | div | mod | rem => true
  | add | sub | concat => false

end ArithOp

/-- A relation. -/
inductive RelOp where
  | eq | ne | lt | le | gt | ge
deriving DecidableEq, Repr

namespace RelOp

/-- Every relation. -/
def all : List RelOp := [eq, ne, lt, le, gt, ge]

/-- The relation as written. -/
def symbol : RelOp → String
  | eq => "="
  | ne => "/="
  | lt => "<"
  | le => "<="
  | gt => ">"
  | ge => ">="

/-- The name in the JSON form of trees. -/
def label : RelOp → String
  | eq => "Eq"
  | ne => "Ne"
  | lt => "Lt"
  | le => "Le"
  | gt => "Gt"
  | ge => "Ge"

end RelOp

/-- A binary logical operator. -/
inductive LogicOp where
  | and | or | nand | nor | xor | xnor
deriving DecidableEq, Repr

namespace LogicOp

/-- Every operator. -/
def all : List LogicOp := [and, or, nand, nor, xor, xnor]

/-- The operator as written. -/
def symbol : LogicOp → String
  | and => "and"
  | or => "or"
  | nand => "nand"
  | nor => "nor"
  | xor => "xor"
  | xnor => "xnor"

/-- The name in the JSON form of trees. -/
def label : LogicOp → String
  | and => "And"
  | or => "Or"
  | nand => "Nand"
  | nor => "Nor"
  | xor => "Xor"
  | xnor => "Xnor"

end LogicOp

/-- A binary operator. -/
inductive BinaryOp where
  /-- Logical. -/
  | logic (op : LogicOp)
  /-- A relation. -/
  | rel (op : RelOp)
  /-- Arithmetic or concatenation. -/
  | arith (op : ArithOp)
deriving DecidableEq, Repr

namespace BinaryOp

/-- The tier of an operator; an operator of a lower tier binds looser. -/
def tier : BinaryOp → Nat
  | logic _ => 1
  | rel _ => 2
  | arith op => if op.isMultiplicative then 4 else 3

/-- Whether the operator is a relation. -/
def isRel : BinaryOp → Bool
  | rel _ => true
  | logic _ | arith _ => false

/-- The operators that are written as words. -/
def words : List (String × BinaryOp) :=
  LogicOp.all.map (fun op => (op.symbol, logic op))
    ++ [ArithOp.mod, ArithOp.rem].map fun op => (op.symbol, arith op)

/-- The operator that a word stands for, in either case. -/
def ofWord? (word : Text) : Option BinaryOp :=
  (words.find? fun (symbol, _) => Text.sameWord word symbol.toList).map (·.2)

end BinaryOp

/-! ## Conversions and edges -/

/-- The target of a type conversion. -/
inductive Conversion where
  | stdLogicVector | stdULogicVector | bitVector | signed | unsigned | integer | real | toInteger
deriving DecidableEq, Repr

namespace Conversion

/-- Every conversion. -/
def all : List Conversion :=
  [stdLogicVector, stdULogicVector, bitVector, signed, unsigned, integer, real, toInteger]

/-- The conversion's name as written. -/
def name : Conversion → String
  | stdLogicVector => "std_logic_vector"
  | stdULogicVector => "std_ulogic_vector"
  | bitVector => "bit_vector"
  | signed => "signed"
  | unsigned => "unsigned"
  | integer => "integer"
  | real => "real"
  | toInteger => "to_integer"

/-- The name in the JSON form of trees. -/
def label : Conversion → String
  | stdLogicVector => "StdLogicVector"
  | stdULogicVector => "StdULogicVector"
  | bitVector => "BitVector"
  | signed => "Signed"
  | unsigned => "Unsigned"
  | integer => "Integer"
  | real => "Real"
  | toInteger => "ToInteger"

/-- The conversion of a given name, in either case. -/
def ofName? (name : Text) : Option Conversion :=
  all.find? fun c => Text.sameWord name c.name.toList

end Conversion

/-- The clock transition that an edge test detects. -/
inductive Edge where
  | rising | falling
deriving DecidableEq, Repr

namespace Edge

/-- Every transition. -/
def all : List Edge := [rising, falling]

/-- The name of the edge test. -/
def name : Edge → String
  | rising => "rising_edge"
  | falling => "falling_edge"

/-- The name in the JSON form of trees. -/
def label : Edge → String
  | rising => "Rising"
  | falling => "Falling"

/-- The edge test of a given name, in either case. -/
def ofName? (name : Text) : Option Edge :=
  all.find? fun e => Text.sameWord name e.name.toList

end Edge
end CanonicalVhdl
