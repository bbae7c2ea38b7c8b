import CanonicalVhdl.Expr.Operator
import CanonicalVhdl.Lexical.Digit
import CanonicalVhdl.Lexical.Ident
import CanonicalVhdl.Lexical.Logic
import CanonicalVhdl.Number.Real

/-!
# Expressions

Expressions, the literals and references that are their leaves, and the ranges
and indices that occur inside both.  All of them refer to one another, so they are
declared together.

## Main definitions

* `Expr`, `Argument` — expressions and the arguments of calls.
* `Reference` — a name that denotes an object or part of one.
* `Range`, `Index` — discrete ranges, and choices of positions.
* `Literal`, `VectorLiteral`, `Element` — literals.
* `Expr.same` and its companions — equality up to the case of identifiers.
-/

namespace CanonicalVhdl

mutual

/-- An expression. -/
inductive Expr where
  /-- A reference to an object. -/
  | reference (r : Reference)
  /-- A literal value. -/
  | literal (l : Literal)
  /-- An arithmetic operation or a concatenation. -/
  | arith (lhs : Expr) (op : ArithOp) (rhs : Expr)
  /-- An expression in parentheses. -/
  | group (inner : Expr)
  /-- A comparison. -/
  | compare (lhs : Expr) (op : RelOp) (rhs : Expr)
  /-- A test for a clock edge. -/
  | edge (kind : Edge) (signal : Reference)
  /-- A logical negation. -/
  | negation (operand : Expr)
  /-- A binary logical operation. -/
  | logic (lhs : Expr) (op : LogicOp) (rhs : Expr)
  /-- A type conversion. -/
  | convert (kind : Conversion) (value : Expr)
  /-- A function call. -/
  | call (name : Ident) (arguments : List Argument)

/-- An argument of a call, with the name of the parameter or without. -/
inductive Argument where
  | mk (parameter : Option Ident) (value : Expr)

/-- A reference to an object or to part of one. -/
inductive Reference where
  /-- A plain name. -/
  | name (name : Ident)
  /-- A member of a record. -/
  | member (record : Ident) (member : Ident)
  /-- An element or a slice of an array. -/
  | indexed (name : Ident) (index : Index)
  /-- An attribute of an object. -/
  | attributeOf (object : Ident) (designator : Text)

/-- A choice of positions of an array. -/
inductive Index where
  /-- One position. -/
  | position (value : Expr)
  /-- A slice. -/
  | slice (range : Range)
  /-- Every position that is not named otherwise. -/
  | others

/-- A discrete range. -/
inductive Range where
  /-- From the low end up to the high end. -/
  | ascending (low high : Expr)
  /-- From the high end down to the low end. -/
  | descending (high low : Expr)

/-- A literal. -/
inductive Literal where
  /-- A two-state value. -/
  | bit (value : Bit)
  /-- A truth value. -/
  | boolean (value : Bool)
  /-- A real number. -/
  | real (value : Real64)
  /-- An integer. -/
  | integer (value : Integer64)
  /-- A nine-state value. -/
  | logic (value : Logic)
  /-- A vector. -/
  | vector (value : VectorLiteral)

/-- A vector literal. -/
inductive VectorLiteral where
  /-- Two-state values. -/
  | bits (values : List Bit)
  /-- Nine-state values. -/
  | logics (values : List Logic)
  /-- Hexadecimal digits. -/
  | hexadecimal (digits : List HexDigit)
  /-- Octal digits. -/
  | octal (digits : List OctalDigit)
  /-- An aggregate. -/
  | aggregate (elements : List Element)

/-- An element of an aggregate: positions and the value they receive. -/
inductive Element where
  | mk (index : Index) (value : Literal)

end

namespace Range

/-- The low end. -/
def low : Range → Expr
  | .ascending low _ => low
  | .descending _ low => low

/-- The high end. -/
def high : Range → Expr
  | .ascending _ high => high
  | .descending high _ => high

end Range

namespace Expr

/-- The value of an integer literal. -/
def integer? : Expr → Option Integer64
  | literal (.integer n) => some n
  | _ => none

/-- The expression that joins two operands with an operator. -/
def binary (lhs : Expr) (op : BinaryOp) (rhs : Expr) : Expr :=
  match op with
  | .logic op => logic lhs op rhs
  | .rel op => compare lhs op rhs
  | .arith op => arith lhs op rhs

/-- Whether the expression is an arithmetic operation or a concatenation. -/
def isArith : Expr → Bool
  | arith .. => true
  | _ => false

/-- Whether the expression is a comparison or a test for a clock edge. -/
def isCondition : Expr → Bool
  | compare .. | edge .. => true
  | _ => false

/-- Whether the expression is a logical operation. -/
def isLogical : Expr → Bool
  | negation .. | logic .. => true
  | _ => false

/-- Whether the expression is a type conversion. -/
def isConversion : Expr → Bool
  | convert .. => true
  | _ => false

/-- Whether the expression is a function call. -/
def isCall : Expr → Bool
  | call .. => true
  | _ => false

end Expr

namespace Reference

/-- The object that is referred to, whole or in part. -/
def base : Reference → Ident
  | name n => n
  | member n _ => n
  | indexed n _ => n
  | attributeOf n _ => n

end Reference

namespace VectorLiteral

/-- The number of bits, when the literal fixes it. -/
def size? : VectorLiteral → Option Nat
  | bits values => some values.length
  | logics values => some values.length
  | hexadecimal digits => some (4 * digits.length)
  | octal digits => some (3 * digits.length)
  | aggregate _ => none

/-- Whether every element has a two-state value. -/
def isBitsOnly : VectorLiteral → Bool
  | logics _ => false
  | aggregate elements =>
    elements.all fun
      | .mk _ (.bit _) => true
      | _ => false
  | _ => true

end VectorLiteral

/-- The number of positions of a range whose ends are integer literals; a range
that counts the wrong way has none.  A size takes at most 64 bits. -/
def Range.size? (r : Range) : Option Nat := do
  let low ← r.low.integer?
  let high ← r.high.integer?
  let size := (high.val - low.val + 1).toNat
  if size < Nat.pow 2 64 then some size else none

/-! ## Equality up to the case of identifiers -/

/-- Equality of optional identifiers. -/
def sameIdent? : Option Ident → Option Ident → Bool
  | none, none => true
  | some a, some b => a.same b
  | _, _ => false

mutual

/-- Equality of expressions. -/
def Expr.same : Expr → Expr → Bool
  | .reference a, .reference b => a.same b
  | .literal a, .literal b => a.same b
  | .arith a op b, .arith c op' d => a.same c && op == op' && b.same d
  | .group a, .group b => a.same b
  | .compare a op b, .compare c op' d => a.same c && op == op' && b.same d
  | .edge kind a, .edge kind' b => kind == kind' && a.same b
  | .negation a, .negation b => a.same b
  | .logic a op b, .logic c op' d => a.same c && op == op' && b.same d
  | .convert kind a, .convert kind' b => kind == kind' && a.same b
  | .call name as, .call name' bs => name.same name' && Argument.sameAll as bs
  | _, _ => false
termination_by structural x _ => x

/-- Equality of arguments. -/
def Argument.same : Argument → Argument → Bool
  | .mk p a, .mk q b => sameIdent? p q && a.same b
termination_by structural x _ => x

/-- Equality of argument lists. -/
def Argument.sameAll : List Argument → List Argument → Bool
  | [], [] => true
  | a :: as, b :: bs => a.same b && Argument.sameAll as bs
  | _, _ => false
termination_by structural x _ => x

/-- Equality of references. -/
def Reference.same : Reference → Reference → Bool
  | .name a, .name b => a.same b
  | .member a m, .member b n => a.same b && m.same n
  | .indexed a i, .indexed b j => a.same b && i.same j
  | .attributeOf a d, .attributeOf b e => a.same b && d == e
  | _, _ => false
termination_by structural x _ => x

/-- Equality of indices. -/
def Index.same : Index → Index → Bool
  | .position a, .position b => a.same b
  | .slice r, .slice s => r.same s
  | .others, .others => true
  | _, _ => false
termination_by structural x _ => x

/-- Equality of ranges. -/
def Range.same : Range → Range → Bool
  | .ascending a b, .ascending c d => a.same c && b.same d
  | .descending a b, .descending c d => a.same c && b.same d
  | _, _ => false
termination_by structural x _ => x

/-- Equality of literals; real numbers are compared by value. -/
def Literal.same : Literal → Literal → Bool
  | .bit a, .bit b => a == b
  | .boolean a, .boolean b => a == b
  | .real a, .real b => a.same b
  | .integer a, .integer b => a == b
  | .logic a, .logic b => a == b
  | .vector a, .vector b => a.same b
  | _, _ => false
termination_by structural x _ => x

/-- Equality of vector literals. -/
def VectorLiteral.same : VectorLiteral → VectorLiteral → Bool
  | .bits as, .bits bs => as == bs
  | .logics as, .logics bs => as == bs
  | .hexadecimal as, .hexadecimal bs => as == bs
  | .octal as, .octal bs => as == bs
  | .aggregate as, .aggregate bs => Element.sameAll as bs
  | _, _ => false
termination_by structural x _ => x

/-- Equality of elements. -/
def Element.same : Element → Element → Bool
  | .mk i a, .mk j b => i.same j && a.same b
termination_by structural x _ => x

/-- Equality of lists of elements. -/
def Element.sameAll : List Element → List Element → Bool
  | [], [] => true
  | a :: as, b :: bs => a.same b && Element.sameAll as bs
  | _, _ => false
termination_by structural x _ => x

end

end CanonicalVhdl
