import CanonicalVhdl.Expr.Basic
import CanonicalVhdl.Limits
import CanonicalVhdl.Text.Comments

/-!
# Reading expressions

An expression is read by its shape.  In this order it is a literal; a call that
takes up the whole text; a binary operation, cut at the last operator of the
loosest tier present, so that chains associate to the left; or a group, a negation
or a reference.  Relations do not chain, and only numbers carry a sign.

Each expression inside another one uses up one level of the reader's room.

## Main definitions

* `Expr.read room t` — reads an expression, comments aside.
* `Literal.readWith`, `Reference.readWith`, `Range.readWith`, `Index.readWith` — the
  other readers, given one for the expressions inside.
* `Operator.scan` — the binary operators that stand outside parentheses.
-/

namespace CanonicalVhdl

open Text

/-! ## Numbers -/

/-- The digits of a group of digits with single underscores between them. -/
def digitGroup? (t : Text) : Option Text :=
  if t.all (fun c => c.isDigit || c == '_') && t.head?.any Char.isDigit
      && t.getLast?.any Char.isDigit && !hasDoubleUnderscore t then
    some (t.filter (· != '_'))
  else none

/-- A text without its leading minus sign, and whether it had one. -/
def splitSign : Text → Bool × Text
  | '-' :: rest => (true, rest)
  | t => (false, t)

namespace Integer64

/-- Reads an integer: a group of digits, perhaps after a minus sign. -/
def read (t : Text) : Option Integer64 := do
  let (negative, magnitude) := splitSign t
  let value := digitsValue (← digitGroup? magnitude)
  ofInt? (if negative then -(value : Int) else value)

end Integer64

namespace Real64

/-- Reads the exponent of a real number, after the letter. -/
def readExponent : Text → Option Int
  | '+' :: rest => (digitGroup? rest).map fun digits => (digitsValue digits : Int)
  | '-' :: rest => (digitGroup? rest).map fun digits => -(digitsValue digits : Int)
  | t => (digitGroup? t).map fun digits => (digitsValue digits : Int)

/-- Reads a real number: a minus sign or none, digits, a point, digits, and an
exponent or none.  A number too large for double precision is refused. -/
def read (t : Text) : Option Real64 := do
  let (negative, magnitude) := splitSign t
  let isMark (c : Char) := c == 'e' || c == 'E'
  let exponent ←
    match magnitude.dropWhile (!isMark ·) with
    | [] => some 0
    | _ :: exponent => readExponent exponent
  let (whole, fraction) ← splitOnce '.' (magnitude.takeWhile (!isMark ·))
  let whole ← digitGroup? whole
  let fraction ← digitGroup? fraction
  ofDecimal? negative (digitsValue (whole ++ fraction)) (exponent - fraction.length)

end Real64

/-! ## Ranges and indices -/

namespace Range

/-- Reads a range.  It has exactly one `downto` outside parentheses, or none and
exactly one `to`. -/
def readWith (expr : Text → Option Expr) (t : Text) : Option Range :=
  let t := trim t
  if !fits Limits.expressionBytes t then none
  else
    match outerMatches "downto".toList t with
    | [i] => do
      let high ← expr (t.take i)
      let low ← expr (t.drop (i + 6))
      some (.descending high low)
    | [] =>
      match outerMatches "to".toList t with
      | [i] => do
        let low ← expr (t.take i)
        let high ← expr (t.drop (i + 2))
        some (.ascending low high)
      | _ => none
    | _ => none

end Range

namespace Index

/-- Reads an index: `others`, a range, or an expression. -/
def readWith (expr : Text → Option Expr) (t : Text) : Option Index :=
  let t := trim t
  if sameWord t "others".toList then some .others
  else
    match Range.readWith expr t with
    | some range => some (.slice range)
    | none => (expr t).map .position

end Index

/-! ## Literals -/

namespace VectorLiteral

/-- The body of a quoted string with doubled quotation marks undone; the text
given starts after the opening mark. -/
def quotedBody? : Text → Option Text
  | ['"'] => some []
  | '"' :: '"' :: rest => (quotedBody? rest).map ('"' :: ·)
  | c :: rest => if c == '"' || c == '\n' then none else (quotedBody? rest).map (c :: ·)
  | [] => none

/-- The characters of a bit string's body with single underscores taken out. -/
def bitStringDigits? (body : Text) : Option Text :=
  if body.head? == some '_' || body.getLast? == some '_' || hasDoubleUnderscore body then none
  else some (body.filter (· != '_'))

/-- The digits of a bit string, all of which must be of the given kind. -/
def digitsWith {α : Type} (digit? : Char → Option α) (body : Text) : Option (List α) :=
  (bitStringDigits? body).bind fun digits => digits.mapM digit?

/-- Reads a bit string with a base specifier in lower case. -/
def readBased (base : Char) (body : Text) : Option VectorLiteral :=
  if base == 'x' then (digitsWith HexDigit.ofChar? body).map .hexadecimal
  else if base == 'o' then (digitsWith OctalDigit.ofChar? body).map .octal
  else if base == 'b' then (digitsWith Bit.ofChar? body).map .bits
  else none

/-- Reads a string of values: two-state values if they all are, else nine-state. -/
def readValues (body : Text) : Option VectorLiteral :=
  match body.mapM Bit.ofChar? with
  | some values => some (.bits values)
  | none => (body.mapM Logic.ofChar?).map .logics

/-- Reads an element of an aggregate. -/
def readElement (expr : Text → Option Expr) (literal : Text → Option Literal) (t : Text) :
    Option Element := do
  let (index, value) ← cutOuter? "=>".toList t
  let index ← Index.readWith expr index
  let value ← literal value
  some (.mk index value)

/-- Reads an aggregate: elements between parentheses that take up the whole text. -/
def readAggregate (expr : Text → Option Expr) (literal : Text → Option Literal) (t : Text) :
    Option (List Element) := do
  let (inner, after) ← parenthesised? t
  if !after.isEmpty || (outerMatch? "=>".toList inner).isNone then none
  else (splitOuter ',' inner).mapM (readElement expr literal)

/-- Reads a vector literal, given readers for the expressions and literals inside. -/
def readWith (expr : Text → Option Expr) (literal : Text → Option Literal) (t : Text) :
    Option VectorLiteral :=
  let t := trim t
  if !fits Limits.literalBytes t then none
  else
    match t with
    | '(' :: _ => (readAggregate expr literal t).map .aggregate
    | '"' :: rest => (quotedBody? rest).bind readValues
    | base :: '"' :: rest =>
      if base.toNat < 128 then (quotedBody? rest).bind (readBased base.toLower) else none
    | _ => none

end VectorLiteral

namespace Literal

/-- Reads a literal between ticks: a two-state value if it is one, else nine-state. -/
def readTicked (c : Char) : Option Literal :=
  match Bit.ofChar? c with
  | some value => some (.bit value)
  | none => (Logic.ofChar? c).map .logic

/-- Reads a literal that is not between ticks. -/
def readPlain (expr : Text → Option Expr) (literal : Text → Option Literal) (t : Text) :
    Option Literal :=
  if sameWord t "true".toList then some (.boolean true)
  else if sameWord t "false".toList then some (.boolean false)
  else
    match Integer64.read t with
    | some n => some (.integer n)
    | none =>
      if t.contains '.' then (Real64.read t).map .real
      else (VectorLiteral.readWith expr literal t).map .vector

/-- Reads a literal.  The natural number bounds how deep aggregates are nested. -/
def readNested (expr : Text → Option Expr) : Nat → Text → Option Literal
  | 0, _ => none
  | fuel + 1, t =>
    let t := trim t
    if t.isEmpty || !fits Limits.literalBytes t then none
    else
      match t with
      | ['\'', c, '\''] => readTicked c
      | _ => readPlain expr (readNested expr fuel) t

/-- Reads a literal, given a reader for the expressions inside. -/
def readWith (expr : Text → Option Expr) (t : Text) : Option Literal :=
  readNested expr (t.length + 1) t

end Literal

/-- Reads a vector literal, given a reader for the expressions inside. -/
def VectorLiteral.readWhole (expr : Text → Option Expr) (t : Text) : Option VectorLiteral :=
  VectorLiteral.readWith expr (Literal.readWith expr) t

/-! ## References -/

namespace Reference

/-- Reads an attribute designator, which is kept in lower case. -/
def readDesignator (t : Text) : Option Text :=
  if t.head?.any Char.isAlpha && t.all isIdentChar then some (fold t) else none

/-- Reads a name with an index in parentheses that end the text. -/
def readIndexed (expr : Text → Option Expr) (t : Text) : Option Reference := do
  let name := t.takeWhile (· != '(')
  let (start, stop) ← balancedSpan? '(' ')' t
  if start != name.length || stop != t.length then none
  else
    let name ← Ident.ofText? (trimEnd name)
    let index ← Index.readWith expr ((t.take (stop - 1)).drop (start + 1))
    some (.indexed name index)

/-- Reads a reference, given a reader for the expressions inside. -/
def readWith (expr : Text → Option Expr) (t : Text) : Option Reference :=
  let t := trim t
  match Ident.ofText? t with
  | some n => some (.name n)
  | none =>
    if t.getLast? == some ')' then
      if t.contains '(' then readIndexed expr t else none
    else
      match splitOnce '.' t with
      | some (record, field) => do
        let record ← Ident.ofText? (trim record)
        let field ← Ident.ofText? (trim field)
        some (.member record field)
      | none => do
        let (object, designator) ← splitOnce '\'' t
        let object ← Ident.ofText? (trimEnd object)
        let designator ← readDesignator designator
        some (.attributeOf object designator)

end Reference

/-! ## Operators -/

/-- An operator and the positions it takes up. -/
structure Operator where
  /-- Number of characters before the operator. -/
  start : Nat
  /-- Number of characters before what follows the operator. -/
  stop : Nat
  /-- The operator. -/
  op : BinaryOp
deriving DecidableEq, Repr

namespace Operator

/-- The operator that symbols at the head of a text form, and its length.  A sign
is an operator only after an operand. -/
def symbol? (operand : Bool) : Text → Option (BinaryOp × Nat)
  | '/' :: '=' :: _ => some (.rel .ne, 2)
  | '<' :: '=' :: _ => some (.rel .le, 2)
  | '>' :: '=' :: _ => some (.rel .ge, 2)
  | '<' :: _ => some (.rel .lt, 1)
  | '>' :: _ => some (.rel .gt, 1)
  | '=' :: _ => some (.rel .eq, 1)
  | '*' :: _ => some (.arith .mul, 1)
  | '/' :: _ => some (.arith .div, 1)
  | '&' :: _ => some (.arith .concat, 1)
  | '+' :: _ => if operand then some (.arith .add, 1) else none
  | '-' :: _ => if operand then some (.arith .sub, 1) else none
  | _ => none

/-- The length of a number, on top of `n`: letters, digits, underscores and
points, and the sign of an exponent that a digit follows.  `mark` tells whether
the last character was the letter of an exponent. -/
def numberLength (n : Nat) (mark : Bool) : Text → Nat
  | [] => n
  | c :: rest =>
    if isIdentChar c || c == '.' then numberLength (n + 1) (c == 'e' || c == 'E') rest
    else if mark && (c == '+' || c == '-') && rest.head?.any Char.isDigit then
      numberLength (n + 1) false rest
    else n

/-- Collects the operators from some place on, newest first in `found`.  `depth`
counts open parentheses, `operand` tells whether an operand has just ended, and
`skip` characters belong to something that began earlier. -/
def scanFrom (found : List Operator) (depth : Nat) (operand : Bool) (skip position : Nat)
    (before : Option Char) : Text → Option (List Operator)
  | [] => if depth == 0 then some found.reverse else none
  | c :: rest =>
    match skip with
    | skip + 1 => scanFrom found depth operand skip (position + 1) (some c) rest
    | 0 =>
      let t := c :: rest
      match Lexeme.at before t with
      | .comment n => scanFrom found depth operand (n - 1) (position + 1) (some c) rest
      | .literal n => scanFrom found depth true (n - 1) (position + 1) (some c) rest
      | .code =>
        if depth != 0 then
          if c == '(' then scanFrom found (depth + 1) operand 0 (position + 1) (some c) rest
          else if c == ')' then
            scanFrom found (depth - 1) (depth == 1) 0 (position + 1) (some c) rest
          else scanFrom found depth operand 0 (position + 1) (some c) rest
        else if c == '(' then scanFrom found 1 operand 0 (position + 1) (some c) rest
        else if c == ')' then none
        else if c.isDigit then
          scanFrom found 0 true (numberLength 0 false t - 1) (position + 1) (some c) rest
        else if isIdentChar c then
          let word := t.takeWhile isIdentChar
          match BinaryOp.ofWord? word with
          | some op =>
            scanFrom (⟨position, position + word.length, op⟩ :: found) 0 false (word.length - 1)
              (position + 1) (some c) rest
          | none =>
            scanFrom found 0 (!sameWord word "not".toList) (word.length - 1) (position + 1)
              (some c) rest
        else if "=>".toList.isPrefixOf t || ":=".toList.isPrefixOf t then
          scanFrom found 0 false 1 (position + 1) (some c) rest
        else if "**".toList.isPrefixOf t then none
        else
          match symbol? operand t with
          | some (op, n) =>
            scanFrom (⟨position, position + n, op⟩ :: found) 0 false (n - 1) (position + 1)
              (some c) rest
          | none => scanFrom found 0 operand 0 (position + 1) (some c) rest

/-- The binary operators outside parentheses and literals, in order.  There are
none to be told when parentheses do not match or when `**` occurs. -/
def scan (t : Text) : Option (List Operator) :=
  scanFrom [] 0 false 0 0 none t

/-- The last operator of the loosest tier.  Two relations do not share a tier. -/
def pivot? (ops : List Operator) : Option Operator := do
  let loosest ← (ops.map (·.op.tier)).min?
  let tier := ops.filter (·.op.tier == loosest)
  let last ← tier.getLast?
  if last.op.isRel && 1 < tier.length then none else some last

end Operator

/-! ## Expressions -/

namespace Argument

/-- Reads an argument, given a reader for its value. -/
def readWith (expr : Text → Option Expr) (t : Text) : Option Argument :=
  match cutOuter? "=>".toList t with
  | some (parameter, value) => do
    let parameter ← Ident.ofText? (trim parameter)
    let value ← expr value
    some (.mk (some parameter) value)
  | none => (expr t).map (.mk none)

end Argument

namespace Expr

/-- The name and the interior of a call that takes up the whole text. -/
def callShape? (t : Text) : Option (Ident × Text) := do
  if t.getLast? != some ')' then none
  else
    let name := t.takeWhile (· != '(')
    let ident ← Ident.ofText? (trimEnd name)
    let (inner, after) ← parenthesised? (t.drop name.length)
    if after.isEmpty then some (ident, inner) else none

/-- A call with at least one argument. -/
def callOf? (name : Ident) (arguments : List Argument) : Option Expr :=
  if arguments.isEmpty then none else some (call name arguments)

/-- Reads what a name with an interior in parentheses denotes: a conversion, an
edge test, a function call, or a slice.  `code` reads an expression that is free
of comments, `expr` any expression. -/
def readCall (code expr : Text → Option Expr) (name : Ident) (inner : Text) : Option Expr :=
  let pieces := splitOuter ',' inner
  match Conversion.ofName? name.text with
  | some kind => if pieces.length == 1 then (code inner).map (convert kind) else none
  | none =>
    match Edge.ofName? name.text with
    | some kind =>
      if pieces.length == 1 then (Reference.readWith expr inner).map (edge kind) else none
    | none =>
      match pieces.mapM (Argument.readWith expr) with
      | some arguments => callOf? name arguments
      | none =>
        if pieces.length == 1 then
          match Index.readWith expr inner with
          | none | some (.position _) => none
          | some index => some (reference (.indexed name index))
        else none

/-- Reads an expression without a binary operator: a group, a negation or a
reference. -/
def readOperand (code expr : Text → Option Expr) (t : Text) : Option Expr :=
  if t.head? == some '(' then do
    let (inner, after) ← parenthesised? t
    if after.isEmpty then (code inner).map group else none
  else
    match afterWord? "not".toList t with
    | some operand => (code operand).map negation
    | none => (Reference.readWith expr t).map reference

/-- Reads a binary operation, cut at the given operator. -/
def readBinary (code : Text → Option Expr) (o : Operator) (t : Text) : Option Expr := do
  let lhs ← code (t.take o.start)
  let rhs ← code (t.drop o.stop)
  some (binary lhs o.op rhs)

/-- Reads a trimmed expression by its shape, given readers for those inside. -/
def readShape (code expr : Text → Option Expr) (t : Text) : Option Expr :=
  match Literal.readWith expr t with
  | some l => some (literal l)
  | none =>
    match callShape? t with
    | some (name, inner) => readCall code expr name inner
    | none =>
      match Operator.scan t with
      | none => none
      | some [] => readOperand code expr t
      | some ops => (Operator.pivot? ops).bind fun o => readBinary code o t

/-- Reads an expression whose comments are gone already; every level of nesting
uses up one of `room`. -/
def readCode : Nat → Text → Option Expr
  | 0, _ => none
  | room + 1, t =>
    let t := trim t
    if t.isEmpty || !fits Limits.expressionBytes t then none
    else readShape (readCode room) (fun u => readCode room (withoutComments u)) t

/-- Reads an expression. -/
def read (room : Nat) (t : Text) : Option Expr :=
  readCode room (withoutComments t)

end Expr

/-! ## Readers with a given room -/

/-- Reads a literal. -/
def Literal.read (room : Nat) (t : Text) : Option Literal :=
  Literal.readWith (Expr.read room) t

/-- Reads a vector literal. -/
def VectorLiteral.read (room : Nat) (t : Text) : Option VectorLiteral :=
  VectorLiteral.readWhole (Expr.read room) t

/-- Reads a reference. -/
def Reference.read (room : Nat) (t : Text) : Option Reference :=
  Reference.readWith (Expr.read room) t

/-- Reads a range. -/
def Range.read (room : Nat) (t : Text) : Option Range :=
  Range.readWith (Expr.read room) t

/-- Reads an index. -/
def Index.read (room : Nat) (t : Text) : Option Index :=
  Index.readWith (Expr.read room) t

/-- Reads an argument. -/
def Argument.read (room : Nat) (t : Text) : Option Argument :=
  Argument.readWith (Expr.read room) t

end CanonicalVhdl
