import CanonicalVhdl.Expr.Basic
import CanonicalVhdl.Number.Shortest

/-!
# The canonical text of expressions

One space on each side of a binary operator, after a comma and around `=>`; names
with a meaning of their own in lower case, letters of bit strings in upper case.

## Main definitions

* `Expr.text`, `Reference.text`, `Range.text`, `Index.text`, `Literal.text`,
  `VectorLiteral.text`, `Argument.text` — the canonical texts.
-/

namespace CanonicalVhdl

/-- A text between quotation marks, after a base specifier. -/
def quotedText (base : Text) (body : Text) : Text :=
  base ++ '"' :: (body ++ ['"'])

/-- A character between ticks. -/
def tickedText (c : Char) : Text :=
  ['\'', c, '\'']

mutual

/-- The canonical text of an expression. -/
def Expr.text : Expr → Text
  | .reference r => r.text
  | .literal l => l.text
  | .arith lhs op rhs => lhs.text ++ ' ' :: (op.symbol.toList ++ ' ' :: rhs.text)
  | .group inner => '(' :: (inner.text ++ [')'])
  | .compare lhs op rhs => lhs.text ++ ' ' :: (op.symbol.toList ++ ' ' :: rhs.text)
  | .edge kind signal => kind.name.toList ++ '(' :: (signal.text ++ [')'])
  | .negation operand => "not ".toList ++ operand.text
  | .logic lhs op rhs => lhs.text ++ ' ' :: (op.symbol.toList ++ ' ' :: rhs.text)
  | .convert kind value => kind.name.toList ++ '(' :: (value.text ++ [')'])
  | .call name arguments =>
    name.text ++ '(' :: (Text.join ", ".toList (Argument.texts arguments) ++ [')'])

/-- The canonical text of an argument. -/
def Argument.text : Argument → Text
  | .mk none value => value.text
  | .mk (some parameter) value => parameter.text ++ (" => ".toList ++ value.text)

/-- The canonical texts of arguments. -/
def Argument.texts : List Argument → List Text
  | [] => []
  | a :: as => a.text :: Argument.texts as

/-- The canonical text of a reference. -/
def Reference.text : Reference → Text
  | .name n => n.text
  | .member record member => record.text ++ '.' :: member.text
  | .indexed name index => name.text ++ '(' :: (index.text ++ [')'])
  | .attributeOf object designator => object.text ++ '\'' :: designator

/-- The canonical text of an index. -/
def Index.text : Index → Text
  | .position value => value.text
  | .slice range => range.text
  | .others => "others".toList

/-- The canonical text of a range. -/
def Range.text : Range → Text
  | .ascending low high => low.text ++ (" to ".toList ++ high.text)
  | .descending high low => high.text ++ (" downto ".toList ++ low.text)

/-- The canonical text of a literal. -/
def Literal.text : Literal → Text
  | .bit value => tickedText value.char
  | .boolean value => (if value then "true" else "false").toList
  | .real value => value.text
  | .integer value => value.text
  | .logic value => tickedText value.char
  | .vector value => value.text

/-- The canonical text of a vector literal. -/
def VectorLiteral.text : VectorLiteral → Text
  | .bits values => quotedText [] (values.map Bit.char)
  | .logics values => quotedText [] (values.map Logic.char)
  | .hexadecimal digits => quotedText ['x'] (digits.map HexDigit.char)
  | .octal digits => quotedText ['o'] (digits.map OctalDigit.char)
  | .aggregate elements =>
    '(' :: (Text.join ", ".toList (Element.texts elements) ++ [')'])

/-- The canonical text of an element of an aggregate. -/
def Element.text : Element → Text
  | .mk index value => index.text ++ (" => ".toList ++ value.text)

/-- The canonical texts of elements. -/
def Element.texts : List Element → List Text
  | [] => []
  | e :: es => e.text :: Element.texts es

end

end CanonicalVhdl
