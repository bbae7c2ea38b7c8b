import CanonicalVhdl.Expr.Basic
import CanonicalVhdl.Json.Basic
import CanonicalVhdl.Lexical.Comment
import CanonicalVhdl.Types.Basic

/-!
# The JSON form of expressions and types

## Main definitions

* `Expr.json`, `Expr.ofJson?` and their companions — encoding and decoding.
* `BuiltinType.json`, `TypeMark.json`, `Comment.json` and the decoders beside them.
-/

namespace CanonicalVhdl

/-! ## Leaves -/

namespace Ident

/-- An identifier as a string. -/
def json (i : Ident) : Json := .string i.text

/-- Decodes an identifier, which is checked. -/
def ofJson? (j : Json) : Option Ident := j.string?.bind ofText?

/-- An identifier that may be missing. -/
def jsonOption (i : Option Ident) : Json := .ofOption (i.map json)

end Ident

/-- The only character of a text. -/
def onlyChar? : Text → Option Char
  | [c] => some c
  | _ => none

namespace HexDigit

/-- A digit as a string. -/
def json (d : HexDigit) : Json := .string [d.char]

/-- Decodes a digit, which is checked. -/
def ofJson? (j : Json) : Option HexDigit := (j.string?.bind onlyChar?).bind ofChar?

end HexDigit

namespace OctalDigit

/-- A digit as a string. -/
def json (d : OctalDigit) : Json := .string [d.char]

/-- Decodes a digit, which is checked. -/
def ofJson? (j : Json) : Option OctalDigit := (j.string?.bind onlyChar?).bind ofChar?

end OctalDigit

namespace Comment

/-- A comment as a record. -/
def json (c : Comment) : Json := .record [("text", .string c.text)]

/-- Decodes a comment. -/
def ofJson? (j : Json) : Option Comment := do
  let [text] ← j.record? ["text"] | none
  let text ← Json.required Json.string? text
  some ⟨text⟩

/-- A comment that may be missing. -/
def jsonOption (c : Option Comment) : Json := .ofOption (c.map json)

end Comment

/-! ## Encoding expressions -/

mutual

/-- Encodes an expression. -/
def Expr.json : Expr → Json
  | .reference r => .variant "Reference" r.json
  | .literal l => .variant "Literal" l.json
  | .arith lhs op rhs =>
    .variant "Binary" (.record [("lhs", lhs.json), ("op", .name op.label), ("rhs", rhs.json)])
  | .group inner => .variant "Precedence" inner.json
  | .compare lhs op rhs =>
    .variant "Conditional" (.variant "Comparison"
      (.record [("lhs", lhs.json), ("op", .name op.label), ("rhs", rhs.json)]))
  | .edge kind signal =>
    .variant "Conditional" (.variant "Edge"
      (.record [("kind", .name kind.label), ("signal", signal.json)]))
  | .negation operand => .variant "Logical" (.variant "Not" operand.json)
  | .logic lhs op rhs =>
    .variant "Logical" (.variant "Binary"
      (.record [("lhs", lhs.json), ("op", .name op.label), ("rhs", rhs.json)]))
  | .convert kind value =>
    .variant "Cast" (.record [("kind", .name kind.label), ("value", value.json)])
  | .call name arguments =>
    .variant "Call"
      (.record [("name", name.json), ("arguments", .array (Argument.jsonAll arguments))])

/-- Encodes an argument. -/
def Argument.json : Argument → Json
  | .mk parameter value =>
    .record [("label", Ident.jsonOption parameter), ("value", value.json)]

/-- Encodes arguments. -/
def Argument.jsonAll : List Argument → List Json
  | [] => []
  | a :: as => a.json :: Argument.jsonAll as

/-- Encodes a reference. -/
def Reference.json : Reference → Json
  | .name n => .variant "Variable" n.json
  | .member record member =>
    .variant "Member" (.record [("record", record.json), ("member", member.json)])
  | .indexed name index =>
    .variant "Indexed" (.record [("name", name.json), ("index", index.json)])
  | .attributeOf object designator =>
    .variant "Attribute"
      (.record [("prefix", object.json), ("attribute", .string designator)])

/-- Encodes an index. -/
def Index.json : Index → Json
  | .position value => .variant "Index" value.json
  | .slice range => .variant "Range" range.json
  | .others => .name "Others"

/-- Encodes a range. -/
def Range.json : Range → Json
  | .ascending low high => .variant "To" (.record [("lower", low.json), ("upper", high.json)])
  | .descending high low =>
    .variant "Downto" (.record [("upper", high.json), ("lower", low.json)])

/-- Encodes a literal. -/
def Literal.json : Literal → Json
  | .bit value => .variant "Bit" (.name value.label)
  | .boolean value => .variant "Boolean" (.bool value)
  | .real value => .variant "Decimal" (.real value)
  | .integer value => .variant "Integer" (.integer value.val)
  | .logic value => .variant "Logic" (.name value.label)
  | .vector value => .variant "Vector" value.json

/-- Encodes a vector literal. -/
def VectorLiteral.json : VectorLiteral → Json
  | .bits values => .variant "Bits" (.array (values.map fun v => .name v.label))
  | .logics values => .variant "Logics" (.array (values.map fun v => .name v.label))
  | .hexadecimal digits => .variant "Hexadecimal" (.array (digits.map HexDigit.json))
  | .octal digits => .variant "Octal" (.array (digits.map OctalDigit.json))
  | .aggregate elements => .variant "Indexed" (.array (Element.jsonAll elements))

/-- Encodes an element. -/
def Element.json : Element → Json
  | .mk index value => .record [("index", index.json), ("value", value.json)]

/-- Encodes elements. -/
def Element.jsonAll : List Element → List Json
  | [] => []
  | e :: es => e.json :: Element.jsonAll es

end

/-! ## Decoding expressions

The natural number bounds how deep a value may be nested. -/

/-- Decodes the three parts of a binary operation. -/
def decodeBinary {α : Type} (expr : Json → Option Expr) (op : Json → Option α)
    (build : Expr → α → Expr → Expr) (parts : Option (List (Option Json))) : Option Expr := do
  let [lhs, o, rhs] ← parts | none
  let lhs ← Json.required expr lhs
  let o ← Json.required op o
  let rhs ← Json.required expr rhs
  some (build lhs o rhs)

mutual

/-- Decodes an expression. -/
def Expr.decode : Nat → Json → Option Expr
  | 0, _ => none
  | n + 1, j => do
    let (label, some c) ← j.variant? | none
    if label == "Reference".toList then (Reference.decode n c).map .reference
    else if label == "Literal".toList then (Literal.decode n c).map .literal
    else if label == "Binary".toList then
      decodeBinary (Expr.decode n) (Json.labelled? ArithOp.all ArithOp.label) .arith
        (c.record? ["lhs", "op", "rhs"])
    else if label == "Precedence".toList then (Expr.decode n c).map .group
    else if label == "Conditional".toList then Expr.decodeCondition n c
    else if label == "Logical".toList then Expr.decodeLogical n c
    else if label == "Cast".toList then do
      let [kind, value] ← c.record? ["kind", "value"] | none
      let kind ← Json.required (Json.labelled? Conversion.all Conversion.label) kind
      let value ← Json.required (Expr.decode n) value
      some (.convert kind value)
    else if label == "Call".toList then do
      let [name, arguments] ← c.record? ["name", "arguments"] | none
      let name ← Json.required Ident.ofJson? name
      let arguments ← Json.required (Json.list (Argument.decode n)) arguments
      some (.call name arguments)
    else none

/-- Decodes a comparison or an edge test. -/
def Expr.decodeCondition : Nat → Json → Option Expr
  | 0, _ => none
  | n + 1, j => do
    let (label, some c) ← j.variant? | none
    if label == "Comparison".toList then
      decodeBinary (Expr.decode n) (Json.labelled? RelOp.all RelOp.label) .compare
        (c.fields? ["lhs", "op", "rhs"])
    else if label == "Edge".toList then do
      let [kind, signal] ← c.fields? ["kind", "signal"] | none
      let kind ← Json.required (Json.labelled? Edge.all Edge.label) kind
      let signal ← Json.required (Reference.decode n) signal
      some (.edge kind signal)
    else none

/-- Decodes a logical operation. -/
def Expr.decodeLogical : Nat → Json → Option Expr
  | 0, _ => none
  | n + 1, j => do
    let (label, some c) ← j.variant? | none
    if label == "Not".toList then (Expr.decode n c).map .negation
    else if label == "Binary".toList then
      decodeBinary (Expr.decode n) (Json.labelled? LogicOp.all LogicOp.label) .logic
        (c.fields? ["lhs", "op", "rhs"])
    else none

/-- Decodes an argument. -/
def Argument.decode : Nat → Json → Option Argument
  | 0, _ => none
  | n + 1, j => do
    let [parameter, value] ← j.record? ["label", "value"] | none
    let parameter ← Json.optional Ident.ofJson? parameter
    let value ← Json.required (Expr.decode n) value
    some (.mk parameter value)

/-- Decodes a reference. -/
def Reference.decode : Nat → Json → Option Reference
  | 0, _ => none
  | n + 1, j => do
    let (label, some c) ← j.variant? | none
    if label == "Variable".toList then (Ident.ofJson? c).map .name
    else if label == "Member".toList then do
      let [object, field] ← c.fields? ["record", "member"] | none
      let object ← Json.required Ident.ofJson? object
      let field ← Json.required Ident.ofJson? field
      some (.member object field)
    else if label == "Indexed".toList then do
      let [object, index] ← c.fields? ["name", "index"] | none
      let object ← Json.required Ident.ofJson? object
      let index ← Json.required (Index.decode n) index
      some (.indexed object index)
    else if label == "Attribute".toList then do
      let [object, designator] ← c.fields? ["prefix", "attribute"] | none
      let object ← Json.required Ident.ofJson? object
      let designator ← Json.required Json.string? designator
      some (.attributeOf object designator)
    else none

/-- Decodes an index. -/
def Index.decode : Nat → Json → Option Index
  | 0, _ => none
  | n + 1, j =>
    if j.label? == some "Others".toList then some .others
    else do
      let (label, some c) ← j.variant? | none
      if label == "Index".toList then (Expr.decode n c).map .position
      else if label == "Range".toList then (Range.decode n c).map .slice
      else none

/-- Decodes a range. -/
def Range.decode : Nat → Json → Option Range
  | 0, _ => none
  | n + 1, j => do
    let (label, some c) ← j.variant? | none
    let [low, high] ← c.fields? ["lower", "upper"] | none
    let low ← Json.required (Expr.decode n) low
    let high ← Json.required (Expr.decode n) high
    if label == "To".toList then some (.ascending low high)
    else if label == "Downto".toList then some (.descending high low)
    else none

/-- Decodes a literal. -/
def Literal.decode : Nat → Json → Option Literal
  | 0, _ => none
  | n + 1, j => do
    let (label, some c) ← j.variant? | none
    if label == "Bit".toList then (c.labelled? Bit.all Bit.label).map .bit
    else if label == "Boolean".toList then c.bool?.map .boolean
    else if label == "Decimal".toList then c.real?.map .real
    else if label == "Integer".toList then c.integer?.map .integer
    else if label == "Logic".toList then (c.labelled? Logic.all Logic.label).map .logic
    else if label == "Vector".toList then (VectorLiteral.decode n c).map .vector
    else none

/-- Decodes a vector literal. -/
def VectorLiteral.decode : Nat → Json → Option VectorLiteral
  | 0, _ => none
  | n + 1, j => do
    let (label, some c) ← j.variant? | none
    if label == "Bits".toList then (c.list (Json.labelled? Bit.all Bit.label)).map .bits
    else if label == "Logics".toList then (c.list (Json.labelled? Logic.all Logic.label)).map .logics
    else if label == "Hexadecimal".toList then (c.list HexDigit.ofJson?).map .hexadecimal
    else if label == "Octal".toList then (c.list OctalDigit.ofJson?).map .octal
    else if label == "Indexed".toList then (c.list (Element.decode n)).map .aggregate
    else none

/-- Decodes an element. -/
def Element.decode : Nat → Json → Option Element
  | 0, _ => none
  | n + 1, j => do
    let [index, value] ← j.record? ["index", "value"] | none
    let index ← Json.required (Index.decode n) index
    let value ← Json.required (Literal.decode n) value
    some (.mk index value)

end

/-- Decodes an expression. -/
def Expr.ofJson? (j : Json) : Option Expr := Expr.decode (j.depth + 1) j

/-- Decodes an argument. -/
def Argument.ofJson? (j : Json) : Option Argument := Argument.decode (j.depth + 1) j

/-- Decodes a reference. -/
def Reference.ofJson? (j : Json) : Option Reference := Reference.decode (j.depth + 1) j

/-- Decodes an index. -/
def Index.ofJson? (j : Json) : Option Index := Index.decode (j.depth + 1) j

/-- Decodes a range. -/
def Range.ofJson? (j : Json) : Option Range := Range.decode (j.depth + 1) j

/-- Decodes a literal. -/
def Literal.ofJson? (j : Json) : Option Literal := Literal.decode (j.depth + 1) j

/-- Decodes a vector literal. -/
def VectorLiteral.ofJson? (j : Json) : Option VectorLiteral :=
  VectorLiteral.decode (j.depth + 1) j

/-- Encodes an expression that may be missing. -/
def Expr.jsonOption (e : Option Expr) : Json := .ofOption (e.map Expr.json)

/-! ## Types -/

namespace BuiltinType

/-- Encodes a built-in type. -/
def json : BuiltinType → Json
  | scalar kind => .name kind.label
  | vector kind range => .variant "Ranged" (.variant kind.label range.json)
  | integerRange range => .variant "Ranged" (.variant "Integer" range.json)

/-- Decodes a constrained type. -/
def constrainedOfJson? (j : Json) : Option BuiltinType := do
  let (label, some c) ← j.variant? | none
  let range ← Range.ofJson? c
  if label == "Integer".toList then some (integerRange range)
  else (VectorType.all.find? fun k => k.label.toList == label).map fun k => vector k range

/-- Decodes a built-in type. -/
def ofJson? (j : Json) : Option BuiltinType :=
  match j.variant? with
  | some (label, some c) =>
    if label == "Ranged".toList then constrainedOfJson? c
    else (j.labelled? ScalarType.all ScalarType.label).map scalar
  | _ => (j.labelled? ScalarType.all ScalarType.label).map scalar

end BuiltinType

namespace TypeMark

/-- Encodes a type. -/
def json : TypeMark → Json
  | builtin type => .variant "Signal" type.json
  | named name => .variant "Alias" name.json

/-- Decodes a type. -/
def ofJson? (j : Json) : Option TypeMark := do
  let (label, some c) ← j.variant? | none
  if label == "Signal".toList then (BuiltinType.ofJson? c).map builtin
  else if label == "Alias".toList then (Ident.ofJson? c).map named
  else none

end TypeMark

namespace Mode

/-- Encodes a mode. -/
def json (m : Mode) : Json := .name m.label

/-- Decodes a mode. -/
def ofJson? (j : Json) : Option Mode := j.labelled? all label

end Mode
end CanonicalVhdl
