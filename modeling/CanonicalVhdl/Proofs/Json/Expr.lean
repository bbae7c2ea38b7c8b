import CanonicalVhdl.Json.Expr
import CanonicalVhdl.Proofs.Json.Basic

/-!
# The JSON form of expressions and types, read back

An expression is decoded from its JSON form, and so are the leaves and types around it.  The
fuel of a decoder only has to exceed the depth of the value.

## Main statements

* `Expr.decode_json`, `Reference.decode_json`, … — decoding with enough fuel, by induction on the
  tree.
* `Expr.ofJson?_json`, `BuiltinType.ofJson?_json`, `TypeMark.ofJson?_json` — decoding.
-/

namespace CanonicalVhdl

open Json (lt_of_variant lt_of_record lt_of_mem_array)

/-! ## Leaves -/

theorem Ident.ofJson?_json (i : Ident) : Ident.ofJson? i.json = some i := by
  show Ident.ofText? i.text = some i
  rw [Ident.ofText?, dif_pos i.valid]

theorem Ident.optional_jsonOption (o : Option Ident) :
    Json.optional Ident.ofJson? (some (Ident.jsonOption o)) = some o :=
  Json.optional_ofOption (fun i _ => i.ofJson?_json) fun i => Json.string_ne_null i.text

theorem HexDigit.ofJson?_json : ∀ d : HexDigit, HexDigit.ofJson? d.json = some d := by
  decide

theorem OctalDigit.ofJson?_json : ∀ d : OctalDigit, OctalDigit.ofJson? d.json = some d := by
  decide

theorem Integer64.ofInt?_val (n : Integer64) : Integer64.ofInt? n.val = some n := by
  rw [Integer64.ofInt?, dif_pos n.inRange]

theorem Comment.ofJson?_json (c : Comment) : Comment.ofJson? c.json = some c := rfl

theorem Comment.optional_jsonOption (o : Option Comment) :
    Json.optional Comment.ofJson? (some (Comment.jsonOption o)) = some o :=
  Json.optional_ofOption (fun c _ => c.ofJson?_json) fun _ => Json.record_ne_null _

/-! ## Enumerations -/

theorem Bit.labelled?_label (b : Bit) : Json.labelled? Bit.all Bit.label (.name b.label) = some b := by
  cases b <;> rfl

theorem Logic.labelled?_label (v : Logic) :
    Json.labelled? Logic.all Logic.label (.name v.label) = some v := by
  cases v <;> rfl

theorem ArithOp.labelled?_label (op : ArithOp) :
    Json.labelled? ArithOp.all ArithOp.label (.name op.label) = some op := by
  cases op <;> rfl

theorem RelOp.labelled?_label (op : RelOp) :
    Json.labelled? RelOp.all RelOp.label (.name op.label) = some op := by
  cases op <;> rfl

theorem LogicOp.labelled?_label (op : LogicOp) :
    Json.labelled? LogicOp.all LogicOp.label (.name op.label) = some op := by
  cases op <;> rfl

theorem Conversion.labelled?_label (kind : Conversion) :
    Json.labelled? Conversion.all Conversion.label (.name kind.label) = some kind := by
  cases kind <;> rfl

theorem Edge.labelled?_label (kind : Edge) :
    Json.labelled? Edge.all Edge.label (.name kind.label) = some kind := by
  cases kind <;> rfl

theorem Mode.ofJson?_json (m : Mode) : Mode.ofJson? m.json = some m := by
  cases m <;> rfl

/-! ## Expressions -/

theorem decodeBinary_some {α : Type} {expr : Json → Option Expr} {op : Json → Option α}
    {build : Expr → α → Expr → Expr} {l o r : Json} {lhs rhs : Expr} {a : α}
    (hl : expr l = some lhs) (ho : op o = some a) (hr : expr r = some rhs) :
    decodeBinary expr op build (some [some l, some o, some r]) = some (build lhs a rhs) := by
  simp [decodeBinary, hl, ho, hr]

mutual

/-- An expression is decoded from its JSON form. -/
theorem Expr.decode_json : ∀ (e : Expr) {n : Nat}, e.json.depth < n → Expr.decode n e.json = some e
  | _, 0, h => absurd h (Nat.not_lt_zero _)
  | .reference r, n + 1, h =>
    congrArg (Option.map Expr.reference) (r.decode_json (lt_of_variant h))
  | .literal l, n + 1, h => congrArg (Option.map Expr.literal) (l.decode_json (lt_of_variant h))
  | .group inner, n + 1, h =>
    congrArg (Option.map Expr.group) (inner.decode_json (lt_of_variant h))
  | .arith lhs op rhs, n + 1, h => by
    obtain ⟨hl, -, hr⟩ := lt_of_record (Nat.lt_succ_of_lt (lt_of_variant h))
    exact decodeBinary_some (lhs.decode_json hl) op.labelled?_label (rhs.decode_json hr)
  | .compare lhs op rhs, 1, h | .logic lhs op rhs, 1, h | .negation operand, 1, h
  | .edge kind signal, 1, h => absurd (lt_of_variant h) (Nat.not_lt_zero _)
  | .compare lhs op rhs, n + 2, h => by
    obtain ⟨hl, -, hr⟩ := lt_of_record (Nat.lt_succ_of_lt (lt_of_variant (lt_of_variant h)))
    exact decodeBinary_some (lhs.decode_json hl) op.labelled?_label (rhs.decode_json hr)
  | .edge kind signal, n + 2, h => by
    obtain ⟨-, hs⟩ := lt_of_record (Nat.lt_succ_of_lt (lt_of_variant (lt_of_variant h)))
    show (do
      let kind ← Json.labelled? Edge.all Edge.label (.name kind.label)
      let signal ← Reference.decode n signal.json
      some (Expr.edge kind signal)) = _
    rw [kind.labelled?_label, signal.decode_json hs]
    rfl
  | .negation operand, n + 2, h =>
    congrArg (Option.map Expr.negation) (operand.decode_json (lt_of_variant (lt_of_variant h)))
  | .logic lhs op rhs, n + 2, h => by
    obtain ⟨hl, -, hr⟩ := lt_of_record (Nat.lt_succ_of_lt (lt_of_variant (lt_of_variant h)))
    exact decodeBinary_some (lhs.decode_json hl) op.labelled?_label (rhs.decode_json hr)
  | .convert kind value, n + 1, h => by
    obtain ⟨-, hv⟩ := lt_of_record (Nat.lt_succ_of_lt (lt_of_variant h))
    show (do
      let kind ← Json.labelled? Conversion.all Conversion.label (.name kind.label)
      let value ← Expr.decode n value.json
      some (Expr.convert kind value)) = _
    rw [kind.labelled?_label, value.decode_json hv]
    rfl
  | .call name arguments, n + 1, h => by
    obtain ⟨-, ha⟩ := lt_of_record (Nat.lt_succ_of_lt (lt_of_variant h))
    show (do
      let name ← Ident.ofJson? name.json
      let arguments ← Json.list (Argument.decode n) (.array (Argument.jsonAll arguments))
      some (Expr.call name arguments)) = _
    rw [name.ofJson?_json,
      Argument.list_decode_json arguments (lt_of_mem_array (Nat.lt_succ_of_lt ha))]
    rfl

/-- An argument is decoded from its JSON form. -/
theorem Argument.decode_json :
    ∀ (a : Argument) {n : Nat}, a.json.depth < n → Argument.decode n a.json = some a
  | _, 0, h => absurd h (Nat.not_lt_zero _)
  | .mk parameter value, n + 1, h => by
    obtain ⟨-, hv⟩ := lt_of_record h
    show (do
      let parameter ← Json.optional Ident.ofJson? (some (Ident.jsonOption parameter))
      let value ← Expr.decode n value.json
      some (Argument.mk parameter value)) = _
    rw [Ident.optional_jsonOption, value.decode_json hv]
    rfl

/-- Arguments are decoded from their JSON form. -/
theorem Argument.list_decode_json :
    ∀ (as : List Argument) {n : Nat}, (∀ j ∈ Argument.jsonAll as, j.depth < n) →
      Json.list (Argument.decode n) (.array (Argument.jsonAll as)) = some as
  | [], _, _ => rfl
  | a :: as, _, h =>
    Json.list_cons (a.decode_json (h _ List.mem_cons_self))
      (Argument.list_decode_json as fun j hj => h j (List.mem_cons_of_mem _ hj))

/-- A reference is decoded from its JSON form. -/
theorem Reference.decode_json :
    ∀ (r : Reference) {n : Nat}, r.json.depth < n → Reference.decode n r.json = some r
  | _, 0, h => absurd h (Nat.not_lt_zero _)
  | .name i, n + 1, _ => congrArg (Option.map Reference.name) i.ofJson?_json
  | .member object field, n + 1, _ => by
    show (do
      let object ← Ident.ofJson? object.json
      let field ← Ident.ofJson? field.json
      some (Reference.member object field)) = _
    rw [object.ofJson?_json, field.ofJson?_json]
    rfl
  | .indexed object index, n + 1, h => by
    obtain ⟨-, hi⟩ := lt_of_record (Nat.lt_succ_of_lt (lt_of_variant h))
    show (do
      let object ← Ident.ofJson? object.json
      let index ← Index.decode n index.json
      some (Reference.indexed object index)) = _
    rw [object.ofJson?_json, index.decode_json hi]
    rfl
  | .attributeOf object designator, n + 1, _ => by
    show (do
      let object ← Ident.ofJson? object.json
      some (Reference.attributeOf object designator)) = _
    rw [object.ofJson?_json]
    rfl

/-- An index is decoded from its JSON form. -/
theorem Index.decode_json :
    ∀ (i : Index) {n : Nat}, i.json.depth < n → Index.decode n i.json = some i
  | _, 0, h => absurd h (Nat.not_lt_zero _)
  | .position value, n + 1, h => by
    rw [Index.json, Index.decode, Json.label?_variant_ne (by decide), if_neg Bool.false_ne_true]
    exact congrArg (Option.map Index.position) (value.decode_json (lt_of_variant h))
  | .slice range, n + 1, h => by
    rw [Index.json, Index.decode, Json.label?_variant_ne (by decide), if_neg Bool.false_ne_true]
    exact congrArg (Option.map Index.slice) (range.decode_json (lt_of_variant h))
  | .others, n + 1, _ => rfl

/-- A range is decoded from its JSON form. -/
theorem Range.decode_json :
    ∀ (r : Range) {n : Nat}, r.json.depth < n → Range.decode n r.json = some r
  | _, 0, h => absurd h (Nat.not_lt_zero _)
  | .ascending low high, n + 1, h => by
    obtain ⟨hl, hh⟩ := lt_of_record (Nat.lt_succ_of_lt (lt_of_variant h))
    show (do
      let low ← Expr.decode n low.json
      let high ← Expr.decode n high.json
      some (Range.ascending low high)) = _
    rw [low.decode_json hl, high.decode_json hh]
    rfl
  | .descending high low, n + 1, h => by
    obtain ⟨hh, hl⟩ := lt_of_record (Nat.lt_succ_of_lt (lt_of_variant h))
    show (do
      let low ← Expr.decode n low.json
      let high ← Expr.decode n high.json
      some (Range.descending high low)) = _
    rw [low.decode_json hl, high.decode_json hh]
    rfl

/-- A literal is decoded from its JSON form. -/
theorem Literal.decode_json :
    ∀ (l : Literal) {n : Nat}, l.json.depth < n → Literal.decode n l.json = some l
  | _, 0, h => absurd h (Nat.not_lt_zero _)
  | .bit value, _ + 1, _ => congrArg (Option.map Literal.bit) value.labelled?_label
  | .boolean _, _ + 1, _ => rfl
  | .real _, _ + 1, _ => rfl
  | .integer value, _ + 1, _ => congrArg (Option.map Literal.integer) value.ofInt?_val
  | .logic value, _ + 1, _ => congrArg (Option.map Literal.logic) value.labelled?_label
  | .vector value, _ + 1, h =>
    congrArg (Option.map Literal.vector) (value.decode_json (lt_of_variant h))

/-- A vector literal is decoded from its JSON form. -/
theorem VectorLiteral.decode_json :
    ∀ (v : VectorLiteral) {n : Nat}, v.json.depth < n → VectorLiteral.decode n v.json = some v
  | _, 0, h => absurd h (Nat.not_lt_zero _)
  | .bits _, _ + 1, _ =>
    congrArg (Option.map VectorLiteral.bits) (Json.list_map fun b _ => b.labelled?_label)
  | .logics _, _ + 1, _ =>
    congrArg (Option.map VectorLiteral.logics) (Json.list_map fun v _ => v.labelled?_label)
  | .hexadecimal _, _ + 1, _ =>
    congrArg (Option.map VectorLiteral.hexadecimal) (Json.list_map fun d _ => d.ofJson?_json)
  | .octal _, _ + 1, _ =>
    congrArg (Option.map VectorLiteral.octal) (Json.list_map fun d _ => d.ofJson?_json)
  | .aggregate elements, _ + 1, h =>
    congrArg (Option.map VectorLiteral.aggregate)
      (Element.list_decode_json elements (lt_of_mem_array (Nat.lt_succ_of_lt (lt_of_variant h))))

/-- An element is decoded from its JSON form. -/
theorem Element.decode_json :
    ∀ (e : Element) {n : Nat}, e.json.depth < n → Element.decode n e.json = some e
  | _, 0, h => absurd h (Nat.not_lt_zero _)
  | .mk index value, n + 1, h => by
    obtain ⟨hi, hv⟩ := lt_of_record h
    show (do
      let index ← Index.decode n index.json
      let value ← Literal.decode n value.json
      some (Element.mk index value)) = _
    rw [index.decode_json hi, value.decode_json hv]
    rfl

/-- Elements are decoded from their JSON form. -/
theorem Element.list_decode_json :
    ∀ (es : List Element) {n : Nat}, (∀ j ∈ Element.jsonAll es, j.depth < n) →
      Json.list (Element.decode n) (.array (Element.jsonAll es)) = some es
  | [], _, _ => rfl
  | e :: es, _, h =>
    Json.list_cons (e.decode_json (h _ List.mem_cons_self))
      (Element.list_decode_json es fun j hj => h j (List.mem_cons_of_mem _ hj))

end

theorem Expr.ofJson?_json (e : Expr) : Expr.ofJson? e.json = some e :=
  e.decode_json (Nat.lt_succ_self _)

theorem Reference.ofJson?_json (r : Reference) : Reference.ofJson? r.json = some r :=
  r.decode_json (Nat.lt_succ_self _)

theorem Range.ofJson?_json (r : Range) : Range.ofJson? r.json = some r :=
  r.decode_json (Nat.lt_succ_self _)

theorem Expr.json_ne_null (e : Expr) : e.json ≠ .null := by
  cases e <;> exact Json.variant_ne_null _ _

theorem Expr.optional_jsonOption (o : Option Expr) :
    Json.optional Expr.ofJson? (some (Expr.jsonOption o)) = some o :=
  Json.optional_ofOption (fun e _ => e.ofJson?_json) Expr.json_ne_null

/-! ## Types -/

theorem ScalarType.labelled?_label (kind : ScalarType) :
    Json.labelled? ScalarType.all ScalarType.label (.name kind.label) = some kind := by
  cases kind <;> rfl

/-- A built-in type is decoded from its JSON form. -/
theorem BuiltinType.ofJson?_json (t : BuiltinType) : BuiltinType.ofJson? t.json = some t := by
  cases t with
  | scalar kind => exact congrArg (Option.map BuiltinType.scalar) kind.labelled?_label
  | integerRange range =>
    show (do
      let range ← Range.ofJson? range.json
      some (BuiltinType.integerRange range)) = _
    rw [range.ofJson?_json]
    rfl
  | vector kind range =>
    show constrainedOfJson? (.variant kind.label range.json) = _
    simp only [constrainedOfJson?, Json.variant, Json.variant?, bind, Option.bind,
      range.ofJson?_json]
    cases kind <;> rfl

theorem TypeMark.ofJson?_json (t : TypeMark) : TypeMark.ofJson? t.json = some t := by
  cases t with
  | builtin type => exact congrArg (Option.map TypeMark.builtin) type.ofJson?_json
  | named name => exact congrArg (Option.map TypeMark.named) name.ofJson?_json

end CanonicalVhdl
