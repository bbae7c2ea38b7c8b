import CanonicalVhdl.Json.Expr
import CanonicalVhdl.Statement.Basic

/-!
# The JSON form of simple statements

## Main definitions

* `ObjectDecl.json`, `ObjectDecl.ofJson?` — declarations, labelled by their class.
* `ObjectDecl.recordJson`, `ObjectDecl.ofRecordJson?` — declarations of a known class.
* `Statement.json`, `Statement.ofJson?` — statements.
-/

namespace CanonicalVhdl

namespace ObjectDecl

/-- The name of the field that holds the default of a class. -/
def defaultKey : ObjectClass → String
  | .signal => "default"
  | .var => "default"
  | .constant => "value"

/-- Encodes a declaration without its class. -/
def recordJson (d : ObjectDecl) : Json :=
  .record [("name", d.name.json), ("ty", d.type.json),
    (defaultKey d.objectClass, Expr.jsonOption d.default), ("comment", Comment.jsonOption d.comment)]

/-- Encodes a declaration. -/
def json (d : ObjectDecl) : Json := .variant d.objectClass.label d.recordJson

/-- Decodes a declaration of a given class. -/
def ofRecordJson? (c : ObjectClass) (j : Json) : Option ObjectDecl := do
  let [name, type, value, comment] ← j.record? ["name", "ty", defaultKey c, "comment"] | none
  let name ← Json.required Ident.ofJson? name
  let type ← Json.required TypeMark.ofJson? type
  let value ← Json.optional Expr.ofJson? value
  let comment ← Json.optional Comment.ofJson? comment
  ofTyped? c ⟨name, type, value⟩ comment

/-- Decodes a declaration. -/
def ofJson? (j : Json) : Option ObjectDecl := do
  let (label, some contents) ← j.variant? | none
  let c ← ObjectClass.all.find? fun c => c.label.toList == label
  ofRecordJson? c contents

end ObjectDecl

namespace AssignmentKind

/-- Decodes a kind of assignment. -/
def ofJson? (j : Json) : Option AssignmentKind := j.labelled? all label

end AssignmentKind

namespace Statement

/-- Encodes a statement. -/
def json : Statement → Json
  | declaration d => .variant "Definition" d.json
  | assignment target kind value =>
    .variant "Assignment"
      (.record [("target", target.json), ("kind", .name kind.label), ("value", value.json)])
  | comment c => .variant "Comment" c.json
  | null => .name "Null"
  | result value => .variant "Return" (Expr.jsonOption value)

/-- Decodes a statement with contents. -/
def ofContents? (label : Text) (contents : Json) : Option Statement :=
  if label == "Definition".toList then (ObjectDecl.ofJson? contents).map declaration
  else if label == "Comment".toList then (Comment.ofJson? contents).map comment
  else if label == "Return".toList then
    (Json.optional Expr.ofJson? (some contents)).map result
  else if label == "Assignment".toList then do
    let [target, kind, value] ← contents.fields? ["target", "kind", "value"] | none
    let target ← Json.required Reference.ofJson? target
    let kind ← Json.required AssignmentKind.ofJson? kind
    let value ← Json.required Expr.ofJson? value
    some (assignment target kind value)
  else none

/-- Decodes a statement. -/
def ofJson? (j : Json) : Option Statement :=
  if j.label? == some "Null".toList then some null
  else do
    let (label, some contents) ← j.variant? | none
    ofContents? label contents

end Statement
end CanonicalVhdl
