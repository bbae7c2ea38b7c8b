import CanonicalVhdl.Design.File
import CanonicalVhdl.Json.Concurrent

/-!
# The JSON form of design files

## Main definitions

* `Port.json`, `Generic.json`, `Interface.json` — entities and components.
* `TypeDecl.json`, `Signature.json`, `FunctionBody.json`, `Declaration.json` — declarations.
* `Architecture.json`, `Package.json`, `PackageBody.json`, `ContextClause.json` — units.
* `DesignFile.json`, `DesignFile.ofJson?` — files.

The decoders stand beside the encoders and are named `ofJson?`.  What the readers
check about names, defaults and the number of entries is not checked again.
-/

namespace CanonicalVhdl

/-! ## Interfaces -/

namespace Port

/-- Encodes a port. -/
def json (p : Port) : Json :=
  .record [("name", p.name.json), ("mode", p.mode.json), ("ty", p.type.json),
    ("default", Expr.jsonOption p.default), ("comment", Comment.jsonOption p.comment)]

/-- Decodes a port. -/
def ofJson? (j : Json) : Option Port := do
  let [name, mode, type, value, comment] ←
    j.record? ["name", "mode", "ty", "default", "comment"] | none
  let name ← Json.required Ident.ofJson? name
  let mode ← Json.required Mode.ofJson? mode
  let type ← Json.required TypeMark.ofJson? type
  let value ← Json.optional Expr.ofJson? value
  let comment ← Json.optional Comment.ofJson? comment
  some ⟨name, mode, type, value, comment⟩

end Port

namespace Generic

/-- Encodes a generic. -/
def json (g : Generic) : Json :=
  .record [("name", g.name.json), ("ty", g.type.json), ("default", Expr.jsonOption g.default),
    ("comment", Comment.jsonOption g.comment)]

/-- Decodes a generic. -/
def ofJson? (j : Json) : Option Generic := do
  let [name, type, value, comment] ← j.record? ["name", "ty", "default", "comment"] | none
  let name ← Json.required Ident.ofJson? name
  let type ← Json.required TypeMark.ofJson? type
  let value ← Json.optional Expr.ofJson? value
  let comment ← Json.optional Comment.ofJson? comment
  some ⟨name, type, value, comment⟩

end Generic

namespace PortClause

/-- Encodes a port clause. -/
def json (c : PortClause) : Json := .record [("signals", .array (c.ports.map Port.json))]

/-- Decodes a port clause. -/
def ofJson? (j : Json) : Option PortClause := do
  let [ports] ← j.record? ["signals"] | none
  let ports ← Json.required (Json.list Port.ofJson?) ports
  some ⟨ports⟩

end PortClause

namespace GenericClause

/-- Encodes a generic clause. -/
def json (c : GenericClause) : Json :=
  .record [("generics", .array (c.generics.map Generic.json))]

/-- Decodes a generic clause. -/
def ofJson? (j : Json) : Option GenericClause := do
  let [generics] ← j.record? ["generics"] | none
  let generics ← Json.required (Json.list Generic.ofJson?) generics
  some ⟨generics⟩

end GenericClause

namespace Interface

/-- Encodes an interface. -/
def json (u : Interface) : Json :=
  .record [("name", u.name.json), ("generics", .ofOption (u.generics.map GenericClause.json)),
    ("ports", .ofOption (u.ports.map PortClause.json))]

/-- Decodes an interface. -/
def ofJson? (j : Json) : Option Interface := do
  let [name, generics, ports] ← j.record? ["name", "generics", "ports"] | none
  let name ← Json.required Ident.ofJson? name
  let generics ← Json.optional GenericClause.ofJson? generics
  let ports ← Json.optional PortClause.ofJson? ports
  some ⟨name, generics, ports⟩

end Interface

/-! ## Types and functions -/

namespace RecordField

/-- Encodes a field. -/
def json (f : RecordField) : Json :=
  .record [("name", f.name.json), ("ty", f.type.json), ("comment", Comment.jsonOption f.comment)]

/-- Decodes a field. -/
def ofJson? (j : Json) : Option RecordField := do
  let [name, type, comment] ← j.record? ["name", "ty", "comment"] | none
  let name ← Json.required Ident.ofJson? name
  let type ← Json.required TypeMark.ofJson? type
  let comment ← Json.optional Comment.ofJson? comment
  some ⟨name, type, comment⟩

end RecordField

namespace TypeDecl

/-- Encodes a declaration. -/
def json : TypeDecl → Json
  | enumeration n values =>
    .variant "Enumeration" (.record [("name", n.json), ("values", .array (values.map Ident.json))])
  | record n fields =>
    .variant "Record" (.record [("name", n.json), ("fields", .array (fields.map RecordField.json))])
  | array n range element =>
    .variant "Array" (.record [("name", n.json), ("size", range.json), ("element", element.json)])

/-- Decodes a declaration. -/
def ofJson? (j : Json) : Option TypeDecl := do
  let (label, some contents) ← j.variant? | none
  if label == "Enumeration".toList then do
    let [n, values] ← contents.fields? ["name", "values"] | none
    let n ← Json.required Ident.ofJson? n
    let values ← Json.required (Json.list Ident.ofJson?) values
    some (enumeration n values)
  else if label == "Record".toList then do
    let [n, fields] ← contents.fields? ["name", "fields"] | none
    let n ← Json.required Ident.ofJson? n
    let fields ← Json.required (Json.list RecordField.ofJson?) fields
    some (record n fields)
  else if label == "Array".toList then do
    let [n, range, element] ← contents.fields? ["name", "size", "element"] | none
    let n ← Json.required Ident.ofJson? n
    let range ← Json.required Range.ofJson? range
    let element ← Json.required TypeMark.ofJson? element
    some (array n range element)
  else none

end TypeDecl

namespace Parameter

/-- Encodes a parameter. -/
def json (p : Parameter) : Json := .record [("name", p.name.json), ("ty", p.type.json)]

/-- Decodes a parameter. -/
def ofJson? (j : Json) : Option Parameter := do
  let [name, type] ← j.record? ["name", "ty"] | none
  let name ← Json.required Ident.ofJson? name
  let type ← Json.required TypeMark.ofJson? type
  some ⟨name, type⟩

end Parameter

namespace Signature

/-- Encodes a signature. -/
def json (s : Signature) : Json :=
  .record [("name", s.name.json), ("parameters", .array (s.parameters.map Parameter.json)),
    ("return_type", s.result.json)]

/-- Decodes a signature. -/
def ofJson? (j : Json) : Option Signature := do
  let [name, parameters, result] ← j.record? ["name", "parameters", "return_type"] | none
  let name ← Json.required Ident.ofJson? name
  let parameters ← Json.required (Json.list Parameter.ofJson?) parameters
  let result ← Json.required TypeMark.ofJson? result
  some ⟨name, parameters, result⟩

end Signature

namespace FunctionBody

/-- Encodes a function. -/
def json (f : FunctionBody) : Json :=
  .record [("definition", f.signature.json),
    ("declarations", .array (f.declarations.map Statement.json)), ("body", f.body.json)]

/-- Decodes a function. -/
def ofJson? (j : Json) : Option FunctionBody := do
  let [signature, declarations, body] ←
    j.record? ["definition", "declarations", "body"] | none
  let signature ← Json.required Signature.ofJson? signature
  let declarations ← Json.required (Json.list Statement.ofJson?) declarations
  let body ← Json.required Sequential.ofJson? body
  some ⟨signature, declarations, body⟩

end FunctionBody

/-! ## Declarative parts -/

namespace Declaration

/-- Encodes an item. -/
def json : Declaration → Json
  | object d => .variant "Definition" d.json
  | comment c => .variant "Comment" c.json
  | type d => .variant "Type" d.json
  | component c => .variant "Component" c.json
  | signature s => .variant "FunctionDeclaration" s.json
  | function f => .variant "Function" f.json

/-- Decodes an item. -/
def ofJson? (j : Json) : Option Declaration := do
  let (label, some contents) ← j.variant? | none
  if label == "Definition".toList then (ObjectDecl.ofJson? contents).map object
  else if label == "Comment".toList then (Comment.ofJson? contents).map comment
  else if label == "Type".toList then (TypeDecl.ofJson? contents).map type
  else if label == "Component".toList then (Interface.ofJson? contents).map component
  else if label == "FunctionDeclaration".toList then (Signature.ofJson? contents).map signature
  else if label == "Function".toList then (FunctionBody.ofJson? contents).map function
  else none

end Declaration

namespace DeclarativePart

/-- Encodes a declarative part. -/
def json (p : DeclarativePart) : Json :=
  .record [("statements", .array (p.items.map Declaration.json))]

/-- Decodes a declarative part. -/
def ofJson? (j : Json) : Option DeclarativePart := do
  let [items] ← j.record? ["statements"] | none
  let items ← Json.required (Json.list Declaration.ofJson?) items
  some ⟨items⟩

end DeclarativePart

/-! ## Units -/

namespace Architecture

/-- Encodes an architecture. -/
def json (a : Architecture) : Json :=
  .record [("name", a.name.json), ("entity", a.entity.json), ("head", a.head.json),
    ("body", a.body.json)]

/-- Decodes an architecture. -/
def ofJson? (j : Json) : Option Architecture := do
  let [name, entity, head, body] ← j.record? ["name", "entity", "head", "body"] | none
  let name ← Json.required Ident.ofJson? name
  let entity ← Json.required Ident.ofJson? entity
  let head ← Json.required DeclarativePart.ofJson? head
  let body ← Json.required Concurrent.ofJson? body
  some ⟨name, entity, head, body⟩

end Architecture

namespace Package

/-- Encodes a package. -/
def json (p : Package) : Json :=
  .record [("name", p.name.json), ("statements", .array (p.items.map Declaration.json))]

/-- Decodes a package. -/
def ofJson? (j : Json) : Option Package := do
  let [name, items] ← j.record? ["name", "statements"] | none
  let name ← Json.required Ident.ofJson? name
  let items ← Json.required (Json.list Declaration.ofJson?) items
  some ⟨name, items⟩

end Package

namespace BodyItem

mutual

/-- Encodes the contents of a package body. -/
def json : BodyItem → Json
  | function f => .variant "Function" f.json
  | object d => .variant "Definition" d.json
  | type d => .variant "Type" d.json
  | comment c => .variant "Comment" c.json
  | items elements => .variant "Blocks" (.array (jsonAll elements))

/-- Encodes a list of contents. -/
def jsonAll : List BodyItem → List Json
  | [] => []
  | i :: is => i.json :: jsonAll is

end

/-- Decodes the contents of a package body; the number bounds how deep they may be
nested. -/
def decode : Nat → Json → Option BodyItem
  | 0, _ => none
  | n + 1, j => do
    let (label, some contents) ← j.variant? | none
    if label == "Function".toList then (FunctionBody.ofJson? contents).map function
    else if label == "Definition".toList then (ObjectDecl.ofJson? contents).map object
    else if label == "Type".toList then (TypeDecl.ofJson? contents).map type
    else if label == "Comment".toList then (Comment.ofJson? contents).map comment
    else if label == "Blocks".toList then (contents.list (decode n)).map items
    else none

/-- Decodes the contents of a package body. -/
def ofJson? (j : Json) : Option BodyItem := decode (j.depth + 1) j

end BodyItem

namespace PackageBody

/-- Encodes a package body. -/
def json (b : PackageBody) : Json := .record [("name", b.name.json), ("body", b.body.json)]

/-- Decodes a package body. -/
def ofJson? (j : Json) : Option PackageBody := do
  let [name, body] ← j.record? ["name", "body"] | none
  let name ← Json.required Ident.ofJson? name
  let body ← Json.required BodyItem.ofJson? body
  some ⟨name, body⟩

end PackageBody

namespace ContextClause

/-- Encodes a context clause. -/
def json : ContextClause → Json
  | library name => .variant "Library" name.json
  | use path all =>
    .variant "Use" (.record [("path", .array (path.map Ident.json)), ("all", .bool all)])

/-- Decodes a context clause. -/
def ofJson? (j : Json) : Option ContextClause := do
  let (label, some contents) ← j.variant? | none
  if label == "Library".toList then (Ident.ofJson? contents).map library
  else if label == "Use".toList then do
    let [path, all] ← contents.fields? ["path", "all"] | none
    let path ← Json.required (Json.list Ident.ofJson?) path
    let all ← Json.required Json.bool? all
    some (use path all)
  else none

end ContextClause

/-! ## Files -/

namespace DesignFile

/-- Encodes a file. -/
def json (f : DesignFile) : Json :=
  .record [("header", .array (f.header.map Comment.json)),
    ("includes", .array (f.context.map ContextClause.json)),
    ("packages", .array (f.packages.map Package.json)),
    ("package_bodies", .array (f.packageBodies.map PackageBody.json)),
    ("entities", .array (f.entities.map Interface.json)),
    ("architectures", .array (f.architectures.map Architecture.json))]

/-- Decodes a file. -/
def ofJson? (j : Json) : Option DesignFile := do
  let [header, context, packages, packageBodies, entities, architectures] ←
    j.record? ["header", "includes", "packages", "package_bodies", "entities", "architectures"]
    | none
  let header ← Json.required (Json.list Comment.ofJson?) header
  let context ← Json.required (Json.list ContextClause.ofJson?) context
  let packages ← Json.required (Json.list Package.ofJson?) packages
  let packageBodies ← Json.required (Json.list PackageBody.ofJson?) packageBodies
  let entities ← Json.required (Json.list Interface.ofJson?) entities
  let architectures ← Json.required (Json.list Architecture.ofJson?) architectures
  some ⟨header, context, packages, packageBodies, entities, architectures⟩

end DesignFile
end CanonicalVhdl
