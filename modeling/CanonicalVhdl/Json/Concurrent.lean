import CanonicalVhdl.Concurrent.Basic
import CanonicalVhdl.Json.Sequential

/-!
# The JSON form of concurrent code

## Main definitions

* `ConditionalWaveform.json`, `Waveform.json`, `ConcurrentStatement.json` — assignments.
* `ProcessStatement.json`, `Association.json`, `Instance.json` — processes and instances.
* `Concurrent.json`, `Concurrent.ofJson?` — statements and regions.

The decoders stand beside the encoders and are named `ofJson?`.
-/

namespace CanonicalVhdl

/-! ## Assignments -/

namespace ConditionalWaveform

/-- Encodes a chain. -/
def json : ConditionalWaveform → Json
  | value e => .variant "Value" e.json
  | choose v c rest =>
    .variant "When" (.record [("value", v.json), ("condition", c.json), ("otherwise", rest.json)])

/-- Decodes a chain; the number bounds how deep it may be nested. -/
def decode : Nat → Json → Option ConditionalWaveform
  | 0, _ => none
  | n + 1, j => do
    let (label, some contents) ← j.variant? | none
    if label == "Value".toList then (Expr.ofJson? contents).map value
    else if label == "When".toList then do
      let [v, c, rest] ← contents.fields? ["value", "condition", "otherwise"] | none
      let v ← Json.required Expr.ofJson? v
      let c ← Json.required Expr.ofJson? c
      let rest ← Json.required (decode n) rest
      some (choose v c rest)
    else none

/-- Decodes a chain. -/
def ofJson? (j : Json) : Option ConditionalWaveform := decode (j.depth + 1) j

end ConditionalWaveform

namespace Waveform

/-- Encodes the value of an assignment. -/
def json : Waveform → Json
  | plain e => .variant "Expression" e.json
  | conditional chain => .variant "When" chain.json

/-- Decodes the value of an assignment. -/
def ofJson? (j : Json) : Option Waveform := do
  let (label, some contents) ← j.variant? | none
  if label == "Expression".toList then (Expr.ofJson? contents).map plain
  else if label == "When".toList then (ConditionalWaveform.ofJson? contents).map conditional
  else none

end Waveform

namespace ConcurrentStatement

/-- Encodes a statement. -/
def json : ConcurrentStatement → Json
  | assignment target value =>
    .variant "Assignment" (.record [("target", target.json), ("value", value.json)])
  | comment c => .variant "Comment" c.json

/-- Decodes a statement. -/
def ofJson? (j : Json) : Option ConcurrentStatement := do
  let (label, some contents) ← j.variant? | none
  if label == "Assignment".toList then do
    let [target, value] ← contents.fields? ["target", "value"] | none
    let target ← Json.required Reference.ofJson? target
    let value ← Json.required Waveform.ofJson? value
    some (assignment target value)
  else if label == "Comment".toList then (Comment.ofJson? contents).map comment
  else none

end ConcurrentStatement

/-! ## Processes and instances -/

namespace ProcessStatement

/-- Encodes a process. -/
def json (p : ProcessStatement) : Json :=
  .record [("label", Ident.jsonOption p.label),
    ("sensitivity", .array (p.sensitivity.map Ident.json)),
    ("declarations", .array (p.declarations.map Statement.json)), ("body", p.body.json)]

/-- Decodes a process. -/
def ofJson? (j : Json) : Option ProcessStatement := do
  let [label, sensitivity, declarations, body] ←
    j.record? ["label", "sensitivity", "declarations", "body"] | none
  let label ← Json.optional Ident.ofJson? label
  let sensitivity ← Json.required (Json.list Ident.ofJson?) sensitivity
  let declarations ← Json.required (Json.list Statement.ofJson?) declarations
  let body ← Json.required Sequential.ofJson? body
  some ⟨label, sensitivity, declarations, body⟩

end ProcessStatement

namespace Actual

/-- Encodes an actual. -/
def json : Actual → Json
  | value e => .variant "Expression" e.json
  | unconnected => .name "Open"

/-- Decodes an actual. -/
def ofJson? (j : Json) : Option Actual :=
  if j.label? == some "Open".toList then some unconnected
  else do
    let (label, some contents) ← j.variant? | none
    if label == "Expression".toList then (Expr.ofJson? contents).map value else none

end Actual

namespace Association

/-- Encodes an association. -/
def json (a : Association) : Json :=
  .record [("formal", .ofOption (a.formal.map Reference.json)), ("actual", a.actual.json)]

/-- Decodes an association. -/
def ofJson? (j : Json) : Option Association := do
  let [formal, actual] ← j.record? ["formal", "actual"] | none
  let formal ← Json.optional Reference.ofJson? formal
  let actual ← Json.required Actual.ofJson? actual
  some ⟨formal, actual⟩

end Association

namespace InstanceSource

/-- Encodes the source of an instance. -/
def json : InstanceSource → Json
  | component n => .variant "Component" n.json
  | entity library n architecture =>
    .variant "Entity" (.record [("library", library.json), ("name", n.json),
      ("architecture", Ident.jsonOption architecture)])

/-- Decodes the source of an instance. -/
def ofJson? (j : Json) : Option InstanceSource := do
  let (label, some contents) ← j.variant? | none
  if label == "Component".toList then (Ident.ofJson? contents).map component
  else if label == "Entity".toList then do
    let [library, n, architecture] ← contents.fields? ["library", "name", "architecture"] | none
    let library ← Json.required Ident.ofJson? library
    let n ← Json.required Ident.ofJson? n
    let architecture ← Json.optional Ident.ofJson? architecture
    some (entity library n architecture)
  else none

end InstanceSource

namespace Instance

/-- Encodes an instance. -/
def json (i : Instance) : Json :=
  .record [("label", i.label.json), ("unit", i.source.json),
    ("generic_map", .array (i.generics.map Association.json)),
    ("port_map", .array (i.ports.map Association.json))]

/-- Decodes an instance. -/
def ofJson? (j : Json) : Option Instance := do
  let [label, source, generics, ports] ←
    j.record? ["label", "unit", "generic_map", "port_map"] | none
  let label ← Json.required Ident.ofJson? label
  let source ← Json.required InstanceSource.ofJson? source
  let generics ← Json.required (Json.list Association.ofJson?) generics
  let ports ← Json.required (Json.list Association.ofJson?) ports
  some ⟨label, source, generics, ports⟩

end Instance

/-! ## Statements and regions -/

namespace Concurrent

mutual

/-- Encodes concurrent code. -/
def json : Concurrent → Json
  | simple s => .variant "Statement" s.json
  | process p => .variant "Process" p.json
  | component i => .variant "Component" i.json
  | generate label parameter range body =>
    .variant "Generate" (.record [("label", label.json), ("iterator", parameter.json),
      ("range", range.json), ("body", body.json)])
  | region elements => .variant "Blocks" (.array (jsonAll elements))

/-- Encodes a list of concurrent code. -/
def jsonAll : List Concurrent → List Json
  | [] => []
  | c :: cs => c.json :: jsonAll cs

end

/-- Decodes concurrent code; the number bounds how deep it may be nested. -/
def decode : Nat → Json → Option Concurrent
  | 0, _ => none
  | n + 1, j => do
    let (label, some contents) ← j.variant? | none
    if label == "Statement".toList then (ConcurrentStatement.ofJson? contents).map simple
    else if label == "Process".toList then (ProcessStatement.ofJson? contents).map process
    else if label == "Component".toList then (Instance.ofJson? contents).map component
    else if label == "Generate".toList then do
      let [label, parameter, range, body] ←
        contents.record? ["label", "iterator", "range", "body"] | none
      let label ← Json.required Ident.ofJson? label
      let parameter ← Json.required Ident.ofJson? parameter
      let range ← Json.required Range.ofJson? range
      let body ← Json.required (decode n) body
      some (generate label parameter range body)
    else if label == "Blocks".toList then (contents.list (decode n)).map region
    else none

/-- Decodes concurrent code. -/
def ofJson? (j : Json) : Option Concurrent := decode (j.depth + 1) j

end Concurrent
end CanonicalVhdl
