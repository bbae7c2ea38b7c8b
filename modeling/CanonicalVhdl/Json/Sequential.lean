import CanonicalVhdl.Json.Statement
import CanonicalVhdl.Sequential.Basic

/-!
# The JSON form of sequential code

## Main definitions

* `Choice.json`, `Choice.ofJson?` — choices.
* `Sequential.json`, `Sequential.ofJson?` — statements and regions.
* `Branch.json`, `Branch.ofJson?` — branches of `case` statements.
-/

namespace CanonicalVhdl

/-! ## Choices -/

namespace Choice

mutual

/-- Encodes a choice. -/
def json : Choice → Json
  | value e => .variant "Expression" e.json
  | range r => .variant "Range" r.json
  | alternatives choices => .variant "Selection" (.array (jsonAll choices))
  | others => .name "Others"

/-- Encodes choices. -/
def jsonAll : List Choice → List Json
  | [] => []
  | c :: cs => c.json :: jsonAll cs

end

/-- Decodes a choice; the number bounds how deep it may be nested. -/
def decode : Nat → Json → Option Choice
  | 0, _ => none
  | n + 1, j =>
    if j.label? == some "Others".toList then some others
    else do
      let (label, some c) ← j.variant? | none
      if label == "Expression".toList then (Expr.ofJson? c).map value
      else if label == "Range".toList then (Range.ofJson? c).map range
      else if label == "Selection".toList then (c.list (decode n)).map alternatives
      else none

/-- Decodes a choice. -/
def ofJson? (j : Json) : Option Choice := decode (j.depth + 1) j

end Choice

/-! ## Encoding -/

mutual

/-- Encodes sequential code. -/
def Sequential.json : Sequential → Json
  | .simple s => .variant "Statement" s.json
  | .conditional condition body otherwise =>
    .variant "IfBlock" (.record [("condition", condition.json), ("body", body.json),
      ("otherwise", Sequential.jsonOption otherwise)])
  | .selection selector branches =>
    .variant "Case" (.record [("selector", selector.json),
      ("cases", .array (Branch.jsonAll branches))])
  | .loop parameter range body =>
    .variant "ForLoop" (.record [("iterator", parameter.json), ("range", range.json),
      ("body", body.json)])
  | .region elements => .variant "Blocks" (.array (Sequential.jsonAll elements))

/-- Encodes sequential code that may be missing. -/
def Sequential.jsonOption : Option Sequential → Json
  | none => .null
  | some s => s.json

/-- Encodes a list of sequential code. -/
def Sequential.jsonAll : List Sequential → List Json
  | [] => []
  | s :: ss => s.json :: Sequential.jsonAll ss

/-- Encodes a branch. -/
def Branch.json : Branch → Json
  | .mk choice body => .record [("condition", choice.json), ("body", body.json)]

/-- Encodes a list of branches. -/
def Branch.jsonAll : List Branch → List Json
  | [] => []
  | b :: bs => b.json :: Branch.jsonAll bs

end

/-! ## Decoding

The natural number bounds how deep a value may be nested. -/

mutual

/-- Decodes sequential code. -/
def Sequential.decode : Nat → Json → Option Sequential
  | 0, _ => none
  | n + 1, j => do
    let (label, some c) ← j.variant? | none
    if label == "Statement".toList then (Statement.ofJson? c).map .simple
    else if label == "IfBlock".toList then do
      let [condition, body, otherwise] ← c.record? ["condition", "body", "otherwise"] | none
      let condition ← Json.required Expr.ofJson? condition
      let body ← Json.required (Sequential.decode n) body
      let otherwise ← Json.optional (Sequential.decode n) otherwise
      some (.conditional condition body otherwise)
    else if label == "Case".toList then do
      let [selector, branches] ← c.record? ["selector", "cases"] | none
      let selector ← Json.required Expr.ofJson? selector
      let branches ← Json.required (Json.list (Branch.decode n)) branches
      some (.selection selector branches)
    else if label == "ForLoop".toList then do
      let [parameter, range, body] ← c.record? ["iterator", "range", "body"] | none
      let parameter ← Json.required Ident.ofJson? parameter
      let range ← Json.required Range.ofJson? range
      let body ← Json.required (Sequential.decode n) body
      some (.loop parameter range body)
    else if label == "Blocks".toList then (c.list (Sequential.decode n)).map .region
    else none

/-- Decodes a branch. -/
def Branch.decode : Nat → Json → Option Branch
  | 0, _ => none
  | n + 1, j => do
    let [choice, body] ← j.record? ["condition", "body"] | none
    let choice ← Json.required Choice.ofJson? choice
    let body ← Json.required (Sequential.decode n) body
    some (.mk choice body)

end

/-- Decodes sequential code. -/
def Sequential.ofJson? (j : Json) : Option Sequential := Sequential.decode (j.depth + 1) j

/-- Decodes a branch. -/
def Branch.ofJson? (j : Json) : Option Branch := Branch.decode (j.depth + 1) j

end CanonicalVhdl
