import CanonicalVhdl.Number.Shortest

/-!
# JSON

Values, their two written forms, and the pieces from which trees are encoded and
decoded.  A variant with contents is an object with one field named for the
variant; one without contents is a string.

## Main definitions

* `Json` — values; objects keep the order of their fields.
* `Json.compact`, `Json.pretty` — the written forms.
* `Json.variant`, `Json.variant?`, `Json.record?` — variants and records.
* `Json.depth` — a bound for decoders.
-/

namespace CanonicalVhdl

/-- A JSON value. -/
inductive Json where
  /-- The value `null`. -/
  | null
  /-- A truth value. -/
  | bool (b : Bool)
  /-- A number without fraction and exponent. -/
  | integer (n : Int)
  /-- Any other number. -/
  | real (x : Real64)
  /-- A string. -/
  | string (s : Text)
  /-- An array. -/
  | array (items : List Json)
  /-- An object. -/
  | object (fields : List (Text × Json))

namespace Json

/-! ## Writing -/

/-- A character inside a string: quotation marks, backslashes and control
characters are escaped. -/
def escapeChar (c : Char) : Text :=
  if c == '"' then "\\\"".toList
  else if c == '\\' then "\\\\".toList
  else if c == '\n' then "\\n".toList
  else if c == '\r' then "\\r".toList
  else if c == '\t' then "\\t".toList
  else if c == '\x08' then "\\b".toList
  else if c == '\x0c' then "\\f".toList
  else if c.toNat < 32 then
    "\\u00".toList ++ (if c.toNat < 16 then ['0'] else []) ++ Nat.toDigits 16 c.toNat
  else [c]

/-- A string between quotation marks. -/
def stringText (s : Text) : Text :=
  '"' :: (s.flatMap escapeChar ++ ['"'])

mutual

/-- A value on one line, without blanks. -/
def compact : Json → Text
  | null => "null".toList
  | bool b => (if b then "true" else "false").toList
  | integer n => Text.ofInt n
  | real x => x.jsonText
  | string s => stringText s
  | array items => '[' :: (Text.join [','] (compactItems items) ++ [']'])
  | object fields => '\x7b' :: (Text.join [','] (compactFields fields) ++ ['\x7d'])

/-- The items of an array. -/
def compactItems : List Json → List Text
  | [] => []
  | item :: items => item.compact :: compactItems items

/-- The fields of an object. -/
def compactFields : List (Text × Json) → List Text
  | [] => []
  | (key, value) :: fields => (stringText key ++ ':' :: value.compact) :: compactFields fields

end

/-- A line end followed by the indentation of a level. -/
def lineStart (level : Nat) : Text :=
  '\n' :: List.replicate (2 * level) ' '

/-- Entries between brackets, each on a line of its own. -/
def bracketed (level : Nat) (opening closing : Char) (entries : List Text) : Text :=
  if entries.isEmpty then [opening, closing]
  else
    opening :: (lineStart (level + 1) ++ Text.join (',' :: lineStart (level + 1)) entries
      ++ lineStart level ++ [closing])

mutual

/-- A value over several lines, the first of which stands at the given level. -/
def pretty (level : Nat) : Json → Text
  | null => "null".toList
  | bool b => (if b then "true" else "false").toList
  | integer n => Text.ofInt n
  | real x => x.jsonText
  | string s => stringText s
  | array items => bracketed level '[' ']' (prettyItems (level + 1) items)
  | object fields => bracketed level '\x7b' '\x7d' (prettyFields (level + 1) fields)

/-- The items of an array at the given level. -/
def prettyItems (level : Nat) : List Json → List Text
  | [] => []
  | item :: items => item.pretty level :: prettyItems level items

/-- The fields of an object at the given level. -/
def prettyFields (level : Nat) : List (Text × Json) → List Text
  | [] => []
  | (key, value) :: fields =>
    (stringText key ++ ": ".toList ++ value.pretty level) :: prettyFields level fields

end

/-! ## Depth -/

mutual

/-- How deep arrays and objects are nested. -/
def depth : Json → Nat
  | array items => depthItems items + 1
  | object fields => depthFields fields + 1
  | _ => 0

/-- The greatest depth of some items. -/
def depthItems : List Json → Nat
  | [] => 0
  | item :: items => max item.depth (depthItems items)

/-- The greatest depth of some fields. -/
def depthFields : List (Text × Json) → Nat
  | [] => 0
  | (_, value) :: fields => max value.depth (depthFields fields)

end

/-! ## Encoding -/

/-- A string constant. -/
def name (s : String) : Json := string s.toList

/-- A variant with contents. -/
def variant (label : String) (contents : Json) : Json :=
  object [(label.toList, contents)]

/-- A record. -/
def record (fields : List (String × Json)) : Json :=
  object (fields.map fun (key, value) => (key.toList, value))

/-- A value that may be missing. -/
def ofOption : Option Json → Json
  | none => null
  | some j => j

/-! ## Decoding -/

/-- The string that a value is. -/
def string? : Json → Option Text
  | string s => some s
  | _ => none

/-- The items of an array. -/
def items? : Json → Option (List Json)
  | array items => some items
  | _ => none

/-- The truth value that a value is. -/
def bool? : Json → Option Bool
  | bool b => some b
  | _ => none

/-- The number that a value is; any number counts as real. -/
def real? : Json → Option Real64
  | real x => some x
  | integer n => Real64.ofDecimal? (n < 0) n.natAbs 0
  | _ => none

/-- The integer of 64 bits that a value is. -/
def integer? : Json → Option Integer64
  | integer n => Integer64.ofInt? n
  | _ => none

/-- The value of a field. -/
def field? (fields : List (Text × Json)) (key : String) : Option Json :=
  (fields.find? (·.1 == key.toList)).map (·.2)

/-- The fields of a variant's record, those that are missing as `none`. -/
def fields? (keys : List String) : Json → Option (List (Option Json))
  | object fields => some (keys.map (field? fields))
  | _ => none

/-- The fields of a record, which may also be given as an array in order. -/
def record? (keys : List String) : Json → Option (List (Option Json))
  | array items => if items.length == keys.length then some (items.map some) else none
  | j => fields? keys j

/-- The label of a variant, and its contents if it has any. -/
def variant? : Json → Option (Text × Option Json)
  | string s => some (s, none)
  | object [(key, value)] => some (key, some value)
  | _ => none

/-- The label of a variant without contents. -/
def label? (j : Json) : Option Text :=
  match j.variant? with
  | some (label, none) | some (label, some null) => some label
  | _ => none

/-- The member of a list whose label a value is. -/
def labelled? {α : Type} (all : List α) (label : α → String) (j : Json) : Option α :=
  j.label?.bind fun l => all.find? fun a => (label a).toList == l

/-- Decodes a field that must be present. -/
def required {α : Type} (decode : Json → Option α) : Option Json → Option α
  | none => none
  | some j => decode j

/-- Decodes a field that may be missing or null. -/
def optional {α : Type} (decode : Json → Option α) : Option Json → Option (Option α)
  | none | some null => some none
  | some j => (decode j).map some

/-- Decodes an array. -/
def list {α : Type} (decode : Json → Option α) (j : Json) : Option (List α) :=
  j.items?.bind fun items => items.mapM decode

end Json
end CanonicalVhdl
