import CanonicalVhdl.Settings.Basic
import CanonicalVhdl.Toml.Read

/-!
# Reading settings

Every table and every key may be left out, but none that is unknown may be there.
A table may also be given as an array of its values in order.

## Main definitions

* `Settings.ofToml?` — the settings that a document describes.
* `Settings.read` — reads and checks settings.
-/

namespace CanonicalVhdl

namespace Toml

/-- The string that a value is. -/
def string? : Toml → Option Text
  | string s => some s
  | _ => none

/-- The truth value that a value is. -/
def boolean? : Toml → Option Bool
  | boolean b => some b
  | _ => none

/-- The strings of an array. -/
def strings? : Toml → Option (List Text)
  | array items => items.mapM string?
  | tables items => items.mapM string?
  | _ => none

/-- The values of a table's keys, all of which must be known; also those of an
array, in the order of the keys. -/
def fields? (keys : List String) : Toml → Option (List (Option Toml))
  | table _ entries =>
    if entries.all fun (key, _) => keys.any fun k => k.toList == key then
      some (keys.map fun k => (entries.find? (·.1 == k.toList)).map (·.2))
    else none
  | array items => some ((List.range keys.length).map (items[·]?))
  | tables items => some ((List.range keys.length).map (items[·]?))
  | _ => none

/-- Decodes a value that may be missing. -/
def orElse {α : Type} (value : α) (decode : Toml → Option α) : Option Toml → Option α
  | none => some value
  | some t => decode t

/-- Whether a value holds nothing. -/
def isBare : Toml → Bool
  | array items => items.isEmpty
  | tables items => items.isEmpty
  | table _ entries => entries.isEmpty
  | _ => false

/-- The name that a value chooses: a string, or the only key of a table, whose
value holds nothing. -/
def choice? : Toml → Option Text
  | string s => some s
  | table _ [(key, value)] => if value.isBare then some key else none
  | _ => none

end Toml

/-- Decodes where sources are. -/
def SourceSettings.ofToml? (t : Toml) : Option SourceSettings := do
  let [paths, extensions, exclude] ← t.fields? ["paths", "extensions", "exclude"] | none
  let standard : SourceSettings := {}
  let paths ← Toml.orElse standard.paths Toml.strings? paths
  let extensions ← Toml.orElse standard.extensions Toml.strings? extensions
  let exclude ← Toml.orElse standard.exclude Toml.strings? exclude
  some ⟨paths, extensions, exclude⟩

/-- Decodes how files are formatted. -/
def FormatSettings.ofToml? (t : Toml) : Option FormatSettings := do
  let [verify, newline] ← t.fields? ["verify_roundtrip", "final_newline"] | none
  let standard : FormatSettings := {}
  let verify ← Toml.orElse standard.verifyRoundTrip Toml.boolean? verify
  let newline ← Toml.orElse standard.finalNewline Toml.boolean? newline
  some ⟨verify, newline⟩

/-- Decodes the form of reports. -/
def ReportForm.ofToml? (t : Toml) : Option ReportForm := do
  let [report] ← t.fields? ["report"] | none
  Toml.orElse .text (fun value => value.choice?.bind ofLabel?) report

namespace Settings

/-- Decodes all settings. -/
def ofToml? (t : Toml) : Option Settings := do
  let [sources, format, check] ← t.fields? ["sources", "format", "check"] | none
  let standard : Settings := {}
  let sources ← Toml.orElse standard.sources SourceSettings.ofToml? sources
  let format ← Toml.orElse standard.format FormatSettings.ofToml? format
  let report ← Toml.orElse standard.report ReportForm.ofToml? check
  some ⟨sources, format, report⟩

/-- Why settings could not be read. -/
inductive ReadError where
  /-- The text is no document, or the document describes no settings. -/
  | malformed
  /-- The settings are unusable. -/
  | unusable (p : Problem)
deriving DecidableEq

/-- The message about settings that could not be read. -/
def ReadError.message : ReadError → Text
  | malformed => "failed to parse configuration: malformed document".toList
  | unusable p => "invalid configuration: ".toList ++ p.message

/-- Reads and checks settings. -/
def read (t : Text) : Except ReadError Settings :=
  match (Toml.read t).bind ofToml? with
  | none => .error .malformed
  | some s =>
    match s.problem? with
    | some p => .error (.unusable p)
    | none => .ok s

end Settings
end CanonicalVhdl
