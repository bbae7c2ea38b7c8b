import CanonicalVhdl.Source.Span
import CanonicalVhdl.Text.Basic

/-!
# Diagnostics

## Main definitions

* `Severity`, `DiagnosticCode` — how serious a problem is, and which kind.
* `Diagnostic` — a problem with its place and further remarks.
* `DiagnosticLog` — reported problems, and how many of them were serious.
-/

namespace CanonicalVhdl

/-- How serious a problem is. -/
inductive Severity where
  | note | warning | error
deriving DecidableEq, Repr

namespace Severity

/-- Every severity, the least serious first. -/
def all : List Severity := [note, warning, error]

/-- The name in messages. -/
def label : Severity → String
  | note => "note"
  | warning => "warning"
  | error => "error"

/-- The terminal's control sequence for the color of a severity. -/
def color : Severity → String
  | note => "\x1b[1;36m"
  | warning => "\x1b[1;33m"
  | error => "\x1b[1;31m"

end Severity

/-- The kinds of problems. -/
inductive DiagnosticCode where
  /-- A unit that starts with no word that a unit can start with. -/
  | unrecognizedUnit
  /-- A unit that is not of the form that its first words announce. -/
  | malformedUnit
  /-- A canonical text that does not read back. -/
  | roundTripMismatch
deriving DecidableEq, Repr

namespace DiagnosticCode

/-- Every kind. -/
def all : List DiagnosticCode := [unrecognizedUnit, malformedUnit, roundTripMismatch]

/-- The code in messages: a letter and three digits. -/
def text : DiagnosticCode → String
  | unrecognizedUnit => "E001"
  | malformedUnit => "E002"
  | roundTripMismatch => "W001"

/-- The name in the JSON form of diagnostics. -/
def label : DiagnosticCode → String
  | unrecognizedUnit => "UnrecognizedUnit"
  | malformedUnit => "MalformedUnit"
  | roundTripMismatch => "RoundTripMismatch"

/-- The severity, which the letter of the code tells. -/
def severity : DiagnosticCode → Severity
  | unrecognizedUnit | malformedUnit => .error
  | roundTripMismatch => .warning

end DiagnosticCode

/-- A problem. -/
structure Diagnostic where
  /-- How serious the problem is. -/
  severity : Severity
  /-- The kind of the problem. -/
  code : DiagnosticCode
  /-- The headline. -/
  message : Text
  /-- Where the problem is. -/
  span : Option Span := none
  /-- The text beside the underlined line. -/
  label : Option Text := none
  /-- Further remarks, a line each. -/
  notes : List Text := []
deriving DecidableEq

/-- The problems reported so far.  The counts also cover those taken out. -/
structure DiagnosticLog where
  /-- The problems not yet taken out, in order. -/
  entries : List Diagnostic
  /-- The number of errors. -/
  errors : Nat
  /-- The number of warnings. -/
  warnings : Nat
deriving DecidableEq

namespace DiagnosticLog

/-- Nothing reported. -/
def empty : DiagnosticLog := ⟨[], 0, 0⟩

/-- How many of some problems have a severity. -/
def count (severity : Severity) (ds : List Diagnostic) : Nat :=
  ds.countP (·.severity == severity)

/-- Reports problems in order. -/
def emitAll (log : DiagnosticLog) (ds : List Diagnostic) : DiagnosticLog :=
  ⟨log.entries ++ ds, log.errors + count .error ds, log.warnings + count .warning ds⟩

/-- Reports a problem. -/
def emit (log : DiagnosticLog) (d : Diagnostic) : DiagnosticLog := log.emitAll [d]

/-- Takes out the problems; the counts stay. -/
def taken (log : DiagnosticLog) : DiagnosticLog := { log with entries := [] }

/-- Whether an error was reported. -/
def hasErrors (log : DiagnosticLog) : Bool := decide (0 < log.errors)

end DiagnosticLog
end CanonicalVhdl
