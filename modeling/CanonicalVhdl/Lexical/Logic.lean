import CanonicalVhdl.Text.Basic

/-!
# Single-bit values

The two values of type `bit` and the nine values of `std_logic`.

## Main definitions

* `Bit`, `Logic` — the values; `ofChar?` and `char` read and write them.
* `Logic.bit?`, `Bit.logic` — the two-state values among the nine.
-/

namespace CanonicalVhdl

/-- A two-state value. -/
inductive Bit where
  /-- The value written `0`. -/
  | low
  /-- The value written `1`. -/
  | high
deriving DecidableEq, Repr

namespace Bit

/-- Every value. -/
def all : List Bit := [low, high]

/-- The character of a value. -/
def char : Bit → Char
  | low => '0'
  | high => '1'

/-- The value that a character stands for. -/
def ofChar? (c : Char) : Option Bit :=
  all.find? (·.char == c)

/-- The name of a value in the JSON form of trees. -/
def label : Bit → String
  | low => "Low"
  | high => "High"

end Bit

/-- A nine-state value. -/
inductive Logic where
  /-- Not yet assigned, written `U`. -/
  | uninitialized
  /-- Forcing unknown, written `X`. -/
  | unknown
  /-- Forcing low, written `0`. -/
  | low
  /-- Forcing high, written `1`. -/
  | high
  /-- High impedance, written `Z`. -/
  | highImpedance
  /-- Weak unknown, written `W`. -/
  | weakUnknown
  /-- Weak low, written `L`. -/
  | weakLow
  /-- Weak high, written `H`. -/
  | weakHigh
  /-- Of no interest, written as a hyphen. -/
  | dontCare
deriving DecidableEq, Repr

namespace Logic

/-- Every value. -/
def all : List Logic :=
  [uninitialized, unknown, low, high, highImpedance, weakUnknown, weakLow, weakHigh, dontCare]

/-- The character of a value, letters in upper case. -/
def char : Logic → Char
  | uninitialized => 'U'
  | unknown => 'X'
  | low => '0'
  | high => '1'
  | highImpedance => 'Z'
  | weakUnknown => 'W'
  | weakLow => 'L'
  | weakHigh => 'H'
  | dontCare => '-'

/-- The value that a character stands for, letters in either case. -/
def ofChar? (c : Char) : Option Logic :=
  all.find? (·.char == c.toUpper)

/-- The name of a value in the JSON form of trees. -/
def label : Logic → String
  | uninitialized => "Uninitialized"
  | unknown => "Unknown"
  | low => "Low"
  | high => "High"
  | highImpedance => "HighImpedance"
  | weakUnknown => "WeakSignal"
  | weakLow => "WeakLow"
  | weakHigh => "WeakHigh"
  | dontCare => "DontCare"

/-- The equal two-state value. -/
def bit? : Logic → Option Bit
  | low => some .low
  | high => some .high
  | _ => none

end Logic

/-- The equal nine-state value. -/
def Bit.logic : Bit → Logic
  | .low => .low
  | .high => .high

end CanonicalVhdl
