import CanonicalVhdl.Text.Basic

/-!
# Digits of bit strings

Hexadecimal and octal digits, kept by value and written with upper-case letters.
-/

namespace CanonicalVhdl

/-- The value of a digit in a base up to sixteen, letters in either case. -/
def digitValue? (base : Nat) (c : Char) : Option Nat :=
  let value :=
    if c.isDigit then some (c.toNat - '0'.toNat)
    else if 'a' ≤ c.toLower && c.toLower ≤ 'f' then some (c.toLower.toNat - 'a'.toNat + 10)
    else none
  value.filter (· < base)

/-- The character of a digit value below sixteen. -/
def digitChar (value : Nat) : Char :=
  Char.ofNat (if value < 10 then '0'.toNat + value else 'A'.toNat + (value - 10))

/-- A hexadecimal digit, by its value. -/
abbrev HexDigit := Fin 16

/-- An octal digit, by its value. -/
abbrev OctalDigit := Fin 8

/-- The digit of base `n` that a character stands for. -/
def digit? (n : Nat) (c : Char) : Option (Fin n) :=
  (digitValue? n c).bind fun value => if h : value < n then some ⟨value, h⟩ else none

namespace HexDigit

/-- The digit that a character stands for. -/
def ofChar? (c : Char) : Option HexDigit := digit? 16 c

/-- The digit as written. -/
def char (d : HexDigit) : Char := digitChar d.val

/-- The message about a character that is no hexadecimal digit. -/
def invalidMessage (c : Char) : Text :=
  ['\'', c, '\''] ++ " is not a hexadecimal digit".toList

end HexDigit

namespace OctalDigit

/-- The digit that a character stands for. -/
def ofChar? (c : Char) : Option OctalDigit := digit? 8 c

/-- The digit as written. -/
def char (d : OctalDigit) : Char := digitChar d.val

/-- The message about a character that is no octal digit. -/
def invalidMessage (c : Char) : Text :=
  ['\'', c, '\''] ++ " is not an octal digit".toList

end OctalDigit
end CanonicalVhdl
