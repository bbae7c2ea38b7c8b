import CanonicalVhdl.Text.Basic

/-!
# Integers of 64 bits

The integers that an integer literal can denote.
-/

namespace CanonicalVhdl

/-- The least integer a literal can denote. -/
def leastInteger : Int := -9223372036854775808

/-- The greatest integer a literal can denote. -/
def greatestInteger : Int := 9223372036854775807

/-- An integer of 64 bits. -/
structure Integer64 where
  /-- The value. -/
  val : Int
  /-- The value takes 64 bits. -/
  inRange : leastInteger ≤ val ∧ val ≤ greatestInteger
deriving DecidableEq

namespace Integer64

/-- The integer of a given value, when it is in range. -/
def ofInt? (n : Int) : Option Integer64 :=
  if h : leastInteger ≤ n ∧ n ≤ greatestInteger then some ⟨n, h⟩ else none

/-- The decimal form. -/
def text (n : Integer64) : Text :=
  Text.ofInt n.val

end Integer64

/-- The number that a list of decimal digits denotes. -/
def digitsValue (digits : Text) : Nat :=
  digits.foldl (fun n d => 10 * n + (d.toNat - '0'.toNat)) 0

end CanonicalVhdl
