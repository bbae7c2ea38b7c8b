import CanonicalVhdl.Number.Integer

/-!
# Real numbers of 64 bits

Finite binary numbers of double precision, kept by sign and by the pattern of
their remaining 63 bits, which orders the magnitudes.

## Main definitions

* `Real64` — a finite number; `bits` is its full pattern.
* `Real64.significand`, `Real64.scale` — the magnitude as `significand · 2 ^ scale`.
* `Real64.ofDecimal?` — the number nearest to a decimal, ties to the even one.
-/

namespace CanonicalVhdl

/-- The bit pattern of infinity, which no finite magnitude reaches. -/
def infinityPattern : Nat := 2047 * Nat.pow 2 52

/-- A finite number of double precision. -/
structure Real64 where
  /-- The sign bit. -/
  negative : Bool
  /-- The pattern of exponent and fraction. -/
  pattern : Nat
  /-- The number is finite. -/
  finite : pattern < infinityPattern
deriving DecidableEq

namespace Real64

/-- All 64 bits. -/
def bits (x : Real64) : Nat :=
  if x.negative then Nat.pow 2 63 + x.pattern else x.pattern

/-- Equality of values: the two zeros are equal. -/
def same (x y : Real64) : Bool :=
  x.pattern == y.pattern && (x.negative == y.negative || x.pattern == 0)

/-- The integer factor of the magnitude. -/
def significand (x : Real64) : Nat :=
  if x.pattern < Nat.pow 2 52 then x.pattern else Nat.pow 2 52 + x.pattern % Nat.pow 2 52

/-- The power of two of the magnitude. -/
def scale (x : Real64) : Int :=
  if x.pattern < Nat.pow 2 52 then -1074 else (x.pattern / Nat.pow 2 52 : Nat) - 1075

/-- The number of a given sign and pattern, when it is finite. -/
def ofPattern? (negative : Bool) (pattern : Nat) : Option Real64 :=
  if h : pattern < infinityPattern then some ⟨negative, pattern, h⟩ else none

/-- The integer nearest to `num / den`, a half going to the even one. -/
def roundDiv (num den : Nat) : Nat :=
  let q := num / den
  let twice := 2 * (num % den)
  if twice < den || (twice == den && q % 2 == 0) then q else q + 1

/-- The quotient `num / den` divided by `2 ^ e`, as a fraction. -/
def scaled (num den : Nat) (e : Int) : Nat × Nat :=
  if e < 0 then (num * Nat.pow 2 e.natAbs, den) else (num, den * Nat.pow 2 e.natAbs)

/-- The pattern of the number nearest to the positive quotient `num / den`.  The
power of two is the least that leaves at most 53 bits, and at least -1074; adding
the significand to the exponent field carries into it when rounding overflows. -/
def patternOfQuotient (num den : Nat) : Nat :=
  let low : Int := max ((Nat.log2 num : Int) - Nat.log2 den - 53) (-1074)
  let (n, d) := scaled num den low
  let e := if Nat.pow 2 53 * d ≤ n then low + 1 else low
  let (n, d) := scaled num den e
  (e + 1074).toNat * Nat.pow 2 52 + roundDiv n d

/-- The number nearest to `digits · 10 ^ exponent`, when it is finite. -/
def ofDecimal? (negative : Bool) (digits : Nat) (exponent : Int) : Option Real64 :=
  let size := exponent + (Nat.repr digits).length
  if digits == 0 || size < -400 then ofPattern? negative 0
  else if 400 < size then none
  else if exponent < 0 then
    ofPattern? negative (patternOfQuotient digits (Nat.pow 10 exponent.natAbs))
  else ofPattern? negative (patternOfQuotient (digits * Nat.pow 10 exponent.natAbs) 1)

end Real64
end CanonicalVhdl
