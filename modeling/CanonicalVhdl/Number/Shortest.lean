import CanonicalVhdl.Number.Real

/-!
# Shortest decimals

The decimal with the fewest digits that reads back as a given number, and of those
the nearest.  Two ways of writing it are in use: positional, and with an exponent
for very large and very small numbers.

## Main definitions

* `Decimal` — a decimal as digits and a power of ten.
* `Real64.shortest tieUp x` — the shortest decimal; `tieUp` decides an exact tie.
* `Decimal.positional`, `Decimal.compact` — the two ways of writing.
-/

namespace CanonicalVhdl

/-- The decimal `digits · 10 ^ exponent`. -/
structure Decimal where
  /-- The significant digits. -/
  digits : Nat
  /-- The power of ten. -/
  exponent : Int
deriving DecidableEq, Repr

namespace Decimal

/-- Moves trailing zeros into the exponent, at most `fuel` of them. -/
def normalise : Nat → Decimal → Decimal
  | 0, d => d
  | fuel + 1, d =>
    if d.digits != 0 && d.digits % 10 == 0 then normalise fuel ⟨d.digits / 10, d.exponent + 1⟩
    else d

end Decimal

namespace Real64

/-- The reals that round to a number: the number itself and the two ends, over
one denominator. -/
structure Interval where
  /-- Numerator of the lower end. -/
  lower : Nat
  /-- Numerator of the number. -/
  value : Nat
  /-- Numerator of the upper end. -/
  upper : Nat
  /-- The common denominator. -/
  denominator : Nat
  /-- Whether the ends round to the number as well. -/
  closed : Bool

/-- The reals that round to the magnitude of `x`.  Below a power of two the next
number is half as far away. -/
def interval (x : Real64) : Interval :=
  let m := x.significand
  let below := if m == Nat.pow 2 52 && -1074 < x.scale then 1 else 2
  let up := if x.scale < 0 then 1 else Nat.pow 2 x.scale.natAbs
  let down := if x.scale < 0 then Nat.pow 2 x.scale.natAbs else 1
  ⟨(4 * m - below) * up, 4 * m * up, (4 * m + 2) * up, 4 * down, m % 2 == 0⟩

namespace Interval

/-- Whether `digits · 10 ^ exponent` lies in the interval. -/
def contains (i : Interval) (d : Decimal) : Bool :=
  let up := if d.exponent < 0 then 1 else Nat.pow 10 d.exponent.natAbs
  let down := if d.exponent < 0 then Nat.pow 10 d.exponent.natAbs else 1
  let point := d.digits * up * i.denominator
  if i.closed then i.lower * down ≤ point && point ≤ i.upper * down
  else i.lower * down < point && point < i.upper * down

/-- The exponent `k` with `10 ^ (k - 1) ≤ value < 10 ^ k`. -/
def magnitude (i : Interval) : Int :=
  let whole := i.value / i.denominator
  if whole != 0 then (Nat.repr whole).length
  else
    let n := (Nat.repr (i.denominator / i.value)).length
    if i.value * Nat.pow 10 (n - 1) == i.denominator then 2 - (n : Int) else 1 - (n : Int)

/-- The number's lower neighbour on the grid of spacing `10 ^ exponent`, and
twice the distance to it as a fraction of the spacing, compared with one. -/
def neighbour (i : Interval) (exponent : Int) : Nat × Ordering :=
  let num := if exponent < 0 then i.value * Nat.pow 10 exponent.natAbs else i.value
  let den := if exponent < 0 then i.denominator else i.denominator * Nat.pow 10 exponent.natAbs
  (num / den, compare (2 * (num % den)) den)

/-- The nearest decimal in the interval on the first grid that has one, starting
with `n` digits.  The first argument bounds the number of grids tried. -/
def firstHit (tieUp : Nat → Bool) (i : Interval) : Nat → Nat → Decimal
  | 0, n => ⟨(i.neighbour (i.magnitude - n)).1, i.magnitude - n⟩
  | fuel + 1, n =>
    let exponent := i.magnitude - n
    let (digits, half) := i.neighbour exponent
    let low : Decimal := ⟨digits, exponent⟩
    let high : Decimal := ⟨digits + 1, exponent⟩
    match i.contains low, i.contains high with
    | true, true =>
      if half == .lt || (half == .eq && !tieUp digits) then low else high
    | true, false => low
    | false, true => high
    | false, false => firstHit tieUp i fuel (n + 1)

end Interval

/-- The shortest decimal that reads back as the magnitude of `x`, the nearest of
those; `tieUp` tells from the lower one whether an exact tie goes up. -/
def shortest (tieUp : Nat → Bool) (x : Real64) : Decimal :=
  if x.pattern == 0 then ⟨0, 0⟩
  else (x.interval.firstHit tieUp 17 1).normalise 20

end Real64

namespace Decimal

/-- The decimal with all its places written out and at least one after the point. -/
def positional (d : Decimal) : Text :=
  let digits := Text.ofNat d.digits
  if 0 ≤ d.exponent then digits ++ List.replicate d.exponent.natAbs '0' ++ ".0".toList
  else
    let places := d.exponent.natAbs
    if places < digits.length then
      digits.take (digits.length - places) ++ '.' :: digits.drop (digits.length - places)
    else "0.".toList ++ List.replicate (places - digits.length) '0' ++ digits

/-- The decimal written out when its leading digit stands at most sixteen places
before and five places after the point, and with a signed exponent otherwise. -/
def compact (d : Decimal) : Text :=
  let digits := Text.ofNat d.digits
  let point := d.exponent + digits.length
  if d.digits == 0 || (-5 < point && point ≤ 16) then d.positional
  else
    let fraction := digits.drop 1
    digits.take 1 ++ (if fraction.isEmpty then [] else '.' :: fraction)
      ++ 'e' :: (if 0 < point then ['+'] else []) ++ Text.ofInt (point - 1)

end Decimal

namespace Real64

/-- The text of a real literal: every place written out, an exact tie going up. -/
def text (x : Real64) : Text :=
  let digits := (x.shortest fun _ => true).positional
  if x.negative then '-' :: digits else digits

/-- The text of a number in JSON: an exact tie goes to the even digit. -/
def jsonText (x : Real64) : Text :=
  let digits := (x.shortest fun low => low % 2 == 1).compact
  if x.negative then '-' :: digits else digits

end Real64
end CanonicalVhdl
