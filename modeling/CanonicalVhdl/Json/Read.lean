import CanonicalVhdl.Json.Basic
import CanonicalVhdl.Lexical.Digit

/-!
# Reading JSON

Of several fields with the same name the last one counts.  A number without
fraction and exponent is an integer if it takes 64 bits, with or without a sign;
any other number is real.

A real number is formed in two steps, each of which rounds: its leading digits, as
many as make an integer of 64 bits, and their product with or quotient by a power
of ten.

## Main definitions

* `Json.read` — reads a value that takes up the whole text.
* `Json.readNumber`, `Json.readString` — the scalar forms.
-/

namespace CanonicalVhdl

namespace Real64

/-- The magnitude as a fraction. -/
def fraction (x : Real64) : Nat × Nat := scaled x.significand 1 (-x.scale)

/-- The number nearest to a fraction, when it is finite. -/
def ofFraction? (num den : Nat) : Option Real64 :=
  ofPattern? false (if num == 0 then 0 else patternOfQuotient num den)

/-- The product of two magnitudes, when it is finite. -/
def times? (x y : Real64) : Option Real64 :=
  ofFraction? (x.fraction.1 * y.fraction.1) (x.fraction.2 * y.fraction.2)

/-- The quotient of two magnitudes, when it is finite. -/
def over? (x y : Real64) : Option Real64 :=
  ofFraction? (x.fraction.1 * y.fraction.2) (x.fraction.2 * y.fraction.1)

/-- The greatest power of ten that is finite. -/
def greatestTen : Nat := 308

/-- Divides by `10 ^ exponent`, and first by the greatest power of ten as long as
the exponent is beyond that.  The first argument bounds the number of divisions. -/
def shiftDown? : Nat → Real64 → Nat → Option Real64
  | 0, _, _ => ofPattern? false 0
  | fuel + 1, x, exponent =>
    if exponent ≤ greatestTen then (ofDecimal? false 1 exponent).bind x.over?
    else if x.pattern == 0 then some x
    else do
      let step ← ofDecimal? false 1 greatestTen
      let x ← x.over? step
      shiftDown? fuel x (exponent - greatestTen)

/-- The product of a rounded integer and a rounded power of ten, when it is finite. -/
def ofParts? (digits : Nat) (exponent : Int) : Option Real64 := do
  let x ← ofFraction? digits 1
  if exponent < 0 then shiftDown? 4 x exponent.natAbs
  else if exponent.natAbs ≤ greatestTen then
    (ofDecimal? false 1 exponent).bind x.times?
  else if x.pattern == 0 then some x
  else none

end Real64

namespace Json

open Text

/-! ## Numbers -/

/-- The greatest integer of 64 bits without a sign. -/
def greatestWord : Nat := 18446744073709551615

/-- Appends decimal digits to an integer as long as it takes 64 bits.  Gives the
integer, and how many digits it took. -/
def absorb (n : Nat) (taken : Nat) : Text → Nat × Nat
  | [] => (n, taken)
  | d :: rest =>
    let next := 10 * n + (d.toNat - '0'.toNat)
    if next ≤ greatestWord then absorb next (taken + 1) rest else (n, taken)

/-- The digits at the head of a text, and the rest. -/
def takeDigits (t : Text) : Text × Text :=
  (t.takeWhile Char.isDigit, t.dropWhile Char.isDigit)

/-- The digits of a fraction after a point, and the rest; none without a point. -/
def readFraction : Text → Option (Text × Text)
  | '.' :: rest =>
    let (digits, rest) := takeDigits rest
    if digits.isEmpty then none else some (digits, rest)
  | t => some ([], t)

/-- The exponent after an `e`, if there is one, and the rest. -/
def readExponent : Text → Option (Option Int × Text)
  | e :: rest =>
    if e == 'e' || e == 'E' then
      let negative := rest.head? == some '-'
      let rest := if rest.head?.any fun c => c == '-' || c == '+' then rest.drop 1 else rest
      let (digits, rest) := takeDigits rest
      if digits.isEmpty then none
      else
        let n : Int := digitsValue digits
        some (some (if negative then -n else n), rest)
    else some (none, e :: rest)
  | [] => some (none, [])

/-- Whether digits can stand before the point: only a lone zero starts with zero. -/
def isWhole (digits : Text) : Bool :=
  !digits.isEmpty && (digits.head? != some '0' || digits.length == 1)

/-- The real number of a sign, an integer and a power of ten. -/
def realOf? (negative : Bool) (digits : Nat) (exponent : Int) : Option Json :=
  (Real64.ofParts? digits exponent).map fun x => real { x with negative := negative }

/-- Reads the number at the head of a text. -/
def readNumber (t : Text) : Option (Json × Text) := do
  let negative := t.head? == some '-'
  let (whole, rest) := takeDigits (if negative then t.drop 1 else t)
  if !isWhole whole then none
  else
    let (fraction, rest) ← readFraction rest
    let (exponent, rest) ← readExponent rest
    let (n, taken) := absorb 0 0 whole
    let dropped : Int := (whole.length - taken : Nat)
    if fraction.isEmpty && exponent.isNone && dropped == 0
        && !(negative && (n == 0 || Nat.pow 2 63 < n)) then
      some (integer (if negative then -n else n), rest)
    else
      let (n, places) := absorb n 0 fraction
      let value ← realOf? negative n (dropped - places + exponent.getD 0)
      some (value, rest)

/-! ## Strings -/

/-- The character that an escape letter stands for. -/
def unescape? (c : Char) : Option Char :=
  match c with
  | '"' | '\\' | '/' => some c
  | 'b' => some '\x08'
  | 'f' => some '\x0c'
  | 'n' => some '\n'
  | 'r' => some '\r'
  | 't' => some '\t'
  | _ => none

/-- The number that four hexadecimal digits denote. -/
def unit? (digits : List Char) : Option Nat := do
  let values ← digits.mapM HexDigit.ofChar?
  some (values.foldl (fun n d => 16 * n + d.val) 0)

/-- The character of two halves of a pair, when they are that. -/
def pair? (high low : Nat) : Option Char :=
  if 0xDC00 ≤ low && low ≤ 0xDFFF then
    some (Char.ofNat (0x10000 + (high - 0xD800) * 1024 + (low - 0xDC00)))
  else none

/-- Reads a string from after its quotation mark.  The characters in `found` come
before, in reverse; `high` is the first half of a pair whose second half follows. -/
def readString (found : Text) (high : Option Nat) : Text → Option (Text × Text)
  | '\\' :: 'u' :: a :: b :: c :: d :: rest => do
    let n ← unit? [a, b, c, d]
    match high with
    | some h => do
      let char ← pair? h n
      readString (char :: found) none rest
    | none =>
      if 0xD800 ≤ n && n ≤ 0xDBFF then readString found (some n) rest
      else if 0xDC00 ≤ n && n ≤ 0xDFFF then none
      else readString (Char.ofNat n :: found) none rest
  | '\\' :: c :: rest =>
    if high.isSome then none else (unescape? c).bind fun c => readString (c :: found) none rest
  | c :: rest =>
    if high.isSome || c.toNat < 32 then none
    else if c == '"' then some (found.reverse, rest)
    else readString (c :: found) none rest
  | [] => none

/-! ## Values -/

/-- Drops the blanks that may stand between the parts of a value. -/
def skipBlank (t : Text) : Text :=
  t.dropWhile fun c => c == ' ' || c == '\t' || c == '\n' || c == '\r'

/-- The fields with a further one, which replaces an earlier one of its name. -/
def withField (fields : List (Text × Json)) (key : Text) (value : Json) : List (Text × Json) :=
  fields.filter (·.1 != key) ++ [(key, value)]

/-- Reads a constant or a number at the head of a text. -/
def readScalar (t : Text) : Option (Json × Text) :=
  match dropLead? "null".toList t, dropLead? "true".toList t, dropLead? "false".toList t with
  | some rest, _, _ => some (null, rest)
  | _, some rest, _ => some (bool true, rest)
  | _, _, some rest => some (bool false, rest)
  | none, none, none => readNumber t

mutual

/-- Reads the value at the head of a text.  The number bounds the number of steps. -/
def readValue : Nat → Text → Option (Json × Text)
  | 0, _ => none
  | fuel + 1, t =>
    match skipBlank t with
    | '"' :: rest => (readString [] none rest).map fun (s, rest) => (string s, rest)
    | '[' :: rest =>
      match skipBlank rest with
      | ']' :: rest => some (array [], rest)
      | _ => readItems fuel [] rest
    | '\x7b' :: rest =>
      match skipBlank rest with
      | '\x7d' :: rest => some (object [], rest)
      | _ => readFields fuel [] rest
    | t => readScalar t

/-- Reads the items of an array; those in `found` come before, in reverse. -/
def readItems : Nat → List Json → Text → Option (Json × Text)
  | 0, _, _ => none
  | fuel + 1, found, t => do
    let (item, rest) ← readValue fuel t
    match skipBlank rest with
    | ',' :: rest => readItems fuel (item :: found) rest
    | ']' :: rest => some (array (item :: found).reverse, rest)
    | _ => none

/-- Reads the fields of an object; those in `found` come before. -/
def readFields : Nat → List (Text × Json) → Text → Option (Json × Text)
  | 0, _, _ => none
  | fuel + 1, found, t =>
    match skipBlank t with
    | '"' :: rest => do
      let (key, rest) ← readString [] none rest
      match skipBlank rest with
      | ':' :: rest => do
        let (value, rest) ← readValue fuel rest
        let found := withField found key value
        match skipBlank rest with
        | ',' :: rest => readFields fuel found rest
        | '\x7d' :: rest => some (object found, rest)
        | _ => none
      | _ => none
    | _ => none

end

/-- Reads a value that takes up the whole text. -/
def read (t : Text) : Option Json := do
  let (value, rest) ← readValue (t.length + 1) t
  if (skipBlank rest).isEmpty then some value else none

end Json
end CanonicalVhdl
