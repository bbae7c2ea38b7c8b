import CanonicalVhdl.Lexical.Digit
import CanonicalVhdl.Number.Real

/-!
# Plain scalars of TOML

Numbers, dates and times are only recognised, because nothing here looks at their
values.

## Main definitions

* `Toml.isInteger`, `Toml.isReal` — numbers.
* `Toml.isDateTime` — dates, times, and both together.
* `Toml.splitPlain` — the plain scalar at the head of a text.
-/

namespace CanonicalVhdl.Toml

open Text

/-! ## Numbers -/

/-- Whether a text consists of digits of a kind with single underscores between them. -/
def isGroup (isDigit : Char → Bool) (t : Text) : Bool :=
  (splitOn '_' t).all fun part => !part.isEmpty && part.all isDigit

/-- Whether a character is a digit of a base of at most sixteen. -/
def isDigitOf (base : Nat) (c : Char) : Bool := (digitValue? base c).isSome

/-- The number that a group of digits denotes. -/
def groupValue (base : Nat) (t : Text) : Nat :=
  t.foldl (fun n c => ((digitValue? base c).map fun d => base * n + d).getD n) 0

/-- A text without a sign, and whether there was a minus. -/
def dropSign : Text → Bool × Text
  | '-' :: t => (true, t)
  | '+' :: t => (false, t)
  | t => (false, t)

/-- Whether a text is a whole decimal number: no zero precedes another digit. -/
def isWhole (t : Text) : Bool :=
  isGroup Char.isDigit t && (t.head? != some '0' || t.length == 1)

/-- Whether a text is an integer of 64 bits. -/
def isInteger (t : Text) : Bool :=
  let ofBase (base : Nat) (digits : Text) :=
    isGroup (isDigitOf base) digits && decide (groupValue base digits < Nat.pow 2 63)
  match t with
  | '0' :: 'x' :: digits => ofBase 16 digits
  | '0' :: 'o' :: digits => ofBase 8 digits
  | '0' :: 'b' :: digits => ofBase 2 digits
  | _ =>
    let (negative, digits) := dropSign t
    isWhole digits
      && decide (groupValue 10 digits ≤ (if negative then Nat.pow 2 63 else Nat.pow 2 63 - 1))

/-- The parts before and after the first exponent mark. -/
def splitExponent (t : Text) : Text × Option Text :=
  let isMark (c : Char) := c == 'e' || c == 'E'
  match t.dropWhile (!isMark ·) with
  | [] => (t, none)
  | _ :: exponent => (t.takeWhile (!isMark ·), some exponent)

/-- Whether a text is a real number without a sign and with a fraction or an
exponent; `bounded` asks for one that does not round to infinity. -/
def isDecimal (bounded : Bool) (t : Text) : Bool :=
  let (mantissa, exponent) := splitExponent t
  let whole := mantissa.takeWhile (· != '.')
  let fraction := (mantissa.dropWhile (· != '.')).drop 1
  let hasPoint := mantissa.contains '.'
  let (down, places) := dropSign (exponent.getD ['0'])
  let size : Int := groupValue 10 places
  let digits := groupValue 10 (whole ++ fraction)
  let scale := (if down then -size else size) - (fraction.filter (· != '_')).length
  isWhole whole && (hasPoint || exponent.isSome)
    && (!hasPoint || isGroup Char.isDigit fraction) && isGroup Char.isDigit places
    && (!bounded || (Real64.ofDecimal? false digits scale).isSome)

/-- Whether a text is a real number; infinities and missing numbers have names.  Only
a number below zero may be too large: it stands for infinity below zero. -/
def isReal (t : Text) : Bool :=
  let (negative, t) := dropSign t
  t == "inf".toList || t == "nan".toList || isDecimal (!negative) t

/-! ## Dates and times -/

/-- The number that exactly `n` digits at the head of a text denote, and the rest. -/
def takeNumber? (n : Nat) (t : Text) : Option (Nat × Text) :=
  let digits := t.take n
  if digits.length == n && digits.all Char.isDigit then some (groupValue 10 digits, t.drop n)
  else none

/-- The text after a character. -/
def dropChar? (c : Char) (t : Text) : Option Text := dropLead? [c] t

/-- The number of days of a month. -/
def daysOf (year month : Nat) : Nat :=
  if month == 2 then
    if year % 4 == 0 && (year % 100 != 0 || year % 400 == 0) then 29 else 28
  else if [4, 6, 9, 11].contains month then 30
  else 31

/-- The text after a date. -/
def dropDate? (t : Text) : Option Text := do
  let (year, t) ← takeNumber? 4 t
  let (month, t) ← takeNumber? 2 (← dropChar? '-' t)
  let (day, t) ← takeNumber? 2 (← dropChar? '-' t)
  if 1 ≤ month && month ≤ 12 && 1 ≤ day && day ≤ daysOf year month then some t else none

/-- The text after an hour and a minute. -/
def dropMinutes? (t : Text) : Option Text := do
  let (hour, t) ← takeNumber? 2 t
  let (minute, t) ← takeNumber? 2 (← dropChar? ':' t)
  if hour ≤ 23 && minute ≤ 59 then some t else none

/-- The text after a time of day; a leap second is allowed. -/
def dropTime? (t : Text) : Option Text := do
  let t ← dropMinutes? t
  let (second, t) ← takeNumber? 2 (← dropChar? ':' t)
  if 60 < second then none
  else
    match t with
    | '.' :: t => if t.head?.any Char.isDigit then some (t.dropWhile Char.isDigit) else none
    | t => some t

/-- Whether a text is an offset from universal time, or empty. -/
def isOffset (t : Text) : Bool :=
  match t with
  | [] => true
  | c :: rest =>
    if c == 'Z' || c == 'z' then rest.isEmpty
    else (c == '+' || c == '-') && dropMinutes? rest == some []

/-- Whether a text is a date, a time, or both. -/
def isDateTime (t : Text) : Bool :=
  match dropDate? t with
  | some [] => true
  | some (c :: time) => (c == 'T' || c == 't' || c == ' ') && (dropTime? time).any isOffset
  | none => dropTime? t == some []

/-! ## Cutting -/

/-- The characters of plain scalars. -/
def isPlainChar (c : Char) : Bool :=
  c.isAlphanum || c == '+' || c == '-' || c == '_' || c == '.' || c == ':'

/-- The plain scalar at the head of a text, and the rest.  A date may be followed
by a blank and a time. -/
def splitPlain (t : Text) : Text × Text :=
  let first := t.takeWhile isPlainChar
  let rest := t.dropWhile isPlainChar
  match rest with
  | ' ' :: c :: _ =>
    if dropDate? first == some [] && c.isDigit then
      (first ++ ' ' :: (rest.drop 1).takeWhile isPlainChar, (rest.drop 1).dropWhile isPlainChar)
    else (first, rest)
  | _ => (first, rest)

end CanonicalVhdl.Toml
