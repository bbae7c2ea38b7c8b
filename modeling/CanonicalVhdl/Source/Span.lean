/-!
# Spans

A span is a range of bytes inside one of several files.  Its numbers have 32 bits;
offsets beyond that are cut to the greatest number.

## Main definitions

* `Span` — a range of bytes in a file; `Span.ofRange` cuts its offsets.
* `Span.cover` — the smallest span that covers two spans of one file.
-/

namespace CanonicalVhdl

/-- The number of a file. -/
abbrev FileId := UInt32

/-- The greatest number of 32 bits. -/
def maxOffset : Nat := 4294967295

/-- A number, or the greatest number of 32 bits when that is less. -/
def clampOffset (n : Nat) : UInt32 := UInt32.ofNat (min n maxOffset)

/-- The difference of two numbers, or zero when the second is greater. -/
def clampedSub (a b : UInt32) : UInt32 := if b ≤ a then a - b else 0

/-- A range of bytes in a file. -/
structure Span where
  /-- The file. -/
  file : FileId
  /-- The offset of the first byte. -/
  start : UInt32
  /-- The offset of the byte after the last one. -/
  stop : UInt32
deriving DecidableEq

namespace Span

/-- The span of a range whose offsets may be of any size. -/
def ofRange (file : FileId) (start stop : Nat) : Span :=
  ⟨file, clampOffset start, clampOffset stop⟩

/-- The number of bytes; a span whose end precedes its start has none. -/
def length (s : Span) : UInt32 := clampedSub s.stop s.start

/-- Whether the span has no bytes. -/
def isEmpty (s : Span) : Bool := decide (s.stop ≤ s.start)

/-- The smallest span that covers two spans of the same file. -/
def cover (s t : Span) : Option Span :=
  if s.file == t.file then some ⟨s.file, min s.start t.start, max s.stop t.stop⟩ else none

end Span
end CanonicalVhdl
