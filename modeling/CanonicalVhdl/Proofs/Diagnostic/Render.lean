import CanonicalVhdl.Diagnostic.Render
import CanonicalVhdl.Proofs.Source.Line

/-!
# The numbers in written diagnostics

A line and a column are one more than a number of 32 bits, and the carets stand behind one blank
less than the column tells.  Here the sums and differences on the way to a quotation are taken
exactly: one that leaves its type gives no number.  There is one such place in a file of one line,
the greatest offset, which every greater offset is cut to: its column has 33 bits.

## Main definitions

* `exactSum?`, `exactDifference?` — sums and differences that stay in their type.
* `Diagnostic.exactRender?` — the form for people, unless a number on the way leaves its type.

## Main statements

* `Diagnostic.exactRender?_eq` — where the numbers of a written diagnostic stay in their types.
* `Diagnostic.exists_underline` — the blanks and the carets under a quoted line.
-/

namespace CanonicalVhdl

open Text

/-! ## Sums and differences -/

/-- The sum of two numbers of 32 bits, if it has 32 bits. -/
def exactSum? (a b : UInt32) : Option UInt32 :=
  if a.toNat + b.toNat ≤ maxOffset then some (a + b) else none

/-- The difference of two numbers, if the second is not greater. -/
def exactDifference? (m n : Nat) : Option Nat :=
  if n ≤ m then some (m - n) else none

theorem exactSum?_one (a : UInt32) :
    exactSum? a 1 = if a.toNat = maxOffset then none else some (a + 1) := by
  have hmax : maxOffset + 1 = 2 ^ 32 := rfl
  have hlt := a.toNat_lt
  rw [exactSum?, UInt32.toNat_one]
  by_cases h : a.toNat = maxOffset
  · rw [if_pos h, if_neg (by omega)]
  · rw [if_neg h, if_pos (by omega)]

/-- A sum with a number of 32 bits that stays in its type is the sum of the numbers. -/
theorem toNat_of_exactSum? {a b c : UInt32} (h : exactSum? a b = some c) :
    c.toNat = a.toNat + b.toNat := by
  obtain ⟨hle, hc⟩ := Option.ite_none_right_eq_some.1 h
  obtain rfl := Option.some.inj hc
  rw [UInt32.toNat_add, Nat.mod_eq_of_lt (Nat.lt_of_le_of_lt hle (by decide))]

/-! ## Texts of one line -/

/-- The line feeds among the bytes of a text are those among its characters. -/
theorem Text.count_bytes (t : Text) : (bytes t).count 10 = t.count '\n' := by
  induction t with
  | nil => rfl
  | cons c t ih =>
    rw [bytes_cons, List.count_append, ih]
    by_cases hc : c = '\n'
    · rw [hc, List.count_cons_self, Nat.add_comm]
      rfl
    · rw [List.count_cons_of_ne hc, count_utf8EncodeChar hc, Nat.zero_add]

/-- No line feed precedes an offset behind a text of one line. -/
theorem Text.breaksBefore_eq_zero_iff {t : Text} {n : Nat} (hn : byteLength t ≤ n) :
    breaksBefore t n = 0 ↔ '\n' ∉ t := by
  rw [breaksBefore, List.take_of_length_le (by rwa [length_bytes]), count_bytes, List.count_eq_zero]

namespace SourceFile

variable {f : SourceFile}

/-- The line and the column of an offset, unless one of them leaves its type. -/
def exactLineColumn? (f : SourceFile) (offset : UInt32) : Option (UInt32 × UInt32) := do
  let starts := f.lineStarts
  let index := (starts.takeWhile (· ≤ offset)).length - 1
  let line ← exactSum? (UInt32.ofNat index) 1
  let column ← exactSum? (clampedSub offset (starts.getD index 0)) 1
  some (line, column)

/-- **A line and a column are exact**, but for the greatest offset in a file of one line. -/
theorem exactLineColumn?_eq (hf : byteLength f.text < maxOffset) (n : UInt32) :
    f.exactLineColumn? n
      = if n.toNat = maxOffset ∧ '\n' ∉ f.text then none else some (f.lineColumn n) := by
  have hmax : maxOffset + 1 = 2 ^ 32 := rfl
  have hlt := n.toNat_lt
  have hbreaks := breaksBefore_le f.text n.toNat
  obtain ⟨s, hs, hle, hstart⟩ := exists_start (Nat.le_of_lt hf) n
  have hindex : (UInt32.ofNat ((f.lineStarts.takeWhile (· ≤ n)).length - 1)).toNat
      = breaksBefore f.text n.toNat := by
    rw [length_takeWhile_lineStarts (Nat.le_of_lt hf), Nat.add_sub_cancel, UInt32.toNat_ofNat']
    omega
  have hcolumn : (clampedSub n (f.lineStarts.getD
      ((f.lineStarts.takeWhile (· ≤ n)).length - 1) 0)).toNat = n.toNat - s := by
    have hsub : f.lineStarts.getD ((f.lineStarts.takeWhile (· ≤ n)).length - 1) 0 ≤ n := by
      rw [UInt32.le_iff_toNat_le, hstart]
      exact hle
    rw [clampedSub, if_pos hsub, UInt32.toNat_sub_of_le _ _ hsub, hstart]
  have hline : breaksBefore f.text n.toNat ≠ maxOffset := by omega
  -- the column leaves its type where the last offset stands on a line that starts at zero
  have hlast : n.toNat - s = maxOffset ↔ n.toNat = maxOffset ∧ '\n' ∉ f.text := by
    constructor
    · intro h
      obtain rfl : s = 0 := by omega
      have hn : n.toNat = maxOffset := by omega
      have hzero : breaksBefore f.text 0 = 0 := rfl
      have hfirst := hs.1
      rw [Set.mem_ofPred_eq, hzero] at hfirst
      exact ⟨hn, (breaksBefore_eq_zero_iff (by omega)).1 (Nat.succ.inj hfirst).symm⟩
    · rintro ⟨hn, hone⟩
      have hzero := (breaksBefore_eq_zero_iff (n := n.toNat) (by omega)).2 hone
      rw [hzero] at hs
      have := hs.2 (show 0 ∈ {m | breaksBefore f.text m + 1 = 0 + 1} from rfl)
      omega
  simp only [exactLineColumn?, exactSum?_one, hindex, hcolumn, if_neg hline, hlast, bind,
    Option.bind_some]
  split <;> rfl

/-- Columns count from one. -/
theorem column_of_exactLineColumn? {n : UInt32} {p : UInt32 × UInt32}
    (h : f.exactLineColumn? n = some p) : 1 ≤ p.2.toNat := by
  obtain ⟨line, -, h⟩ := Option.bind_eq_some_iff.1 h
  obtain ⟨column, hcolumn, h⟩ := Option.bind_eq_some_iff.1 h
  obtain rfl := Option.some.inj h
  rw [toNat_of_exactSum? hcolumn, UInt32.toNat_one]
  exact Nat.le_add_left 1 _

end SourceFile

/-- The place of a span, unless a line or a column leaves its type. -/
def FileTable.exactLocate? (t : FileTable) (s : Span) : Option (Option Location) :=
  match t.file? s.file with
  | none => some none
  | some f => do
    let (line, column) ← f.exactLineColumn? s.start
    let (endLine, endColumn) ← f.exactLineColumn? (max (clampedSub s.stop 1) s.start)
    some (some ⟨f.path, line, column, endLine, endColumn⟩)

/-- **The place of a span is exact**, unless the span starts at the greatest offset in a file of one
line. -/
theorem FileTable.exactLocate?_eq {t : FileTable} {s : Span} {f : SourceFile}
    (hfile : t.file? s.file = some f) (hf : byteLength f.text < maxOffset) :
    t.exactLocate? s
      = if s.start.toNat = maxOffset ∧ '\n' ∉ f.text then none else some (t.locate? s) := by
  have hmax : maxOffset + 1 = 2 ^ 32 := rfl
  have hstop := s.stop.toNat_lt
  have hlast : (max (clampedSub s.stop 1) s.start).toNat = maxOffset ↔ s.start.toNat = maxOffset := by
    rw [toNat_last]
    omega
  simp only [exactLocate?, locate?, hfile, SourceFile.exactLineColumn?_eq hf, hlast]
  split <;> rfl

namespace Diagnostic

variable {files : FileTable} {d : Diagnostic} {span : Span} {f : SourceFile}

/-- The form for people, unless the place of the span or the number of blanks in front of the carets
leaves its type on the way. -/
def exactRender? (color : Bool) (files : FileTable) (d : Diagnostic) : Option Text := do
  let _ ← d.span.mapM files.exactLocate?
  let _ ← (d.quoted? files).mapM fun (_, location, _) => exactDifference? location.column.toNat 1
  some (d.render color files)

/-- A quotation stands at the place of its span. -/
theorem locate?_of_quoted? {location : Location} {line : Text}
    (h : d.quoted? files = some (span, location, line)) :
    d.span = some span ∧ files.locate? span = some location := by
  simp only [quoted?, Option.bind_eq_bind, Option.bind_eq_some_iff, Option.some.injEq,
    Prod.mk.injEq] at h
  obtain ⟨s, hs, f, -, l, hl, x, -, rfl, rfl, -⟩ := h
  exact ⟨hs, hl⟩

/-- **The numbers of a written diagnostic stay in their types**, unless its span starts at the
greatest offset in a file of one line. -/
theorem exactRender?_eq (hspan : d.span = some span) (hfile : files.file? span.file = some f)
    (hf : byteLength f.text < maxOffset) (color : Bool) :
    d.exactRender? color files
      = if span.start.toNat = maxOffset ∧ '\n' ∉ f.text then none
        else some (d.render color files) := by
  have hlocate := FileTable.exactLocate?_eq hfile hf
  by_cases hlast : span.start.toNat = maxOffset ∧ '\n' ∉ f.text
  · rw [if_pos hlast] at hlocate ⊢
    simp [exactRender?, hspan, hlocate, Option.mapM_some]
  · have hexact := SourceFile.exactLineColumn?_eq hf span.start
    rw [if_neg hlast] at hexact hlocate ⊢
    cases hquoted : d.quoted? files with
    | none => simp [exactRender?, hspan, hlocate, hquoted, Option.mapM_some, Option.mapM_none]
    | some q =>
      obtain ⟨s, location, line⟩ := q
      obtain ⟨hs, hl⟩ := locate?_of_quoted? hquoted
      obtain rfl : span = s := Option.some.inj (hspan.symm.trans hs)
      have hcolumn : 1 ≤ location.column.toNat := by
        simp only [FileTable.locate?, hfile, Option.bind_eq_bind, Option.bind_some,
          Option.some.injEq] at hl
        rw [← hl]
        exact SourceFile.column_of_exactLineColumn? hexact
      simp [exactRender?, hspan, hlocate, hquoted, Option.mapM_some, exactDifference?, hcolumn]

/-- **The underline of a quoted line**: one blank less than the column tells, then at least one caret
and, unless it is the only one, no more of them than bytes are left on the line. -/
theorem exists_underline (span : Span) (location : Location) (line : Text) :
    ∃ n, underline span location line
        = List.replicate (location.column.toNat - 1) ' ' ++ List.replicate n '^' ∧
      1 ≤ n ∧ (n ≤ byteLength line - (location.column.toNat - 1) ∨ n = 1) := by
  refine ⟨caretCount span.length.toNat location.column.toNat (byteLength line), rfl, ?_, ?_⟩
  · exact Nat.le_max_left 1 _
  · rw [caretCount]
    omega

/-- Whatever is cut to the greatest offset leaves a file of one line without a column. -/
theorem exactRender?_saturated :
    Diagnostic.exactRender? false ⟨[⟨"a.vhd".toList, "x".toList⟩]⟩
      ⟨.error, .malformedUnit, [], some (Span.ofRange 0 (2 ^ 32) (2 ^ 32 + 1)), none, []⟩ = none := by
  have hspan : (Span.ofRange 0 (2 ^ 32) (2 ^ 32 + 1)).start.toNat = maxOffset := by decide
  rw [exactRender?_eq rfl rfl (by decide), if_pos ⟨hspan, by decide⟩]

end Diagnostic

end CanonicalVhdl
