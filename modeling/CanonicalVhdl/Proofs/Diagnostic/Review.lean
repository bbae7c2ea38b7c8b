import CanonicalVhdl.Diagnostic.Review
import CanonicalVhdl.Proofs.Design.FinalLine
import CanonicalVhdl.Proofs.Source.Line
import CanonicalVhdl.Proofs.Text.Lists

/-!
# Reports on files

A file is read for its tree alone, which ends at the first unit that cannot be read, or
for reports, which goes on to the last one.  Both go through the same units and agree on
the tree.  Comment lines after the first other unit are passed over by both.

## Main definitions

* `SourceUnit.isLate` — a comment line that some other unit precedes.
* `SourceUnit.refused` — the units of a text that cannot be read.
* `Pass` — what one pass over the units has reached; `Pass.step` goes on by a unit.
* `Diagnostic.Reports` — a report of an error at the bytes of a unit.

## Main statements

* `SourceUnit.split_ordered` — the units of a text stand apart, in order, inside the text.
* `SourceFile.review_eq_run` — the reports are those of one pass over the units.
* `SourceFile.review_agrees` — reading with reports returns the tree of a file exactly when
  reading without does, and else reports once on each unit that cannot be read.
-/

namespace CanonicalVhdl

open Text

/-! ## Where the units stand -/

namespace SourceUnit

theorem splitFrom_eq_append (fuel : Nat) :
    ∀ (found : List SourceUnit) (start : Nat) (t : Text),
      splitFrom found start fuel t = found.reverse ++ splitFrom [] start fuel t := by
  induction fuel with
  | zero => intro found start t; simp [splitFrom]
  | succ fuel ih =>
    intro found start t
    simp only [splitFrom]
    split
    · simp
    · rw [ih, ih [_], List.reverse_cons, List.reverse_singleton, List.append_assoc]

/-- A unit has at least one byte. -/
theorem start_lt_stop {kind : UnitKind} {start : Nat} {c : Char} {t : Text} {n : Nat}
    (hn : 0 < n) : start < stop ⟨kind, start, (c :: t).take n⟩ := by
  obtain ⟨n, rfl⟩ := Nat.exists_eq_add_one_of_ne_zero (Nat.ne_of_gt hn)
  have : 0 < c.utf8Size := c.utf8Size_pos
  simp only [stop, List.take_succ_cons, byteLength_cons]
  omega

/-- Units found from byte offset `start` on lie between there and the end of the text, one
after the other. -/
theorem splitFrom_ordered (fuel : Nat) :
    ∀ (start : Nat) (t : Text),
      (∀ u ∈ splitFrom [] start fuel t,
        start ≤ u.start ∧ u.start < u.stop ∧ u.stop ≤ start + byteLength t) ∧
      (splitFrom [] start fuel t).Pairwise fun u v => u.stop ≤ v.start := by
  induction fuel with
  | zero => intro start t; simp [splitFrom]
  | succ fuel ih =>
    intro start t
    cases hrest : t.dropWhile isAsciiBlank with
    | nil => simp [splitFrom, hrest]
    | cons c r =>
      have hsize : byteLength t
          = byteLength (t.takeWhile isAsciiBlank) + byteLength (c :: r) := by
        rw [← byteLength_append, ← hrest, List.takeWhile_append_dropWhile]
      have hn := lengthAt_pos c r
      generalize hlen : lengthAt (c :: r) = n at hn
      have hcut : byteLength (c :: r)
          = byteLength ((c :: r).take n) + byteLength ((c :: r).drop n) := by
        rw [← byteLength_append, List.take_append_drop]
      simp only [splitFrom, hrest, List.isEmpty_cons, Bool.false_eq_true, if_false, hlen]
      rw [splitFrom_eq_append, List.reverse_singleton]
      generalize hu : (⟨UnitKind.ofText ((c :: r).take n),
        start + byteLength (t.takeWhile isAsciiBlank), (c :: r).take n⟩ : SourceUnit) = u
      have hstart : u.start = start + byteLength (t.takeWhile isAsciiBlank) := by rw [← hu]
      have hstop : u.stop = u.start + byteLength ((c :: r).take n) := by rw [← hu]; rfl
      have hpos : u.start < u.stop := by
        have := @start_lt_stop (UnitKind.ofText ((c :: r).take n))
          (start + byteLength (t.takeWhile isAsciiBlank)) c r n hn
        rwa [hu, ← hstart] at this
      obtain ⟨hmem, hpair⟩ := ih u.stop ((c :: r).drop n)
      refine ⟨fun v hv => ?_, List.pairwise_cons.2 ⟨fun v hv => (hmem v hv).1, hpair⟩⟩
      obtain rfl | hv := List.mem_cons.1 hv
      · omega
      · have := hmem v hv
        omega

/-- **The units of a text stand apart, in order, inside the text.** -/
theorem split_ordered (t : Text) :
    (∀ u ∈ split t, u.start < u.stop ∧ u.stop ≤ byteLength t) ∧
      (split t).Pairwise fun u v => u.stop ≤ v.start := by
  obtain ⟨hmem, hpair⟩ := splitFrom_ordered (t.length + 1) 0 t
  refine ⟨fun u hu => ?_, hpair⟩
  have := hmem u hu
  omega

/-! ## The units that a file keeps -/

/-- Whether a unit is a comment line that some other of the given units precedes. -/
def isLate (units : List SourceUnit) (u : SourceUnit) : Bool :=
  u.isComment && units.any fun v => !v.isComment && decide (v.start < u.start)

/-- The units of a text that cannot be read as their kind, in order; comment lines after the
first other unit are not looked at. -/
def refused (room : Nat) (t : Text) : List SourceUnit :=
  (split t).filter fun u => !isLate (split t) u && (DesignUnit.read room u).isNone

/-- A file keeps all units but the late comment lines. -/
theorem kept_eq_filter {units : List SourceUnit}
    (h : units.Pairwise fun u v => u.start < v.start) :
    kept units = units.filter (!isLate units ·) := by
  have hunits := List.takeWhile_append_dropWhile (p := isComment) (l := units)
  have hhead : ∀ v ∈ units.takeWhile isComment, v.isComment = true :=
    fun v hv => List.mem_takeWhile_imp hv
  rw [← hunits, List.pairwise_append] at h
  obtain ⟨-, htail, hacross⟩ := h
  conv_rhs => arg 2; rw [← hunits]
  rw [kept, List.filter_append]
  congr 1
  · -- only comment lines precede a unit of the header
    symm
    rw [List.filter_eq_self]
    intro u hu
    rw [Bool.not_eq_true', isLate, Bool.and_eq_false_iff]
    right
    rw [List.any_eq_false, ← hunits]
    intro v hv
    obtain hv | hv := List.mem_append.1 hv
    · simp [hhead v hv]
    · have := hacross u hu v hv
      simp only [Bool.and_eq_true, decide_eq_true_eq, not_and]
      omega
  · -- the first unit after the header precedes every other one
    cases hdrop : units.dropWhile isComment with
    | nil => rfl
    | cons w rest =>
      have hw : w.isComment = false := by
        have := List.head?_dropWhile_not isComment units
        rw [hdrop] at this
        simpa using this
      have hwmem : w ∈ units := by
        rw [← hunits, hdrop]
        exact List.mem_append_right _ List.mem_cons_self
      rw [hdrop, List.pairwise_cons] at htail
      refine List.filter_congr fun u hu => ?_
      obtain rfl | hu := List.mem_cons.1 hu
      · simp [isLate, hw]
      · have hlt := htail.1 u hu
        have hany : (units.any fun v => !v.isComment && decide (v.start < u.start)) = true :=
          List.any_eq_true.2 ⟨w, hwmem, by simp [hw, hlt]⟩
        rw [isLate, hany, Bool.and_true]

/-- The units that a file keeps and that cannot be read are the refused ones. -/
theorem filter_kept (room : Nat) (t : Text) :
    (kept (split t)).filter (fun u => (DesignUnit.read room u).isNone) = refused room t := by
  obtain ⟨hmem, hpair⟩ := split_ordered t
  have hstarts : (split t).Pairwise fun u v => u.start < v.start :=
    hpair.imp_of_mem fun hu _ h => Nat.lt_of_lt_of_le (hmem _ hu).1 h
  rw [kept_eq_filter hstarts, List.filter_filter, refused]
  exact List.filter_congr fun u _ => Bool.and_comm _ _

/-- With one more unit a file keeps that unit, unless it is a comment line after another
unit. -/
theorem kept_concat (units : List SourceUnit) (u : SourceUnit) :
    kept (units ++ [u])
      = kept units ++ if u.isComment && !units.all isComment then [] else [u] := by
  rw [kept_append]
  cases units.all isComment <;> cases hu : u.isComment <;> simp [kept, hu]

end SourceUnit

/-! ## One pass over the units -/

/-- What a pass over the units of a file has reached. -/
structure Pass where
  /-- Only comment lines have been seen. -/
  inHeader : Bool
  /-- The units that could be read. -/
  found : List DesignUnit
  /-- The reports on those that could not. -/
  reports : List Diagnostic

namespace Pass

/-- Nothing seen. -/
def start : Pass := ⟨true, [], []⟩

/-- Goes on by a unit.  A comment line after the header is passed over; any other unit is
read, and reported if that fails. -/
def step (room : Nat) (id : FileId) (p : Pass) (u : SourceUnit) : Pass :=
  let inHeader := p.inHeader && u.isComment
  if u.isComment && !inHeader then { p with inHeader := inHeader }
  else
    match DesignUnit.read room u with
    | some d => ⟨inHeader, p.found ++ [d], p.reports⟩
    | none => ⟨inHeader, p.found, p.reports ++ [u.complaint id]⟩

/-- Goes through units in order. -/
def run (room : Nat) (id : FileId) (units : List SourceUnit) : Pass :=
  units.foldl (step room id) start

/-- What has been reached after the given units. -/
structure Covers (room : Nat) (id : FileId) (units : List SourceUnit) (p : Pass) : Prop where
  /-- The header goes on as long as there are only comment lines. -/
  inHeader : p.inHeader = units.all SourceUnit.isComment
  /-- All kept units that can be read are found. -/
  found : p.found = (SourceUnit.kept units).filterMap (DesignUnit.read room)
  /-- All kept units that cannot be read are reported. -/
  reports : p.reports = ((SourceUnit.kept units).filter
    fun u => (DesignUnit.read room u).isNone).map (SourceUnit.complaint id)

variable {room : Nat} {id : FileId} {units : List SourceUnit} {p : Pass}

theorem covers_start : Covers room id [] start := ⟨rfl, rfl, rfl⟩

/-- One step covers one more unit. -/
theorem Covers.step (h : Covers room id units p) (u : SourceUnit) :
    Covers room id (units ++ [u]) (p.step room id u) := by
  have hheader : (p.inHeader && u.isComment) = (units ++ [u]).all SourceUnit.isComment := by
    rw [h.inHeader, List.all_append, List.all_cons, List.all_nil, Bool.and_true]
  have hlate : (u.isComment && !(p.inHeader && u.isComment))
      = (u.isComment && !units.all SourceUnit.isComment) := by
    rw [h.inHeader]
    cases u.isComment <;> simp
  cases hskip : u.isComment && !units.all SourceUnit.isComment with
  | true =>
    simp only [Pass.step, hlate, hskip, if_true]
    refine ⟨hheader, ?_, ?_⟩
    · rw [SourceUnit.kept_concat, hskip, if_pos rfl, List.append_nil]
      exact h.found
    · rw [SourceUnit.kept_concat, hskip, if_pos rfl, List.append_nil]
      exact h.reports
  | false =>
    have hkept : SourceUnit.kept (units ++ [u]) = SourceUnit.kept units ++ [u] := by
      rw [SourceUnit.kept_concat, hskip, if_neg Bool.false_ne_true]
    simp only [Pass.step, hlate, hskip, Bool.false_eq_true, if_false]
    cases hread : DesignUnit.read room u with
    | some d =>
      refine ⟨hheader, ?_, ?_⟩
      · simp [hkept, h.found, hread]
      · simp [hkept, h.reports, hread]
    | none =>
      refine ⟨hheader, ?_, ?_⟩
      · simp [hkept, h.found, hread]
      · simp [hkept, h.reports, hread]

theorem covers_foldl (h : Covers room id units p) (more : List SourceUnit) :
    Covers room id (units ++ more) (more.foldl (Pass.step room id) p) := by
  induction more generalizing units p with
  | nil => rwa [List.append_nil]
  | cons u more ih =>
    rw [List.foldl_cons, List.append_cons]
    exact ih (h.step u)

/-- A pass covers all units that it goes through. -/
theorem covers_run (units : List SourceUnit) : Covers room id units (run room id units) :=
  covers_foldl covers_start units

/-- The file that was read, unless there is a report. -/
def verdict (p : Pass) : Except (List Diagnostic) DesignFile :=
  if p.reports.isEmpty then .ok (DesignFile.ofUnits p.found) else .error p.reports

end Pass

/-! ## Agreement -/

/-- A report of an error at the bytes of a unit. -/
def Diagnostic.Reports (id : FileId) (d : Diagnostic) (u : SourceUnit) : Prop :=
  d.severity = .error ∧
    ∃ s, d.span = some s ∧ s.file = id ∧ s.start.toNat = u.start ∧ s.stop.toNat = u.stop

/-- The report about a unit that cannot be read is at the bytes of the unit. -/
theorem SourceUnit.reports_complaint (id : FileId) {u : SourceUnit} (hpos : u.start < u.stop)
    (hstop : u.stop ≤ maxOffset) : (u.complaint id).Reports id u := by
  have hspan : (u.complaint id).span = some (u.span id) := by
    cases h : u.kind <;> simp [complaint, h]
  refine ⟨by cases h : u.kind <;> simp [complaint, h], u.span id, hspan, rfl, ?_, ?_⟩
  · exact toNat_clampOffset (by omega)
  · exact toNat_clampOffset hstop

namespace SourceFile

/-- **The reports on a file are those of one pass over its units.** -/
theorem review_eq_run (room : Nat) (id : FileId) (f : SourceFile) :
    f.review room id
      = if !fits Limits.blockBytes f.text then .error [tooLarge id f.text]
        else (Pass.run room id (SourceUnit.split f.text)).verdict := by
  have hcovers : Pass.Covers room id (SourceUnit.split f.text)
      (Pass.run room id (SourceUnit.split f.text)) := Pass.covers_run _
  obtain ⟨-, hfound, hreports⟩ := hcovers
  have hread : ((SourceUnit.kept (SourceUnit.split f.text)).map fun u =>
      (u, DesignUnit.read room u)).filterMap (·.2)
        = (SourceUnit.kept (SourceUnit.split f.text)).filterMap (DesignUnit.read room) := by
    rw [List.filterMap_map]
    rfl
  have hcomplaints : ((SourceUnit.kept (SourceUnit.split f.text)).map fun u =>
      (u, DesignUnit.read room u)).filterMap (fun p =>
        if p.2.isNone then some (p.1.complaint id) else none)
        = ((SourceUnit.kept (SourceUnit.split f.text)).filter
            fun u => (DesignUnit.read room u).isNone).map (SourceUnit.complaint id) := by
    rw [List.filterMap_map, ← List.filterMap_eq_map, List.filterMap_filter]
    rfl
  rw [review]
  simp only [Pass.verdict, hread, hfound, hreports, ← hcomplaints]

/-- **Reading with reports agrees with reading without.**  Both return the same tree for the
same files.  When there is none, a file that is too long has one report; any other has exactly
one error for each unit that cannot be read, in order and at the bytes of the unit. -/
theorem review_agrees (room : Nat) (id : FileId) (f : SourceFile) :
    match f.review room id with
    | .ok d => DesignFile.read room f.text = some d
    | .error ds =>
      DesignFile.read room f.text = none ∧
        if fits Limits.blockBytes f.text then
          ds ≠ [] ∧ List.Forall₂ (Diagnostic.Reports id) ds (SourceUnit.refused room f.text)
        else ds.length = 1 := by
  have hcovers : Pass.Covers room id (SourceUnit.split f.text)
      (Pass.run room id (SourceUnit.split f.text)) := Pass.covers_run _
  obtain ⟨-, hfound, hreports⟩ := hcovers
  rw [SourceUnit.filter_kept] at hreports
  rw [review_eq_run, DesignFile.read]
  cases hfits : fits Limits.blockBytes f.text with
  | false => exact ⟨rfl, rfl⟩
  | true =>
    have hall : (SourceUnit.kept (SourceUnit.split f.text)).all
        (fun u => (DesignUnit.read room u).isSome) = (SourceUnit.refused room f.text).isEmpty := by
      rw [← SourceUnit.filter_kept, Bool.eq_iff_iff, List.isEmpty_iff, List.filter_eq_nil_iff,
        List.all_eq_true]
      exact forall₂_congr fun u _ => by cases DesignUnit.read room u <;> simp
    simp only [Bool.not_true, Bool.false_eq_true, if_false, if_true, Pass.verdict]
    rw [mapM_eq_filterMap, hall, ← hfound, hreports, List.isEmpty_map]
    cases hempty : (SourceUnit.refused room f.text).isEmpty with
    | true => rfl
    | false =>
      refine ⟨rfl, by simpa using hempty, List.forall₂_map_left_iff.2 (List.forall₂_same.2 ?_)⟩
      intro u hu
      obtain ⟨hpos, hstop⟩ := (SourceUnit.split_ordered f.text).1 u (List.mem_filter.1 hu).1
      have hsize : byteLength f.text ≤ Limits.blockBytes := by simpa [fits] using hfits
      have hmax : Limits.blockBytes ≤ maxOffset := by decide
      exact SourceUnit.reports_complaint id hpos (hstop.trans (hsize.trans hmax))

/-- A comment line after another unit is not reported, even if it cannot be read: with a
carriage return inside it is no comment. -/
theorem review_late_comment :
    ¬ ∀ f : SourceFile, ∀ ds, fits Limits.blockBytes f.text = true →
      f.review Limits.depth 0 = .error ds →
        ds.length = ((SourceUnit.split f.text).filter fun u =>
          (DesignUnit.read Limits.depth u).isNone).length := by
  intro h
  have := h ⟨[], "x;\n--a\rb".toList⟩ _ rfl rfl
  revert this
  decide

end SourceFile
end CanonicalVhdl
