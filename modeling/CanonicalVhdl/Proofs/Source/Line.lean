import CanonicalVhdl.Proofs.Bytewise.Loop
import CanonicalVhdl.Source.File
import Mathlib.Algebra.Group.Nat.Defs
import Mathlib.Order.Bounds.Basic

/-!
# Lines and columns

A line feed ends a line, so line `l` starts at the first byte offset that `l - 1` line feeds
precede.  The list of the starts of the lines is sorted, and how many of them are at or before an
offset tells the line of the offset.

## Main definitions

* `Text.breaksBefore t n` — the number of line feeds before a byte offset.
* `Text.IsLineStart t l s`, `Text.IsLineStop t l e` — where a line starts and stops.
* `Text.StandsOn t l x` — what stands on a line, the line end aside.

## Main statements

* `Text.isLineStart_iff` — the list of starts holds the start of each line.
* `SourceFile.toNat_lineColumn` — the line and the column of an offset.
* `SourceFile.line?_eq_some_iff` — the text of a line.
* `FileTable.lines_exact` — what a table of files tells about lines, columns and spans.
-/

namespace CanonicalVhdl

namespace Text

/-! ## What a line is -/

/-- How many line feeds are among the first `n` bytes of a text. -/
def breaksBefore (t : Text) (n : Nat) : Nat :=
  ((bytes t).take n).count 10

/-- Whether line `l` starts at the byte offset `s`: the first one that `l - 1` line feeds precede. -/
def IsLineStart (t : Text) (l s : Nat) : Prop :=
  IsLeast {n | breaksBefore t n + 1 = l} s

/-- Whether line `l` stops at the byte offset `e`: where the next line starts or, if there is none,
where the text ends. -/
def IsLineStop (t : Text) (l e : Nat) : Prop :=
  IsLineStart t (l + 1) e ∨ (∀ s, ¬ IsLineStart t (l + 1) s) ∧ e = byteLength t

/-- Whether `x` is the text from the start to the stop of line `l` without the line feeds and
carriage returns at its end. -/
def StandsOn (t : Text) (l : Nat) (x : Text) : Prop :=
  ∃ a e b, t = a ++ (x ++ e ++ b) ∧ IsLineStart t l (byteLength a) ∧
    IsLineStop t l (byteLength (a ++ (x ++ e))) ∧
    e.all SourceFile.isLineEnd = true ∧ x.getLast?.any SourceFile.isLineEnd = false

/-! ## Sorted offsets -/

section Sorted

variable {offsets : List Nat} {n i : Nat}

/-- In a sorted list, those that are at most `n` come first. -/
theorem lt_countP_iff (h : offsets.Pairwise (· < ·)) (hi : i < offsets.length) :
    i < offsets.countP (· ≤ n) ↔ offsets[i] ≤ n := by
  induction offsets generalizing i with
  | nil => exact absurd hi (Nat.not_lt_zero i)
  | cons s offsets ih =>
    obtain ⟨hs, hsorted⟩ := List.pairwise_cons.1 h
    rw [List.countP_cons]
    by_cases hn : s ≤ n
    · cases i with
      | zero => simp [hn]
      | succ i => simpa [hn] using ih hsorted (Nat.lt_of_succ_lt_succ hi)
    · have hnone : offsets.countP (· ≤ n) = 0 := by
        rw [List.countP_eq_zero]
        intro r hr
        have := hs r hr
        simp only [decide_eq_true_eq]
        omega
      cases i with
      | zero => simp [hn, hnone]
      | succ i =>
        have := hs _ (List.getElem_mem (Nat.lt_of_succ_lt_succ hi))
        simp only [hnone, hn, decide_false, Bool.false_eq_true, if_false, List.getElem_cons_succ]
        omega

theorem length_takeWhile_le (h : offsets.Pairwise (· < ·)) :
    (offsets.takeWhile (· ≤ n)).length = offsets.countP (· ≤ n) := by
  induction offsets with
  | nil => rfl
  | cons s offsets ih =>
    obtain ⟨hs, hsorted⟩ := List.pairwise_cons.1 h
    by_cases hn : s ≤ n
    · rw [List.takeWhile_cons_of_pos (by simpa using hn), List.length_cons, ih hsorted]
      simp [hn]
    · have hnone : (s :: offsets).countP (· ≤ n) = 0 := by
        have := (@lt_countP_iff _ n 0 h (Nat.succ_pos _)).not.2 hn
        omega
      rw [List.takeWhile_cons_of_neg (by simpa using hn), hnone, List.length_nil]

end Sorted

/-! ## The starts of the lines -/

/-- The offsets behind the line feeds of a text that `n` bytes precede. -/
def lineOffsets (n : Nat) : Text → List Nat
  | [] => []
  | c :: t => if c = '\n' then (n + 1) :: lineOffsets (n + 1) t else lineOffsets (n + c.utf8Size) t

/-- The offsets where the lines of a text start. -/
def starts (t : Text) : List Nat :=
  0 :: lineOffsets 0 t

theorem mem_lineOffsets {t : Text} {n s : Nat} (h : s ∈ lineOffsets n t) :
    n < s ∧ ∃ a u, t = a ++ u ∧ s = n + byteLength a := by
  induction t generalizing n with
  | nil => cases h
  | cons c t ih =>
    rw [lineOffsets] at h
    have hpos := c.utf8Size_pos
    -- what starts a later line, seen from the character before
    have later : ∀ k, k = c.utf8Size → s ∈ lineOffsets (n + k) t →
        n < s ∧ ∃ a u, c :: t = a ++ u ∧ s = n + byteLength a := by
      rintro k rfl hmem
      obtain ⟨hlt, a, u, rfl, rfl⟩ := ih hmem
      refine ⟨by omega, c :: a, u, rfl, ?_⟩
      rw [byteLength_cons, Nat.add_assoc]
    split at h
    · rename_i hc
      subst hc
      rcases List.mem_cons.1 h with rfl | hmem
      · exact ⟨Nat.lt_succ_self n, ['\n'], t, rfl, rfl⟩
      · exact later 1 rfl hmem
    · exact later _ rfl h

theorem lineOffsets_pairwise (t : Text) (n : Nat) : (lineOffsets n t).Pairwise (· < ·) := by
  induction t generalizing n with
  | nil => exact List.Pairwise.nil
  | cons c t ih =>
    rw [lineOffsets]
    split
    · exact List.pairwise_cons.2 ⟨fun s hs => (mem_lineOffsets hs).1, ih (n + 1)⟩
    · exact ih _

theorem starts_pairwise (t : Text) : (starts t).Pairwise (· < ·) :=
  List.pairwise_cons.2 ⟨fun _ hs => (mem_lineOffsets hs).1, lineOffsets_pairwise t 0⟩

/-- Lines start between two characters. -/
theorem isBoundary_of_mem_starts {t : Text} {s : Nat} (h : s ∈ starts t) : IsBoundary t s := by
  rcases List.mem_cons.1 h with rfl | hmem
  · exact isBoundary_iff.2 ⟨[], t, rfl, rfl⟩
  · obtain ⟨-, a, u, rfl, rfl⟩ := mem_lineOffsets hmem
    exact isBoundary_iff.2 ⟨a, u, rfl, (Nat.zero_add _).symm⟩

/-- The bytes of the other characters are no line feeds. -/
theorem count_utf8EncodeChar {c : Char} (hc : c ≠ '\n') : (String.utf8EncodeChar c).count 10 = 0 := by
  rw [List.count_eq_zero]
  intro hmem
  have hbeq := @Bytewise.beq_of_mem c '\n' (by decide) 10 hmem
  rw [beq_false_of_ne hc] at hbeq
  exact absurd hbeq (by decide)

/-- **The line feeds before an offset are counted by the starts behind them.** -/
theorem countP_lineOffsets (t : Text) (k n : Nat) :
    (lineOffsets k t).countP (· ≤ k + n) = breaksBefore t n := by
  induction t generalizing k n with
  | nil => simp [lineOffsets, breaksBefore]
  | cons c t ih =>
    -- no line starts inside the first character
    have hnone : ∀ m, n < m → (lineOffsets (k + m) t).countP (· ≤ k + n) = 0 := by
      intro m hm
      rw [List.countP_eq_zero]
      intro s hs
      have := (mem_lineOffsets hs).1
      simp only [decide_eq_true_eq]
      omega
    rw [lineOffsets, breaksBefore, bytes_cons, List.take_append, List.count_append,
      String.length_utf8EncodeChar, ← breaksBefore]
    by_cases hc : c = '\n'
    · subst hc
      have hsize : '\n'.utf8Size = 1 := rfl
      rw [if_pos rfl, List.countP_cons, hsize, utf8EncodeChar_ascii (by decide)]
      cases n with
      | zero =>
        rw [hnone 1 Nat.one_pos]
        simp [breaksBefore]
      | succ n =>
        have hrest := ih (k + 1) n
        rw [Nat.add_assoc, Nat.add_comm 1 n] at hrest
        have hbyte : (['\n'.toUInt8].take (n + 1)).count 10 = 1 := by
          rw [List.take_succ_cons, List.take_nil]
          rfl
        rw [hrest, hbyte, Nat.add_sub_cancel, Nat.add_comm]
        simp
    · have hcount : ((String.utf8EncodeChar c).take n).count 10 = 0 := by
        rw [List.count_eq_zero]
        exact fun hmem => List.count_eq_zero.1 (count_utf8EncodeChar hc) (List.mem_of_mem_take hmem)
      rw [if_neg hc, hcount, Nat.zero_add]
      by_cases hn : n < c.utf8Size
      · rw [hnone _ hn, Nat.sub_eq_zero_of_le (Nat.le_of_lt hn)]
        simp [breaksBefore]
      · rw [← ih (k + c.utf8Size), Nat.add_assoc, Nat.add_sub_cancel' (Nat.le_of_not_lt hn)]

theorem countP_starts (t : Text) (n : Nat) : (starts t).countP (· ≤ n) = breaksBefore t n + 1 := by
  have h := countP_lineOffsets t 0 n
  rw [Nat.zero_add] at h
  rw [starts, List.countP_cons, h]
  simp

/-- **The list of starts holds the start of each line**, and nothing else. -/
theorem isLineStart_iff {t : Text} {i s : Nat} : IsLineStart t (i + 1) s ↔ (starts t)[i]? = some s := by
  have hsorted := starts_pairwise t
  have hlist : ∀ {r}, (starts t)[i]? = some r → IsLineStart t (i + 1) r := by
    intro r hr
    obtain ⟨hi, rfl⟩ := List.getElem?_eq_some_iff.1 hr
    constructor
    · -- the starts up to the one at `i` are counted, and the next one is not
      have hle := (lt_countP_iff hsorted hi).2 (Nat.le_refl _)
      have hge : (starts t).countP (· ≤ (starts t)[i]) ≤ i + 1 := by
        by_contra hlt
        have hnext : i + 1 < (starts t).length :=
          Nat.lt_of_lt_of_le (Nat.lt_of_not_le hlt) List.countP_le_length
        have := (lt_countP_iff hsorted hnext).1 (Nat.lt_of_not_le hlt)
        have := List.pairwise_iff_getElem.1 hsorted i (i + 1) hi hnext (Nat.lt_succ_self i)
        omega
      rw [Set.mem_ofPred_eq, ← countP_starts]
      omega
    · intro n hn
      rw [Set.mem_ofPred_eq, ← countP_starts] at hn
      exact (lt_countP_iff hsorted hi).1 (by omega)
  refine ⟨fun h => ?_, hlist⟩
  have hi : i < (starts t).length := by
    have hmem := h.1
    rw [Set.mem_ofPred_eq, ← countP_starts] at hmem
    have := @List.countP_le_length _ (fun x => decide (x ≤ s)) (starts t)
    omega
  have hr := List.getElem?_eq_getElem hi
  rw [hr, (hlist hr).unique h]

theorem isLineStop_iff {t : Text} {i e : Nat} :
    IsLineStop t (i + 1) e ↔ (starts t)[i + 1]?.getD (byteLength t) = e := by
  cases hnext : (starts t)[i + 1]? with
  | none =>
    have hnone : ∀ s, ¬ IsLineStart t (i + 1 + 1) s := by
      intro s hs
      rw [isLineStart_iff, hnext] at hs
      cases hs
    constructor
    · rintro (hs | ⟨-, rfl⟩)
      · exact absurd hs (hnone e)
      · rfl
    · rintro rfl
      exact .inr ⟨hnone, rfl⟩
  | some s =>
    have hs := isLineStart_iff.2 hnext
    constructor
    · rintro (he | ⟨hnone, -⟩)
      · exact hs.unique he
      · exact absurd hs (hnone s)
    · rintro rfl
      exact .inl hs

theorem breaksBefore_mono {t : Text} {m n : Nat} (h : m ≤ n) : breaksBefore t m ≤ breaksBefore t n :=
  (List.take_sublist_take_left h).count_le 10

theorem breaksBefore_le (t : Text) (n : Nat) : breaksBefore t n ≤ byteLength t := by
  rw [← length_bytes]
  exact Nat.le_trans List.count_le_length (List.length_take_le' n _)

/-- Every offset is on a line, at or behind its start. -/
theorem exists_isLineStart (t : Text) (n : Nat) :
    ∃ s, IsLineStart t (breaksBefore t n + 1) s ∧ s ≤ n := by
  have hi : breaksBefore t n < (starts t).length := by
    rw [Nat.lt_iff_add_one_le, ← countP_starts]
    exact List.countP_le_length
  refine ⟨(starts t)[breaksBefore t n], isLineStart_iff.2 (List.getElem?_eq_getElem hi), ?_⟩
  apply (lt_countP_iff (starts_pairwise t) hi).1
  rw [countP_starts]
  exact Nat.lt_succ_self _

/-- There is one line more than there are line feeds. -/
theorem length_starts (t : Text) : (starts t).length = breaksBefore t (byteLength t) + 1 := by
  rw [← countP_starts, eq_comm, List.countP_eq_length]
  intro s hs
  rw [decide_eq_true_eq]
  exact (isBoundary_of_mem_starts hs).le

/-- A line stops between two characters, at or behind its start. -/
theorem stop_of_lt {t : Text} {i : Nat} (hi : i < (starts t).length) :
    IsBoundary t ((starts t)[i + 1]?.getD (byteLength t)) ∧
      (starts t)[i] ≤ (starts t)[i + 1]?.getD (byteLength t) := by
  cases hnext : (starts t)[i + 1]? with
  | none =>
    exact ⟨isBoundary_iff.2 ⟨t, [], (List.append_nil t).symm, rfl⟩,
      (isBoundary_of_mem_starts (List.getElem_mem hi)).le⟩
  | some e =>
    refine ⟨isBoundary_of_mem_starts (List.mem_of_getElem? hnext), ?_⟩
    obtain ⟨hlt, rfl⟩ := List.getElem?_eq_some_iff.1 hnext
    exact Nat.le_of_lt
      (List.pairwise_iff_getElem.1 (starts_pairwise t) i (i + 1) hi hlt (Nat.lt_succ_self i))

/-- What stands between two places in order. -/
theorem exists_slice? {t : Text} {s e : Nat} (hs : IsBoundary t s) (he : IsBoundary t e) (hle : s ≤ e) :
    ∃ u, slice? t s e = some u := by
  obtain ⟨a, y, hsplit, rfl⟩ := isBoundary_iff.1 hs
  obtain ⟨b, z, rfl, rfl⟩ := isBoundary_iff.1 he
  obtain ⟨m, rfl, rfl⟩ := exists_append_of_le hsplit.symm hle
  exact ⟨m, slice?_eq_some_iff.2 ⟨a, z, hsplit, rfl, rfl⟩⟩

/-- A text without the characters of a kind at its end. -/
theorem dropEnd_eq_iff {p : Char → Bool} {u x : Text} :
    (u.reverse.dropWhile p).reverse = x
      ↔ ∃ e, u = x ++ e ∧ e.all p = true ∧ x.getLast?.any p = false := by
  constructor
  · rintro rfl
    refine ⟨(u.reverse.takeWhile p).reverse, ?_, ?_, ?_⟩
    · rw [← List.reverse_append, List.takeWhile_append_dropWhile, List.reverse_reverse]
    · rw [List.all_reverse]
      exact List.all_takeWhile
    · rw [List.getLast?_reverse]
      exact any_head?_dropWhile p _
  · rintro ⟨e, rfl, he, hx⟩
    have hpass : ∀ c ∈ e.reverse, p c = true := by
      intro c hc
      exact List.all_eq_true.1 he c (List.mem_reverse.1 hc)
    rw [List.reverse_append, List.dropWhile_append_of_pos hpass]
    rw [List.getLast?_eq_head?_reverse] at hx
    cases hrev : x.reverse with
    | nil => rw [List.reverse_eq_nil_iff.1 hrev]; rfl
    | cons c r =>
      rw [hrev] at hx
      rw [List.dropWhile_cons_of_neg (by simpa using hx), ← hrev, List.reverse_reverse]

end Text

open Text

theorem toNat_clampOffset {n : Nat} (h : n ≤ maxOffset) : (clampOffset n).toNat = n := by
  rw [clampOffset, Nat.min_eq_left h]
  exact UInt32.toNat_ofNat_of_lt' (Nat.lt_of_le_of_lt h (by decide))

namespace SourceFile

variable {f : SourceFile}

/-! ## Lines of a file -/

theorem map_toNat_lineStartsFrom (t : Text) :
    ∀ (found : List UInt32) (n : Nat), n + byteLength t ≤ maxOffset →
      (lineStartsFrom found n t).map UInt32.toNat
        = (found.map UInt32.toNat).reverse ++ lineOffsets n t := by
  induction t with
  | nil => simp [lineStartsFrom, lineOffsets]
  | cons c t ih =>
    intro found n hn
    rw [byteLength_cons] at hn
    rw [lineStartsFrom, ih _ _ (by omega), lineOffsets]
    by_cases hc : c = '\n'
    · subst hc
      have hsize : '\n'.utf8Size = 1 := rfl
      rw [hsize] at hn ⊢
      simp [toNat_clampOffset (show n + 1 ≤ maxOffset by omega)]
    · simp [hc]

/-- **The starts of the lines of a file** are those of its text, unless there are too many bytes. -/
theorem map_toNat_lineStarts (hf : byteLength f.text ≤ maxOffset) :
    f.lineStarts.map UInt32.toNat = starts f.text := by
  rw [lineStarts, map_toNat_lineStartsFrom _ _ _ (by omega)]
  rfl

theorem length_lineStarts (hf : byteLength f.text ≤ maxOffset) :
    f.lineStarts.length = (starts f.text).length := by
  rw [← map_toNat_lineStarts hf, List.length_map]

/-- How far the starts are at most some offset. -/
theorem length_takeWhile_lineStarts (hf : byteLength f.text ≤ maxOffset) (n : UInt32) :
    (f.lineStarts.takeWhile (· ≤ n)).length = breaksBefore f.text n.toNat + 1 := by
  have hmap : (f.lineStarts.map UInt32.toNat).takeWhile (· ≤ n.toNat)
      = (f.lineStarts.takeWhile (· ≤ n)).map UInt32.toNat := by
    rw [List.takeWhile_map]
    congr 2
  rw [← countP_starts, ← length_takeWhile_le (starts_pairwise f.text), ← map_toNat_lineStarts hf, hmap,
    List.length_map]

/-- The line of an offset starts at or before it. -/
theorem exists_start (hf : byteLength f.text ≤ maxOffset) (n : UInt32) :
    ∃ s, IsLineStart f.text (breaksBefore f.text n.toNat + 1) s ∧ s ≤ n.toNat ∧
      (f.lineStarts.getD ((f.lineStarts.takeWhile (· ≤ n)).length - 1) 0).toNat = s := by
  obtain ⟨s, hs, hle⟩ := exists_isLineStart f.text n.toNat
  refine ⟨s, hs, hle, ?_⟩
  have hget := isLineStart_iff.1 hs
  rw [← map_toNat_lineStarts hf, List.getElem?_map, Option.map_eq_some_iff] at hget
  obtain ⟨r, hr, rfl⟩ := hget
  rw [length_takeWhile_lineStarts hf, Nat.add_sub_cancel, List.getD_eq_getElem?_getD, hr,
    Option.getD_some]

/-- **The line and the column of an offset**: as many line feeds precede it, and it is as far behind
the start of its line. -/
theorem toNat_lineColumn (hf : byteLength f.text < maxOffset) {n : UInt32}
    (hn : n.toNat ≤ byteLength f.text) :
    (f.lineColumn n).1.toNat = breaksBefore f.text n.toNat + 1 ∧
      ∃ s, IsLineStart f.text (breaksBefore f.text n.toNat + 1) s ∧ s ≤ n.toNat ∧
        (f.lineColumn n).2.toNat = n.toNat - s + 1 := by
  have hmax : maxOffset + 1 = 2 ^ 32 := rfl
  have hbreaks := breaksBefore_le f.text n.toNat
  obtain ⟨s, hs, hle, hstart⟩ := exists_start (Nat.le_of_lt hf) n
  constructor
  · rw [lineColumn, length_takeWhile_lineStarts (Nat.le_of_lt hf), Nat.add_sub_cancel, UInt32.toNat_add,
      UInt32.toNat_ofNat', UInt32.toNat_one]
    omega
  · refine ⟨s, hs, hle, ?_⟩
    have hsub : f.lineStarts.getD ((f.lineStarts.takeWhile (· ≤ n)).length - 1) 0 ≤ n := by
      rw [UInt32.le_iff_toNat_le, hstart]
      exact hle
    rw [lineColumn, clampedSub, if_pos hsub, UInt32.toNat_add, UInt32.toNat_sub_of_le _ _ hsub,
      hstart, UInt32.toNat_one]
    omega

/-- **Lines and columns grow with the offset**, the line first. -/
theorem lineColumn_lt (hf : byteLength f.text < maxOffset) {m n : UInt32} (hmn : m < n)
    (hn : n.toNat ≤ byteLength f.text) :
    Prod.Lex (· < ·) (· < ·) (f.lineColumn m) (f.lineColumn n) := by
  have hlt := UInt32.lt_iff_toNat_lt.1 hmn
  obtain ⟨hline, s, hs, hsm, hcolumn⟩ := toNat_lineColumn hf (show m.toNat ≤ byteLength f.text by omega)
  obtain ⟨hline', s', hs', hsn, hcolumn'⟩ := toNat_lineColumn hf hn
  rw [Prod.lex_def, UInt32.lt_iff_toNat_lt, UInt32.lt_iff_toNat_lt, ← UInt32.toNat_inj, hline, hline']
  rcases Nat.eq_or_lt_of_le (breaksBefore_mono (t := f.text) (Nat.le_of_lt hlt)) with heq | hless
  · -- on one line, both columns are counted from one start
    rw [← heq] at hs'
    obtain rfl := hs.unique hs'
    exact .inr ⟨by omega, by omega⟩
  · exact .inl (by omega)

/-- An offset that is not before another one has no smaller line and column. -/
theorem not_lineColumn_lt (hf : byteLength f.text < maxOffset) {m n : UInt32} (hmn : m ≤ n)
    (hn : n.toNat ≤ byteLength f.text) :
    ¬ Prod.Lex (· < ·) (· < ·) (f.lineColumn n) (f.lineColumn m) := by
  by_cases heq : m = n
  · rw [heq, Prod.lex_def]
    simp
  · have hne : m.toNat ≠ n.toNat := fun h => heq (UInt32.toNat_inj.1 h)
    have hmn := UInt32.le_iff_toNat_le.1 hmn
    have hless := lineColumn_lt hf (UInt32.lt_iff_toNat_lt.2 (Nat.lt_of_le_of_ne hmn hne)) hn
    rw [Prod.lex_def, UInt32.lt_iff_toNat_lt, UInt32.lt_iff_toNat_lt, ← UInt32.toNat_inj] at hless ⊢
    omega

/-! ## The texts of lines -/

/-- A line lies between its start and the next one, and loses the line end. -/
theorem line?_succ (hf : byteLength f.text ≤ maxOffset) (i : Nat) :
    f.line? (i + 1) = (starts f.text)[i]?.bind fun s =>
      (Text.slice? f.text s ((starts f.text)[i + 1]?.getD (byteLength f.text))).map fun u =>
        (u.reverse.dropWhile isLineEnd).reverse := by
  have hstop : (f.lineStarts[i + 1]?.map (·.toNat)).getD (byteLength f.text)
      = (starts f.text)[i + 1]?.getD (byteLength f.text) := by
    rw [← map_toNat_lineStarts hf, List.getElem?_map]
  have hstart : (starts f.text)[i]? = f.lineStarts[i]?.map UInt32.toNat := by
    rw [← map_toNat_lineStarts hf, List.getElem?_map]
  rw [hstart, Option.bind_map]
  simp only [line?, Option.bind_eq_bind]
  refine Option.bind_congr ?_
  intro start _
  rw [hstop, Function.comp_apply, Option.map_eq_bind]
  rfl

/-- **The text of a line.** -/
theorem line?_eq_some_iff (hf : byteLength f.text ≤ maxOffset) {l : Nat} {x : Text} :
    f.line? l = some x ↔ StandsOn f.text l x := by
  cases l with
  | zero =>
    constructor
    · intro h
      cases h
    · rintro ⟨a, e, b, -, hstart, -⟩
      exact absurd hstart.1 (Nat.succ_ne_zero _)
  | succ i =>
    rw [line?_succ hf]
    simp only [Option.bind_eq_some_iff, Option.map_eq_some_iff, Text.slice?_eq_some_iff, dropEnd_eq_iff]
    constructor
    · rintro ⟨s, hs, u, ⟨a, b, hsplit, rfl, hstop⟩, e, rfl, he, hx⟩
      exact ⟨a, e, b, hsplit, isLineStart_iff.2 hs, isLineStop_iff.2 hstop.symm, he, hx⟩
    · rintro ⟨a, e, b, hsplit, hstart, hstop, he, hx⟩
      exact ⟨_, isLineStart_iff.1 hstart, _, ⟨a, b, hsplit, rfl, (isLineStop_iff.1 hstop).symm⟩, e,
        rfl, he, hx⟩

theorem lineCount_eq (hf : byteLength f.text ≤ maxOffset) :
    f.lineCount = breaksBefore f.text (byteLength f.text) + 1 := by
  rw [lineCount, length_lineStarts hf, length_starts]

/-- **There is a text for each line**, and for no other number. -/
theorem isSome_line?_iff (hf : byteLength f.text ≤ maxOffset) {l : Nat} :
    (f.line? l).isSome = true ↔ 1 ≤ l ∧ l ≤ f.lineCount := by
  rw [lineCount, length_lineStarts hf]
  cases l with
  | zero => simp [line?]
  | succ i =>
    rw [line?_succ hf]
    constructor
    · intro h
      obtain ⟨x, hx⟩ := Option.isSome_iff_exists.1 h
      obtain ⟨s, hs, -⟩ := Option.bind_eq_some_iff.1 hx
      exact ⟨Nat.succ_pos i, (List.getElem?_eq_some_iff.1 hs).1⟩
    · rintro ⟨-, hi⟩
      have hs := List.getElem?_eq_getElem hi
      obtain ⟨hstop, hle⟩ := stop_of_lt hi
      obtain ⟨u, hu⟩ := exists_slice? (isBoundary_of_mem_starts (List.getElem_mem hi)) hstop hle
      rw [hs, Option.bind_some, hu]
      rfl

end SourceFile

/-! ## Numbered files -/

namespace FileTable

/-- The last byte of a span, or its start if it has none. -/
theorem toNat_last (s : Span) :
    (max (clampedSub s.stop 1) s.start).toNat = max (s.stop.toNat - 1) s.start.toNat := by
  have hsub : (clampedSub s.stop 1).toNat = s.stop.toNat - 1 := by
    rw [clampedSub]
    split
    · rename_i hone
      exact UInt32.toNat_sub_of_le _ _ hone
    · rename_i hone
      rw [UInt32.le_iff_toNat_le, UInt32.toNat_one] at hone
      rw [UInt32.toNat_zero]
      omega
  have hmax : max (clampedSub s.stop 1) s.start
      = if clampedSub s.stop 1 ≤ s.start then s.start else clampedSub s.stop 1 := rfl
  rw [hmax]
  split <;> rename_i hle <;> rw [UInt32.le_iff_toNat_le, hsub] at hle <;> omega

/-- **Lines, columns and the places of spans.**  In a file that is not too long, as many line feeds
precede an offset as lines precede its line, and its column tells how far it is behind the start of
that line; both grow with the offset, the line first.  There is a text for each line, the one from
the start of the line to its stop without the line end.  A span inside the file is located by its start
and its last byte, which is not before the start. -/
theorem lines_exact {f : SourceFile} (hf : byteLength f.text < 2 ^ 32 - 1) :
    (∀ n : UInt32, n.toNat ≤ byteLength f.text →
        (f.lineColumn n).1.toNat = breaksBefore f.text n.toNat + 1 ∧
          ∃ s, IsLineStart f.text (breaksBefore f.text n.toNat + 1) s ∧ s ≤ n.toNat ∧
            (f.lineColumn n).2.toNat = n.toNat - s + 1) ∧
      (∀ m n : UInt32, m < n → n.toNat ≤ byteLength f.text →
        Prod.Lex (· < ·) (· < ·) (f.lineColumn m) (f.lineColumn n)) ∧
      f.lineCount = breaksBefore f.text (byteLength f.text) + 1 ∧
      (∀ l, (f.line? l).isSome = true ↔ 1 ≤ l ∧ l ≤ f.lineCount) ∧
      (∀ l x, f.line? l = some x ↔ StandsOn f.text l x) ∧
      ∀ (table : FileTable) (s : Span), table.file? s.file = some f →
        s.start.toNat ≤ byteLength f.text → s.stop.toNat ≤ byteLength f.text →
        ∃ p, table.locate? s = some p ∧ p.path = f.path ∧ (p.line, p.column) = f.lineColumn s.start ∧
          (∃ n : UInt32, n.toNat = max (s.stop.toNat - 1) s.start.toNat ∧
            (p.endLine, p.endColumn) = f.lineColumn n) ∧
          ¬ Prod.Lex (· < ·) (· < ·) (p.endLine, p.endColumn) (p.line, p.column) := by
  have hle : byteLength f.text ≤ maxOffset := Nat.le_of_lt hf
  refine ⟨fun n hn => SourceFile.toNat_lineColumn hf hn,
    fun m n hmn hn => SourceFile.lineColumn_lt hf hmn hn,
    SourceFile.lineCount_eq hle, fun l => SourceFile.isSome_line?_iff hle,
    fun l x => SourceFile.line?_eq_some_iff hle, ?_⟩
  intro table s hfile hstart hstop
  have hlocate : table.locate? s = some ⟨f.path, (f.lineColumn s.start).1, (f.lineColumn s.start).2,
      (f.lineColumn (max (clampedSub s.stop 1) s.start)).1,
      (f.lineColumn (max (clampedSub s.stop 1) s.start)).2⟩ := by
    simp only [locate?, hfile, Option.bind_eq_bind, Option.bind_some]
  refine ⟨_, hlocate, rfl, rfl, ⟨_, toNat_last s, rfl⟩, ?_⟩
  apply SourceFile.not_lineColumn_lt hf
  · rw [UInt32.le_iff_toNat_le, toNat_last]
    omega
  · rw [toNat_last]
    omega

/-- Lines end with a carriage return and a line feed, with a line feed, and with the text; the
offset 1 lies inside a character. -/
theorem lines_exact_mixed :
    byteLength "é\r\n\nb".toList < 2 ^ 32 - 1 ∧
      (1 : UInt32) < 5 ∧ (5 : UInt32).toNat ≤ byteLength "é\r\n\nb".toList ∧
      Prod.Lex (· < ·) (· < ·) ((SourceFile.mk [] "é\r\n\nb".toList).lineColumn 1)
        ((SourceFile.mk [] "é\r\n\nb".toList).lineColumn 5) ∧
      breaksBefore "é\r\n\nb".toList 5 = 2 ∧
      StandsOn "é\r\n\nb".toList 1 "é".toList ∧
      (FileTable.mk [⟨[], "é\r\n\nb".toList⟩]).file? 0 = some ⟨[], "é\r\n\nb".toList⟩ ∧
      (6 : UInt32).toNat ≤ byteLength "é\r\n\nb".toList ∧
      ∃ p, (FileTable.mk [⟨[], "é\r\n\nb".toList⟩]).locate? ⟨0, 1, 6⟩ = some p ∧
        (p.line, p.column) = (1, 2) ∧ (p.endLine, p.endColumn) = (3, 1) := by
  have hlength : byteLength "é\r\n\nb".toList = 6 := by decide +kernel
  obtain ⟨hposition, hgrow, -, -, hline, hlocate⟩ :=
    @lines_exact ⟨[], "é\r\n\nb".toList⟩ (by rw [hlength]; decide)
  obtain ⟨hfive, -⟩ := hposition 5 (by rw [hlength]; decide)
  have hthree : ((SourceFile.mk [] "é\r\n\nb".toList).lineColumn 5).1.toNat = 3 := by decide +kernel
  have hbreaks : breaksBefore "é\r\n\nb".toList 5 = 2 := Nat.succ.inj (hfive.symm.trans hthree)
  obtain ⟨p, hp, -, hstart, ⟨n, hn, hend⟩, -⟩ := hlocate ⟨[⟨[], "é\r\n\nb".toList⟩]⟩ ⟨0, 1, 6⟩ rfl
    (by rw [hlength]; decide) (by rw [hlength]; decide)
  obtain rfl : n = 5 := UInt32.toNat_inj.1 hn
  refine ⟨by rw [hlength]; decide, by decide, by rw [hlength]; decide, ?_, hbreaks, ?_, rfl,
    by rw [hlength]; decide, p, hp, hstart, hend⟩
  · exact hgrow 1 5 (by decide) (by rw [hlength]; decide)
  · exact (hline 1 _).1 (by decide +kernel)

end FileTable

end CanonicalVhdl
