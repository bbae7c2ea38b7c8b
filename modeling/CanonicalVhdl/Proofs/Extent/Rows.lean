import CanonicalVhdl.Proofs.Region.Statement
import CanonicalVhdl.Proofs.Text.Layout

/-!
# Scanning line by line

How far a text is moved to the right and where empty lines stand in it changes nothing
in the scan for the end of a statement.  What counts are the *rows* of the text: its
lines without the blanks before them.  Printing a region inside a construct keeps its
rows, whatever they are, so that what the scan does with a construct follows from what
it does with each row.

## Main definitions

* `rows t` — the lines of a text without the blanks before them, empty ones left out.
* `Passes parens s ls parens' s'` — the scan passes over the rows `ls`.

## Main statements

* `rows_nested` — a nested region has the rows of the region.
* `Passes.extentFrom` — the scan passes over every text with such rows.
-/

namespace CanonicalVhdl

open Text Token

/-! ## Rows -/

/-- A line without the blanks before it. -/
def flush (l : Text) : Text :=
  l.dropWhile (· == ' ')

/-- The lines of a text without the blanks before them; lines of blanks are left out. -/
def rows (t : Text) : List Text :=
  ((splitOn '\n' t).map flush).filter (!·.isEmpty)

/-- A line that is not empty, starts with no blank and does not end with a carriage
return. -/
structure IsRow (l : Text) : Prop extends IsLine l where
  /-- The line starts with no blank. -/
  head_ne : l.head? ≠ some ' '

theorem isRow_of_solid {l : Text} (h : Solid l) (hline : '\n' ∉ l) : IsRow l := by
  refine ⟨isLine_of_solid h hline, fun hhead => ?_⟩
  have := h.head
  rw [hhead] at this
  exact absurd this (by decide)

theorem IsRow.flush_eq {l : Text} (h : IsRow l) : flush l = l := by
  cases l with
  | nil => rfl
  | cons c l =>
    have hc : c ≠ ' ' := fun hc => h.head_ne (by rw [hc]; rfl)
    rw [flush, List.dropWhile_cons_of_neg (by simpa using hc)]

theorem rows_of_not_mem {l : Text} (h : '\n' ∉ l) :
    rows l = if (flush l).isEmpty then [] else [flush l] := by
  rw [rows, splitOn_of_not_mem h]
  by_cases hl : (flush l).isEmpty = true <;> simp [hl]

@[simp] theorem rows_nil : rows [] = [] := rfl

/-- A row is its own row. -/
theorem IsRow.rows_eq {l : Text} (h : IsRow l) : rows l = [l] := by
  have hne : l.isEmpty = false := by simpa using h.ne_nil
  rw [rows_of_not_mem h.newline_not_mem, h.flush_eq, hne]
  rfl

/-- The rows before a line end, and those after it. -/
theorem rows_append (a b : Text) : rows (a ++ '\n' :: b) = rows a ++ rows b := by
  simp only [rows, splitOn_separator, List.map_append, List.filter_append]

theorem rows_newline (t : Text) : rows ('\n' :: t) = rows t :=
  rows_append [] t

/-- The rows of lines joined together are those of the lines. -/
theorem rows_join (ts : List Text) : rows (join ['\n'] ts) = ts.flatMap rows := by
  induction ts with
  | nil => rfl
  | cons t ts ih =>
    by_cases hnil : ts = []
    · subst hnil
      simp [join]
    · rw [join_cons_of_ne_nil t hnil, rows_append, ih, List.flatMap_cons]

/-! ## Rows of nested regions -/

theorem flush_pad (n : Nat) (l : Text) : flush (List.replicate n ' ' ++ l) = flush l := by
  rw [flush, List.dropWhile_append_of_pos fun c hc => by simp [List.eq_of_mem_replicate hc]]
  rfl

theorem flatten_indentStep (k : Nat) :
    (List.replicate k indentStep).flatten = List.replicate (4 * k) ' ' := by
  induction k with
  | zero => rfl
  | succ k ih =>
    rw [List.replicate_succ, List.flatten_cons, ih, Nat.mul_succ, Nat.add_comm,
      ← List.replicate_append_replicate]
    rfl

/-- Blanks before a line do not change its row. -/
theorem rows_indented {l : Text} (h : '\n' ∉ l) (k : Nat) :
    rows (if l.isEmpty then [] else (List.replicate k indentStep).flatten ++ l) = rows l := by
  split
  · rename_i hl
    rw [List.isEmpty_iff.1 hl]
  · rw [flatten_indentStep, rows_of_not_mem h, rows_of_not_mem, flush_pad]
    rw [List.mem_append, not_or]
    exact ⟨fun hm => absurd (List.eq_of_mem_replicate hm) (by decide), h⟩

/-- Whether no row ends with a carriage return, which printing would take off. -/
def IsTidy (t : Text) : Prop :=
  ∀ l ∈ rows t, l.getLast? ≠ some '\r'

theorem withoutReturn_of_flush {l : Text} (h : flush l ≠ [] → (flush l).getLast? ≠ some '\r') :
    withoutReturn l = l := by
  refine withoutReturn_eq_self fun hlast => ?_
  have hsplit : l = l.takeWhile (· == ' ') ++ flush l := (List.takeWhile_append_dropWhile).symm
  by_cases hnil : flush l = []
  · rw [hnil, List.append_nil] at hsplit
    rw [hsplit] at hlast
    have := List.all_eq_true.1 (List.all_takeWhile (p := (· == ' ')) (l := l)) _
      (List.mem_of_getLast? hlast)
    exact absurd this (by decide)
  · rw [hsplit, List.getLast?_append_of_ne_nil _ hnil] at hlast
    exact h hnil hlast

/-- Printing keeps the lines of a tidy text, but for an empty last one. -/
theorem flatMap_rows_lines {t : Text} (h : IsTidy t) : (Text.lines t).flatMap rows = rows t := by
  have hmem : ∀ l ∈ splitOn '\n' t, '\n' ∉ l := (join_splitOn '\n' t).2
  have hreturn : ∀ l ∈ splitOn '\n' t, withoutReturn l = l := fun l hl =>
    withoutReturn_of_flush fun hne => h _ (List.mem_filter.2
      ⟨List.mem_map_of_mem hl, by simpa using hne⟩)
  have hall : (splitOn '\n' t).flatMap rows = rows t := by
    rw [← rows_join, (join_splitOn '\n' t).1]
  have hinit : (splitOn '\n' t).dropLast.map withoutReturn = (splitOn '\n' t).dropLast := by
    rw [List.map_congr_left fun l hl => hreturn l (List.dropLast_subset _ hl), List.map_id']
  have hlast : (splitOn '\n' t).getLast?
      = some ((splitOn '\n' t).getLast (splitOn_ne_nil '\n' t)) :=
    List.getLast?_eq_some_getLast _
  rw [← hall]
  simp only [Text.lines, hinit, hlast, Option.getD_some]
  conv_rhs => rw [← List.dropLast_append_getLast (splitOn_ne_nil '\n' t)]
  rw [List.flatMap_append, List.flatMap_append]
  congr 1
  split
  · rename_i hempty
    rw [List.isEmpty_iff.1 hempty]
    rfl
  · rfl

theorem newline_not_mem_of_mem_lines {t l : Text} (hl : l ∈ Text.lines t) : '\n' ∉ l := by
  have hmem : ∀ l ∈ splitOn '\n' t, '\n' ∉ l := (join_splitOn '\n' t).2
  simp only [Text.lines, List.mem_append, List.mem_map] at hl
  rcases hl with ⟨m, hm, rfl⟩ | hl
  · have hm := hmem m (List.dropLast_subset _ hm)
    rw [withoutReturn, dropFinal?]
    split
    · exact fun hnew => hm (List.dropLast_subset _ hnew)
    · exact hm
  · split at hl
    · cases hl
    · rw [List.mem_singleton.1 hl]
      rw [List.getLast?_eq_some_getLast (splitOn_ne_nil '\n' t), Option.getD_some]
      exact hmem _ (List.getLast_mem _)

/-- Moving a tidy text to the right keeps its rows. -/
theorem rows_indent {t : Text} (h : IsTidy t) (k : Nat) : rows (indent k t) = rows t := by
  rw [indent, rows_join, List.flatMap_map, ← flatMap_rows_lines h]
  exact List.flatMap_congr fun l hl => rows_indented (newline_not_mem_of_mem_lines hl) k

/-- **A nested region has the rows of the region.** -/
theorem rows_nested {t : Text} (h : IsTidy t) : rows (nested t) = rows t := by
  rw [nested]
  split
  · rename_i hempty
    rw [List.isEmpty_iff.1 hempty]
  · rw [rows_newline, rows_indent h]

/-! ## Where the rows stand -/

theorem eq_takeWhile_append_flush (l : Text) : l = l.takeWhile (· == ' ') ++ flush l :=
  (List.takeWhile_append_dropWhile).symm

theorem isPad_takeWhile_blank (l : Text) : IsPad (l.takeWhile (· == ' ')) := fun c hc =>
  .inl (by simpa using List.all_eq_true.1 (List.all_takeWhile (p := (· == ' ')) (l := l)) c hc)

theorem IsPad.append {g g' : Text} (h : IsPad g) (h' : IsPad g') : IsPad (g ++ g') := by
  intro c hc
  rcases List.mem_append.1 hc with hc | hc
  · exact h c hc
  · exact h' c hc

theorem isPad_newline : IsPad ['\n'] := fun _ hc => .inr (List.mem_singleton.1 hc)

/-- A text without rows is padding. -/
theorem isPad_of_rows_eq_nil {t : Text} (h : rows t = []) : IsPad t := by
  have hlines : ∀ l ∈ splitOn '\n' t, IsPad l := by
    intro l hl
    have hflush : flush l = [] := by
      by_contra hne
      have hmem : flush l ∈ rows t :=
        List.mem_filter.2 ⟨List.mem_map_of_mem hl, by simpa using hne⟩
      rw [h] at hmem
      cases hmem
    rw [eq_takeWhile_append_flush l, hflush, List.append_nil]
    exact isPad_takeWhile_blank l
  have hjoin : ∀ ls : List Text, (∀ l ∈ ls, IsPad l) → IsPad (join ['\n'] ls) := by
    intro ls hls
    induction ls with
    | nil => exact isPad_nil
    | cons l ls ih =>
      have hl := hls l List.mem_cons_self
      by_cases hnil : ls = []
      · subst hnil
        simpa [join] using hl
      · rw [join_cons_of_ne_nil l hnil]
        exact IsPad.append hl
          (IsPad.append isPad_newline (ih fun m hm => hls m (List.mem_cons_of_mem l hm)))
  rw [← (join_splitOn '\n' t).1]
  exact hjoin _ hlines

/-- The first row of a text stands behind padding, and the others on the lines after it. -/
theorem exists_of_rows_cons {t l : Text} {ls : List Text} (h : rows t = l :: ls) :
    ∃ g r, IsPad g ∧ AtLineEnd r ∧ t = g ++ (l ++ r) ∧ rows r = ls := by
  obtain ⟨hjoin, hlines⟩ := join_splitOn '\n' t
  generalize splitOn '\n' t = parts at hjoin hlines
  subst hjoin
  induction parts with
  | nil => cases h
  | cons m parts ih =>
    have hm := hlines m List.mem_cons_self
    have hsplit := eq_takeWhile_append_flush m
    have hpad := isPad_takeWhile_blank m
    have hrows : rows m = if (flush m).isEmpty then [] else [flush m] := rows_of_not_mem hm
    by_cases hempty : (flush m).isEmpty = true
    · rw [if_pos hempty] at hrows
      rw [List.isEmpty_iff.1 hempty, List.append_nil] at hsplit
      have hne : parts ≠ [] := by
        rintro rfl
        simp [join, hrows] at h
      rw [join_cons_of_ne_nil m hne, rows_append, hrows, List.nil_append] at h
      obtain ⟨g, r, hg, hr, ht, hrest⟩ := ih (fun q hq => hlines q (List.mem_cons_of_mem m hq)) h
      refine ⟨m ++ '\n' :: g, r, ?_, hr, ?_, hrest⟩
      · exact IsPad.append (hsplit ▸ hpad) (IsPad.append isPad_newline hg)
      · rw [join_cons_of_ne_nil m hne, ht, List.append_assoc, List.cons_append]
    · rw [if_neg hempty] at hrows
      by_cases hnil : parts = []
      · subst hnil
        have hone : join ['\n'] [m] = m := by simp [join]
        rw [hone, hrows] at h
        obtain ⟨rfl, rfl⟩ := List.cons_eq_cons.1 h
        exact ⟨_, [], hpad, atLineEnd_nil, by rw [hone, List.append_nil, ← hsplit], rfl⟩
      · rw [join_cons_of_ne_nil m hnil, rows_append, hrows] at h
        obtain ⟨rfl, rfl⟩ := List.cons_eq_cons.1 h
        refine ⟨_, '\n' :: join ['\n'] parts, hpad, atLineEnd_newline _, ?_, rows_newline _⟩
        rw [join_cons_of_ne_nil m hnil, ← List.append_assoc, ← hsplit]

/-! ## Passing over rows -/

/-- What follows a row: a line end, and then the rows `ls` if there are any. -/
structure IsAhead (ls : List Text) (u : Text) : Prop where
  /-- The row ends its line. -/
  line : AtLineEnd u
  /-- The next row comes after blanks and line ends only. -/
  next : ∀ l ∈ ls.head?, ∃ g v, IsPad g ∧ u = '\n' :: (g ++ (l ++ v))

theorem extentFrom_newline {parens position : Nat} {s : Nesting} {before : Option Char} (u : Text) :
    extentFrom parens s 0 position before ('\n' :: u)
      = extentFrom parens s 0 (position + 1) (some '\n') u :=
  extentFrom_pad isPad_newline u

theorem opens_newline : Opens (some '\n') := rfl

/-- What follows a row when the text goes on with the rows `ls`. -/
theorem isAhead_of_rows {ls : List Text} {r : Text} (hr : rows r = ls) (u : Text) :
    IsAhead ls ('\n' :: r ++ u) := by
  refine ⟨atLineEnd_newline _, fun m hm => ?_⟩
  obtain ⟨ls, rfl⟩ := List.head?_eq_some_iff.1 hm
  obtain ⟨g, v, hg, -, rfl, -⟩ := exists_of_rows_cons hr
  exact ⟨g, v ++ u, hg, by simp⟩

/-- The scan with `parens` open parentheses and the nesting `s` passes over rows and has
`parens'` and `s'` after them.  A row may look at what follows it. -/
inductive Passes : Nat → Nesting → List Text → Nat → Nesting → Prop
  | nil {parens : Nat} {s : Nesting} : Passes parens s [] parens s
  | cons {parens parens' parens'' : Nat} {s s' s'' : Nesting} {l : Text} {ls : List Text} :
    IsRow l →
    (∀ (position : Nat) (before : Option Char) (u : Text), Opens before → IsAhead ls u →
      extentFrom parens s 0 position before (l ++ u)
        = extentFrom parens' s' 0 (position + l.length) (lastOr before l) u) →
    Passes parens' s' ls parens'' s'' → Passes parens s (l :: ls) parens'' s''

namespace Passes

variable {parens parens' parens'' : Nat} {s s' s'' : Nesting} {ls ls' : List Text}

/-- Some rows after others. -/
theorem append (h : Passes parens s ls parens' s') (h' : Passes parens' s' ls' parens'' s'') :
    Passes parens s (ls ++ ls') parens'' s'' := by
  induction h with
  | nil => exact h'
  | @cons parens parens₁ parens₂ s s₁ s₂ l ls hl hstep _ ih =>
    refine .cons hl (fun position before u hbefore hu => ?_) (ih h')
    refine hstep position before u hbefore ⟨hu.line, fun m hm => hu.next m ?_⟩
    cases ls with
    | nil => cases hm
    | cons n ls => exact hm

/-- A row that does not look ahead. -/
theorem single {l : Text} (hl : IsRow l)
    (h : ∀ (position : Nat) (before : Option Char) (u : Text), Opens before → AtLineEnd u →
      extentFrom parens s 0 position before (l ++ u)
        = extentFrom parens' s' 0 (position + l.length) (lastOr before l) u) :
    Passes parens s [l] parens' s' :=
  .cons hl (fun position before u hbefore hu => h position before u hbefore hu.line) .nil

theorem isRow (h : Passes parens s ls parens' s') : ∀ l ∈ ls, IsRow l := by
  induction h with
  | nil => exact fun l hl => absurd hl List.not_mem_nil
  | cons hl _ _ ih => exact List.forall_mem_cons.2 ⟨hl, ih⟩

theorem isTidy {t : Text} (h : Passes parens s (rows t) parens' s') : IsTidy t :=
  fun l hl => (h.isRow l hl).last_ne

theorem nested {t : Text} (h : Passes parens s (rows t) parens' s') :
    Passes parens s (rows (Text.nested t)) parens' s' := by
  rwa [rows_nested h.isTidy]

/-- **The scan passes over every text with such rows**, if a line end follows it. -/
theorem extentFrom {t : Text} (h : Passes parens s (rows t) parens' s') {before : Option Char}
    (hbefore : Opens before) {u : Text} (hu : AtLineEnd u) (position : Nat) :
    extentFrom parens s 0 position before (t ++ u)
      = Text.extentFrom parens' s' 0 (position + t.length) (lastOr before t) u := by
  generalize hls : rows t = ls at h
  induction h generalizing t before position with
  | nil => exact extentFrom_pad (isPad_of_rows_eq_nil hls) u
  | @cons parens parens₁ parens₂ s s₁ s₂ l ls hl hstep hrest ih =>
    obtain ⟨g, r, hg, hr, rfl, hrows⟩ := exists_of_rows_cons hls
    rw [List.append_assoc, List.append_assoc, extentFrom_pad hg]
    obtain rfl | ⟨r, rfl⟩ := hr.cases
    · subst hrows
      cases hrest
      have hahead : IsAhead [] u := ⟨hu, fun m hm => nomatch hm⟩
      rw [List.nil_append, hstep _ _ _ (hg.opens hbefore) hahead]
      simp only [List.append_nil, List.length_append, lastOr_append, Nat.add_assoc]
    · have hrows : rows r = ls := (rows_newline r).symm.trans hrows
      rw [hstep _ _ _ (hg.opens hbefore) (isAhead_of_rows hrows u), List.cons_append,
        extentFrom_newline, ih opens_newline _ hrows]
      simp only [List.length_append, List.length_cons, lastOr_append, lastOr_cons]
      congr 1
      omega

end Passes
end CanonicalVhdl
