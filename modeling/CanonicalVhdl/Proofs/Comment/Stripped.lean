import CanonicalVhdl.Proofs.Comment.Segments

/-!
# Stripped texts

Comments are stripped line by line and masked over the text as a whole.  The two scans agree on
where comments are, since no lexeme reaches over a line end and what follows one is read as at
the start of a text: the code of a line is its masked form without the blanks at its end.

## Main statements

* `splitOn_maskComments` — the lines of a masked text are the masked lines.
* `lineCode_eq` — the code of a line, in terms of its masked form.
* `stripComments_normal` — stripping comments gives a normal form.
-/

namespace CanonicalVhdl.Text

open Token

/-! ## Masking line by line -/

section Rows

variable {before : Option Char} {ps : List Segment}

/-- Behind a line end masking goes on as at the start of a text. -/
theorem maskFrom_newline (before : Option Char) (t : Text) :
    maskFrom [] false 0 before ('\n' :: t) = '\n' :: maskComments t := by
  rw [maskFrom_code (at_plain before (by decide) t), maskComments]
  congr 1
  cases t with
  | nil => rfl
  | cons c t =>
    have hat : Lexeme.at none (c :: t) = Lexeme.at (some '\n') (c :: t) := at_congr fun _ => rfl
    rw [maskFrom, maskFrom, hat]

theorem Lexes.maskFrom_line (h : Lexes before ps) (t : Text) :
    maskFrom [] false 0 before (source ps ++ '\n' :: t) = masked ps ++ '\n' :: maskComments t := by
  induction h with
  | nil => exact maskFrom_newline _ t
  | @code before c ps hat h ih =>
    rw [← at_append (atLineEnd_newline t)] at hat
    rw [source_cons, masked_code, List.singleton_append, List.cons_append, maskFrom_code hat, ih]
    rfl
  | @literal before c x ps hat h ih =>
    rw [← at_append (atLineEnd_newline t), List.append_assoc] at hat
    rw [source_cons, masked_code, List.cons_append, List.cons_append, List.append_assoc,
      maskFrom_literal hat, ih]
    simp
  | @comment before c x ps hat h ih =>
    rw [← at_append (atLineEnd_newline t), List.append_assoc] at hat
    rw [source_cons, masked_comment, List.cons_append, List.cons_append, List.append_assoc,
      maskFrom_comment hat, ih, List.append_assoc]

theorem newline_not_mem_masked (h : '\n' ∉ source ps) : '\n' ∉ masked ps := by
  induction ps with
  | nil => exact h
  | cons p ps ih =>
    obtain ⟨isComment, x⟩ := p
    rw [source_cons, List.mem_append, not_or] at h
    cases isComment with
    | true =>
      rw [masked_comment, List.mem_append, not_or]
      refine ⟨fun hx => ?_, ih h.2⟩
      exact absurd (List.eq_of_mem_replicate hx) (by decide)
    | false =>
      rw [masked_code, List.mem_append, not_or]
      exact ⟨h.1, ih h.2⟩

end Rows

theorem maskComments_line (s t : Text) :
    maskComments (s ++ '\n' :: t) = maskComments s ++ '\n' :: maskComments t := by
  obtain ⟨ps, h, rfl⟩ := exists_lexes s.length s none (Nat.le_refl _)
  rw [maskComments_source h]
  exact h.maskFrom_line t

theorem newline_not_mem_maskComments {s : Text} (hs : '\n' ∉ s) : '\n' ∉ maskComments s := by
  obtain ⟨ps, h, rfl⟩ := exists_lexes s.length s none (Nat.le_refl _)
  rw [maskComments_source h]
  exact newline_not_mem_masked hs

theorem maskComments_join (ls : List Text) :
    maskComments (join ['\n'] ls) = join ['\n'] (ls.map maskComments) := by
  induction ls with
  | nil => rfl
  | cons l ls ih =>
    by_cases hnil : ls = []
    · subst hnil
      simp [join]
    · have hnil' : ls.map maskComments ≠ [] := by simpa using hnil
      rw [join_cons_of_ne_nil l hnil, maskComments_line, ih, List.map_cons,
        join_cons_of_ne_nil _ hnil']

/-- **The lines of a masked text are the masked lines.** -/
theorem splitOn_maskComments (t : Text) :
    splitOn '\n' (maskComments t) = (splitOn '\n' t).map maskComments := by
  obtain ⟨hjoin, hlines⟩ := join_splitOn '\n' t
  have hmasked : maskComments t = join ['\n'] ((splitOn '\n' t).map maskComments) := by
    rw [← maskComments_join, hjoin]
  rw [hmasked]
  apply splitOn_join
  · simpa using splitOn_ne_nil '\n' t
  · intro p hp
    obtain ⟨l, hl, rfl⟩ := List.mem_map.1 hp
    exact newline_not_mem_maskComments (hlines l hl)

/-! ## The code of a line -/

/-- In a line there is one comment at most, and blanks take its place. -/
theorem Lexes.masked_line {before : Option Char} {ps : List Segment} (h : Lexes before ps)
    (hline : '\n' ∉ source ps) : ∀ position : Nat,
      commentFrom? 0 position before (source ps) = none ∧ masked ps = source ps
        ∨ ∃ a w, source ps = a ++ w ∧ masked ps = a ++ blanked w
          ∧ commentFrom? 0 position before (source ps) = some (position + a.length) := by
  induction h with
  | nil => exact fun _ => .inl ⟨rfl, rfl⟩
  | @code before c ps hat h ih =>
    intro position
    rw [source_cons, List.singleton_append, List.mem_cons, not_or] at hline
    rw [source_cons, masked_code, List.singleton_append, commentFrom?, hat]
    obtain ⟨hnone, heq⟩ | ⟨a, w, hsource, hmasked, hstart⟩ := ih hline.2 (position + 1)
    · exact .inl ⟨hnone, by rw [heq]; rfl⟩
    · refine .inr ⟨c :: a, w, by rw [hsource]; rfl, by rw [hmasked]; rfl, ?_⟩
      rw [hstart, List.length_cons, Nat.add_right_comm, Nat.add_assoc]
  | @literal before c x ps hat h ih =>
    intro position
    rw [source_cons, List.mem_append, not_or] at hline
    rw [source_cons, masked_code, List.cons_append, commentFrom?, hat]
    simp only [Nat.add_sub_cancel]
    rw [commentFrom?_skip]
    obtain ⟨hnone, heq⟩ | ⟨a, w, hsource, hmasked, hstart⟩ := ih hline.2 (position + 1 + x.length)
    · exact .inl ⟨hnone, by rw [heq]; rfl⟩
    · refine .inr ⟨c :: (x ++ a), w, by rw [hsource]; simp, by rw [hmasked]; simp, ?_⟩
      rw [hstart, List.length_cons, List.length_append]
      congr 1
      omega
  | @comment before c x ps hat h ih =>
    intro position
    obtain ⟨-, -, -, -, hend⟩ := eq_of_at_comment hat
    rw [source_cons, List.mem_append, not_or] at hline
    -- behind the comment there is a line end, or nothing
    have hnil : source ps = [] := by
      obtain hnil | ⟨v, hv⟩ := hend.cases
      · exact hnil
      · exact absurd (hv ▸ List.mem_cons_self) hline.2
    have hmasked : masked ps = [] := by
      have hveils := h.veils
      rw [hnil] at hveils
      generalize masked ps = u at hveils
      cases hveils
      rfl
    refine .inr ⟨[], c :: x, ?_, ?_, ?_⟩
    · rw [source_cons, hnil, List.append_nil]
      rfl
    · rw [masked_comment, hmasked, List.append_nil]
      rfl
    · rw [source_cons, List.cons_append, commentFrom?, hat]
      rfl

/-- **The code of a line** is its masked form without the blanks at its end. -/
theorem lineCode_eq {s : Text} (hs : '\n' ∉ s) : lineCode s = trimEnd (maskComments s) := by
  obtain ⟨ps, h, rfl⟩ := exists_lexes s.length s none (Nat.le_refl _)
  rw [maskComments_source h, lineCode, commentStart?]
  obtain ⟨hnone, heq⟩ | ⟨a, w, hsource, hmasked, hstart⟩ := h.masked_line hs 0
  · rw [hnone, heq]
    rfl
  · have hblank : (blanked w).all isBlank = true := by
      rw [List.all_eq_true]
      intro c hc
      rw [List.eq_of_mem_replicate hc]
      rfl
    rw [hstart, hmasked, trimEnd_append hblank, Option.elim_some, hsource, Nat.zero_add, List.take_left]

theorem commentFree_lineCode {s : Text} (hs : '\n' ∉ s) : CommentFree none (lineCode s) := by
  have hfree : CommentFree none (maskComments s) := commentStart?_maskComments s
  obtain ⟨g, -, hsplit⟩ := exists_pad_trimEnd (maskComments s)
  rw [hsplit, ← lineCode_eq hs] at hfree
  exact hfree.of_append_left

theorem lineCode_maskComments {s : Text} (hs : '\n' ∉ s) :
    lineCode (maskComments s) = lineCode s := by
  rw [lineCode_eq (newline_not_mem_maskComments hs), maskComments_idem, lineCode_eq hs]

/-! ## Lines of code -/

/-- A line as stripping leaves it: some code, with nothing behind it. -/
structure IsCodeLine (l : Text) : Prop where
  /-- The line is not empty. -/
  ne_nil : l ≠ []
  /-- No line end stands in it. -/
  newline_not_mem : '\n' ∉ l
  /-- No blank stands at its end. -/
  last : l.getLast?.any isBlank = false
  /-- It holds no comment. -/
  free : CommentFree none l

/-- The code of a line is a line of code, if there is any. -/
theorem isCodeLine_lineCode {s : Text} (hs : '\n' ∉ s) (hne : lineCode s ≠ []) :
    IsCodeLine (lineCode s) where
  ne_nil := hne
  newline_not_mem := by
    intro hmem
    obtain ⟨g, -, hsplit⟩ := exists_pad_trimEnd (maskComments s)
    have hmasked := newline_not_mem_maskComments hs
    rw [hsplit, ← lineCode_eq hs] at hmasked
    exact hmasked (List.mem_append_left g hmem)
  last := by
    rw [lineCode_eq hs]
    exact getLast?_trimEnd _
  free := commentFree_lineCode hs

namespace IsCodeLine

variable {l : Text}

theorem lineCode_eq_self (h : IsCodeLine l) : lineCode l = l := by
  rw [lineCode_eq h.newline_not_mem, maskComments_eq_self h.free, trimEnd_eq_self h.last]

theorem not_all_blank (h : IsCodeLine l) : l.all isBlank = false := by
  have hc : l.getLast? = some (l.getLast h.ne_nil) := List.getLast?_eq_some_getLast h.ne_nil
  have hlast := h.last
  rw [hc, Option.any_some] at hlast
  rw [List.all_eq_false]
  exact ⟨_, List.mem_of_getLast? hc, by simp [hlast]⟩

theorem isLine (h : IsCodeLine l) : IsLine l where
  ne_nil := h.ne_nil
  newline_not_mem := h.newline_not_mem
  last_ne := by
    intro hreturn
    have hlast := h.last
    rw [hreturn] at hlast
    exact absurd hlast (by decide)

end IsCodeLine

/-! ## Texts without comments -/

/-- Stripping comments leaves lines of code. -/
theorem exists_codeLines (t : Text) :
    ∃ ls, stripComments t = join ['\n'] ls ∧ ∀ l ∈ ls, IsCodeLine l := by
  refine ⟨((splitOn '\n' t).map lineCode).filter (!·.isEmpty), stripComments_eq t, ?_⟩
  intro l hl
  obtain ⟨hmem, hne⟩ := List.mem_filter.1 hl
  obtain ⟨s, hs, rfl⟩ := List.mem_map.1 hmem
  exact isCodeLine_lineCode ((join_splitOn '\n' t).2 s hs) (by simpa using hne)

section Codes

variable {ls : List Text}

/-- Lines of code are what stripping leaves of them. -/
theorem stripComments_join (h : ∀ l ∈ ls, IsCodeLine l) :
    stripComments (join ['\n'] ls) = join ['\n'] ls := by
  by_cases hnil : ls = []
  · subst hnil
    rfl
  · have hcode : ls.map lineCode = ls := by
      conv_rhs => rw [← List.map_id ls]
      exact List.map_congr_left fun l hl => (h l hl).lineCode_eq_self
    have hkept : ls.filter (!·.isEmpty) = ls := by
      rw [List.filter_eq_self]
      intro l hl
      simpa using (h l hl).ne_nil
    rw [stripComments_eq, splitOn_join hnil fun l hl => (h l hl).newline_not_mem, hcode, hkept]

theorem lines_join_codeLines (h : ∀ l ∈ ls, IsCodeLine l) : lines (join ['\n'] ls) = ls := by
  by_cases hnil : ls = []
  · subst hnil
    rfl
  · exact lines_join hnil fun l hl => (h l hl).isLine

theorem commentStart?_join (h : ∀ l ∈ ls, IsCodeLine l) :
    commentStart? (join ['\n'] ls) = none := by
  have hmasked : ls.map maskComments = ls := by
    conv_rhs => rw [← List.map_id ls]
    exact List.map_congr_left fun l hl => maskComments_eq_self (h l hl).free
  have hfree := commentStart?_maskComments (join ['\n'] ls)
  rwa [maskComments_join, hmasked] at hfree

end Codes

theorem stripComments_maskComments (t : Text) : stripComments (maskComments t) = stripComments t := by
  have hcode : ((splitOn '\n' t).map maskComments).map lineCode = (splitOn '\n' t).map lineCode := by
    rw [List.map_map]
    exact List.map_congr_left fun l hl => lineCode_maskComments ((join_splitOn '\n' t).2 l hl)
  rw [stripComments_eq, stripComments_eq, splitOn_maskComments, hcode]

/-- **Stripping comments gives a normal form.**  The result holds no comment, and it is its lines
with line feeds between them; none of them is blank or ends with a blank.  Stripping it again
changes nothing, and neither does masking the comments first. -/
theorem stripComments_normal (t : Text) :
    commentStart? (stripComments t) = none ∧
      join ['\n'] (lines (stripComments t)) = stripComments t ∧
      (∀ line ∈ lines (stripComments t), line.all isBlank = false ∧ trimEnd line = line) ∧
      stripComments (stripComments t) = stripComments t ∧
      stripComments (maskComments t) = stripComments t := by
  obtain ⟨ls, hstrip, h⟩ := exists_codeLines t
  have hlines : lines (stripComments t) = ls := by rw [hstrip, lines_join_codeLines h]
  refine ⟨?_, ?_, ?_, ?_, ?_⟩
  · rw [hstrip, commentStart?_join h]
  · rw [hlines, hstrip]
  · intro line hline
    rw [hlines] at hline
    exact ⟨(h line hline).not_all_blank, trimEnd_eq_self (h line hline).last⟩
  · rw [hstrip, stripComments_join h]
  · exact stripComments_maskComments t

end CanonicalVhdl.Text
