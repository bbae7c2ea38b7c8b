import CanonicalVhdl.Proofs.Text.Ends

/-!
# Lines and indentation

The body of a construct is printed by moving every line of its text to the right.
On texts without empty lines this inserts blanks after each line end, which
commutes with joining texts and adds up over several levels.

## Main definitions

* `Text.lineBreak k` — a line end and `k` steps of indentation.
* `Text.shift k t` — `t` with `k` steps of indentation after each line end.
* `Text.IsLined t` — `t` is made of one or more lines, none of them empty.

## Main statements

* `Text.nested_eq` — a nested text is a line break and the shifted text.
* `Text.shift_shift`, `Text.shift_lineBreak` — steps of indentation add up.
-/

namespace CanonicalVhdl.Text

/-! ## Cutting at a character -/

/-- The pieces found before come first. -/
theorem splitOnFrom_append (c : Char) (piece : Text) (pieces : List Text) (t : Text) :
    splitOnFrom c piece pieces t = pieces.reverse ++ splitOnFrom c piece [] t := by
  induction t generalizing piece pieces with
  | nil => simp [splitOnFrom]
  | cons d t ih =>
    by_cases h : d = c
    · simp only [splitOnFrom, h, beq_self_eq_true, if_true]
      rw [ih [] (piece.reverse :: pieces), ih [] [piece.reverse]]
      simp
    · simp only [splitOnFrom, beq_iff_eq, h, if_false]
      exact ih (d :: piece) pieces

/-- Characters other than the separator are collected. -/
theorem splitOnFrom_pass {c : Char} {l : Text} (h : c ∉ l) (piece : Text) (t : Text) :
    splitOnFrom c piece [] (l ++ t) = splitOnFrom c (l.reverse ++ piece) [] t := by
  induction l generalizing piece with
  | nil => rfl
  | cons d l ih =>
    have hd : d ≠ c := fun hd => h (hd ▸ List.mem_cons_self)
    have hl : c ∉ l := fun hl => h (List.mem_cons_of_mem d hl)
    simp only [List.cons_append, splitOnFrom, beq_iff_eq, hd, if_false]
    rw [ih hl]
    simp

theorem splitOn_of_not_mem {c : Char} {t : Text} (h : c ∉ t) : splitOn c t = [t] := by
  have := splitOnFrom_pass h [] []
  rw [List.append_nil] at this
  rw [splitOn, this]
  simp [splitOnFrom]

theorem splitOn_append {c : Char} {l : Text} (h : c ∉ l) (t : Text) :
    splitOn c (l ++ c :: t) = l :: splitOn c t := by
  rw [splitOn, splitOnFrom_pass h, splitOnFrom, if_pos (beq_self_eq_true c), splitOnFrom_append]
  simp [splitOn]

/-- Texts joined by a character that none of them holds are cut apart again. -/
theorem splitOn_join {c : Char} {parts : List Text} (hne : parts ≠ [])
    (h : ∀ p ∈ parts, c ∉ p) : splitOn c (join [c] parts) = parts := by
  induction parts with
  | nil => exact absurd rfl hne
  | cons p ps ih =>
    have hp := h p List.mem_cons_self
    cases ps with
    | nil =>
      rw [show join [c] [p] = p by simp [join]]
      exact splitOn_of_not_mem hp
    | cons q qs =>
      have hps := ih (List.cons_ne_nil q qs) fun r hr => h r (List.mem_cons_of_mem p hr)
      rw [show join [c] (p :: q :: qs) = p ++ c :: join [c] (q :: qs) by simp [join]]
      rw [splitOn_append hp, hps]

theorem splitOnFrom_ne_nil (c : Char) (piece : Text) (pieces : List Text) (t : Text) :
    splitOnFrom c piece pieces t ≠ [] := by
  rw [splitOnFrom_append]
  induction t generalizing piece with
  | nil => simp [splitOnFrom]
  | cons d t ih =>
    rw [splitOnFrom]
    split
    · rw [splitOnFrom_append]
      simp
    · exact ih _

theorem splitOnFrom_separator (c : Char) (a b : Text) :
    ∀ piece, splitOnFrom c piece [] (a ++ c :: b) = splitOnFrom c piece [] a ++ splitOn c b := by
  induction a with
  | nil =>
    intro piece
    have hstep : splitOnFrom c piece [] (c :: b) = splitOnFrom c [] [piece.reverse] b := by
      rw [splitOnFrom, if_pos (beq_self_eq_true c)]
    rw [List.nil_append, hstep, splitOnFrom_append]
    rfl
  | cons d a ih =>
    intro piece
    by_cases hd : (d == c) = true
    · rw [List.cons_append, splitOnFrom, if_pos hd, splitOnFrom, if_pos hd, splitOnFrom_append, ih,
        splitOnFrom_append c [] [piece.reverse] a, List.append_assoc]
    · rw [List.cons_append, splitOnFrom, if_neg hd, splitOnFrom, if_neg hd, ih]

/-- The pieces before a separator, and those after it. -/
theorem splitOn_separator (c : Char) (a b : Text) :
    splitOn c (a ++ c :: b) = splitOn c a ++ splitOn c b :=
  splitOnFrom_separator c a b []

theorem splitOn_ne_nil (c : Char) (t : Text) : splitOn c t ≠ [] :=
  splitOnFrom_ne_nil c [] [] t

theorem join_splitOnFrom (c : Char) (t : Text) :
    ∀ piece, c ∉ piece → join [c] (splitOnFrom c piece [] t) = piece.reverse ++ t
      ∧ ∀ l ∈ splitOnFrom c piece [] t, c ∉ l := by
  induction t with
  | nil => exact fun piece hpiece => ⟨by simp [splitOnFrom, join], by simpa [splitOnFrom] using hpiece⟩
  | cons d t ih =>
    intro piece hpiece
    by_cases hd : d = c
    · obtain ⟨hjoin, hlines⟩ := ih [] List.not_mem_nil
      have hstep : splitOnFrom c piece [] (d :: t) = piece.reverse :: splitOnFrom c [] [] t := by
        rw [splitOnFrom, if_pos (beq_iff_eq.2 hd), splitOnFrom_append]
        rfl
      have hne : splitOnFrom c [] [] t ≠ [] := splitOnFrom_ne_nil c [] [] t
      obtain ⟨q, qs, hq⟩ := List.exists_cons_of_ne_nil hne
      rw [hstep]
      refine ⟨?_, List.forall_mem_cons.2 ⟨by simpa using hpiece, hlines⟩⟩
      rw [hq] at hjoin ⊢
      simp only [join, List.intercalate_cons_cons] at hjoin ⊢
      rw [hjoin, hd]
      simp
    · obtain ⟨hjoin, hlines⟩ := ih (d :: piece) (by simp [hpiece, Ne.symm hd])
      rw [splitOnFrom, if_neg (by simpa using hd)]
      exact ⟨by rw [hjoin]; simp, hlines⟩

/-- The pieces between the occurrences of a character, with the character between them. -/
theorem join_splitOn (c : Char) (t : Text) :
    join [c] (splitOn c t) = t ∧ ∀ l ∈ splitOn c t, c ∉ l :=
  join_splitOnFrom c t [] List.not_mem_nil

/-! ## Indentation after line ends -/

/-- A line end and some steps of indentation. -/
def lineBreak (k : Nat) : Text :=
  '\n' :: List.replicate (4 * k) ' '

/-- A text with some more steps of indentation after each of its line ends. -/
def shift (k : Nat) (t : Text) : Text :=
  t.flatMap fun c => if c = '\n' then lineBreak k else [c]

@[simp] theorem shift_nil (k : Nat) : shift k [] = [] := rfl

@[simp] theorem shift_append (k : Nat) (s t : Text) : shift k (s ++ t) = shift k s ++ shift k t := by
  simp [shift]

/-- A text of one line stays as it is. -/
theorem shift_of_not_mem {t : Text} (h : '\n' ∉ t) (k : Nat) : shift k t = t := by
  induction t with
  | nil => rfl
  | cons c t ih =>
    have hc : c ≠ '\n' := fun hc => h (hc ▸ List.mem_cons_self)
    have ht := ih fun ht => h (List.mem_cons_of_mem c ht)
    rw [shift, List.flatMap_cons, if_neg hc, ← shift, ht]
    rfl

theorem shift_lineBreak (j k : Nat) : shift j (lineBreak k) = lineBreak (j + k) := by
  have hblank : shift j (List.replicate (4 * k) ' ') = List.replicate (4 * k) ' ' :=
    shift_of_not_mem (by simp [List.mem_replicate]) j
  rw [lineBreak, shift, List.flatMap_cons, if_pos rfl, ← shift, hblank, lineBreak, lineBreak]
  rw [List.cons_append, List.replicate_append_replicate, Nat.mul_add]

theorem shift_shift (j k : Nat) (t : Text) : shift j (shift k t) = shift (j + k) t := by
  induction t with
  | nil => rfl
  | cons c t ih =>
    have hcons : ∀ n, shift n (c :: t) = shift n [c] ++ shift n t := fun n =>
      shift_append n [c] t
    rw [hcons k, shift_append, ih, hcons (j + k)]
    congr 1
    by_cases hc : c = '\n'
    · have hone : ∀ n, shift n [c] = lineBreak n := by simp [shift, hc]
      rw [hone, hone, shift_lineBreak]
    · have hone : ∀ n, shift n [c] = [c] := by simp [shift, hc]
      rw [hone, hone, hone]

theorem shift_zero (t : Text) : shift 0 t = t := by
  induction t with
  | nil => rfl
  | cons c t ih =>
    rw [show c :: t = [c] ++ t from rfl, shift_append, ih]
    congr 1
    by_cases hc : c = '\n' <;> simp [shift, lineBreak, hc]

/-! ## Lines -/

/-- A line that is not empty and does not end with a carriage return. -/
structure IsLine (l : Text) : Prop where
  /-- There is a character. -/
  ne_nil : l ≠ []
  /-- There is no line end. -/
  newline_not_mem : '\n' ∉ l
  /-- A carriage return at the end would be taken for part of the line end. -/
  last_ne : l.getLast? ≠ some '\r'

/-- A text made of lines. -/
def IsLined (t : Text) : Prop :=
  ∃ ls, ls ≠ [] ∧ (∀ l ∈ ls, IsLine l) ∧ t = join ['\n'] ls

/-- One line without blanks at its ends. -/
theorem isLine_of_solid {l : Text} (h : Solid l) (hline : '\n' ∉ l) : IsLine l := by
  refine ⟨h.ne_nil, hline, fun hlast => ?_⟩
  have := h.last
  rw [hlast] at this
  exact absurd this (by decide)

theorem IsLine.isLined {l : Text} (h : IsLine l) : IsLined l :=
  ⟨[l], List.cons_ne_nil l [], by simpa using h, by simp [join]⟩

theorem join_cons_of_ne_nil (l : Text) {ls : List Text} (h : ls ≠ []) :
    join ['\n'] (l :: ls) = l ++ '\n' :: join ['\n'] ls := by
  cases ls with
  | nil => exact absurd rfl h
  | cons m ms => simp [join]

theorem IsLine.cons {l t : Text} (h : IsLine l) (ht : IsLined t) : IsLined (l ++ '\n' :: t) := by
  obtain ⟨ls, hne, hls, rfl⟩ := ht
  refine ⟨l :: ls, List.cons_ne_nil l ls, ?_, (join_cons_of_ne_nil l hne).symm⟩
  intro m hm
  rcases List.mem_cons.1 hm with rfl | hm
  · exact h
  · exact hls m hm

theorem IsLined.append {s t : Text} (hs : IsLined s) (ht : IsLined t) :
    IsLined (s ++ '\n' :: t) := by
  obtain ⟨ls, hne, hls, rfl⟩ := hs
  induction ls with
  | nil => exact absurd rfl hne
  | cons l ls ih =>
    have hl := hls l List.mem_cons_self
    by_cases hnil : ls = []
    · subst hnil
      rw [show join ['\n'] [l] = l by simp [join]]
      exact hl.cons ht
    · rw [join_cons_of_ne_nil l hnil, List.append_assoc, List.cons_append]
      exact hl.cons (ih hnil fun m hm => hls m (List.mem_cons_of_mem l hm))

/-- Texts made of lines, one after the other on lines of their own. -/
theorem isLined_join {parts : List Text} (hne : parts ≠ []) (h : ∀ p ∈ parts, IsLined p) :
    IsLined (join ['\n'] parts) := by
  induction parts with
  | nil => exact absurd rfl hne
  | cons p ps ih =>
    have hp := h p List.mem_cons_self
    by_cases hnil : ps = []
    · subst hnil
      rwa [show join ['\n'] [p] = p by simp [join]]
    · rw [join_cons_of_ne_nil p hnil]
      exact hp.append (ih hnil fun q hq => h q (List.mem_cons_of_mem p hq))

theorem IsLined.ne_nil {t : Text} (h : IsLined t) : t ≠ [] := by
  obtain ⟨ls, hne, hls, rfl⟩ := h
  cases ls with
  | nil => exact absurd rfl hne
  | cons l ls =>
    have hl := (hls l List.mem_cons_self).ne_nil
    cases ls with
    | nil => simpa [join] using hl
    | cons m ms => simp [join, hl]

theorem withoutReturn_eq_self {l : Text} (h : l.getLast? ≠ some '\r') : withoutReturn l = l := by
  simp [withoutReturn, dropFinal?, h]

/-- The lines that a text was made of. -/
theorem lines_join {ls : List Text} (hne : ls ≠ []) (h : ∀ l ∈ ls, IsLine l) :
    lines (join ['\n'] ls) = ls := by
  have hsplit := splitOn_join hne fun l hl => (h l hl).newline_not_mem
  have hlast := (h _ (List.getLast_mem hne)).ne_nil
  have hinit : ls.dropLast.map withoutReturn = ls.dropLast := by
    rw [List.map_eq_iff]
    intro i
    cases hi : ls.dropLast[i]? with
    | none => rfl
    | some l =>
      have hl := List.dropLast_subset ls (List.mem_of_getElem? hi)
      rw [Option.map_some, withoutReturn_eq_self (h l hl).last_ne]
  have hempty : (ls.getLast hne).isEmpty = false := by simpa using hlast
  simp only [lines, hsplit, hinit, List.getLast?_eq_some_getLast hne, Option.getD_some, hempty]
  exact List.dropLast_append_getLast hne

/-- Moving lines to the right puts blanks after each line end. -/
theorem cons_join_indented (ls : List Text) (hne : ls ≠ []) (h : ∀ l ∈ ls, IsLine l) :
    '\n' :: join ['\n'] (ls.map (indentStep ++ ·)) = lineBreak 1 ++ shift 1 (join ['\n'] ls) := by
  induction ls with
  | nil => exact absurd rfl hne
  | cons l ls ih =>
    have hl := shift_of_not_mem (h l List.mem_cons_self).newline_not_mem 1
    by_cases hnil : ls = []
    · subst hnil
      simp only [join, List.map_cons, List.map_nil, List.intercalate_singleton, hl]
      rfl
    · have hrest := ih hnil fun m hm => h m (List.mem_cons_of_mem l hm)
      rw [List.map_cons, join_cons_of_ne_nil _ (by simpa using hnil), join_cons_of_ne_nil _ hnil,
        hrest, show l ++ '\n' :: join ['\n'] ls = l ++ (['\n'] ++ join ['\n'] ls) from rfl,
        shift_append, shift_append, hl]
      rw [show shift 1 ['\n'] = lineBreak 1 by simp [shift]]
      simp [lineBreak, indentStep]

/-- **A nested text is a line break and the shifted text.** -/
theorem nested_eq {t : Text} (h : IsLined t) : nested t = lineBreak 1 ++ shift 1 t := by
  have hne : t.isEmpty = false := by simpa using h.ne_nil
  obtain ⟨ls, hls, hlines, rfl⟩ := h
  rw [nested, hne]
  simp only [Bool.false_eq_true, if_false, indent, lines_join hls hlines]
  rw [← cons_join_indented ls hls hlines]
  congr 2
  refine List.map_congr_left fun l hl => ?_
  have : l.isEmpty = false := by simpa using (hlines l hl).ne_nil
  rw [this]
  simp

/-- Moving a text made of lines to the right keeps its lines. -/
theorem IsLined.indent {t : Text} (h : IsLined t) (levels : Nat) :
    IsLined (Text.indent levels t) := by
  obtain ⟨ls, hne, hls, rfl⟩ := h
  refine ⟨_, ?_, ?_, rfl⟩
  · simpa [lines_join hne hls] using hne
  · intro m hm
    rw [lines_join hne hls] at hm
    obtain ⟨l, hl, rfl⟩ := List.mem_map.1 hm
    have hline := hls l hl
    have hnil : l.isEmpty = false := by simpa using hline.ne_nil
    rw [hnil]
    refine ⟨by simp [hline.ne_nil], ?_, ?_⟩
    · simp only [Bool.false_eq_true, if_false, List.mem_append, not_or]
      refine ⟨?_, hline.newline_not_mem⟩
      intro hmem
      obtain ⟨step, hstep, hmem⟩ := List.mem_flatten.1 hmem
      rw [List.eq_of_mem_replicate hstep] at hmem
      exact absurd hmem (by decide)
    · simpa [List.getLast?_append_of_ne_nil _ hline.ne_nil] using hline.last_ne

/-- What may follow a text made of lines: nothing, or more of them after a line end. -/
def IsTail (y : Text) : Prop :=
  y = [] ∨ ∃ t, IsLined t ∧ y = '\n' :: t

theorem IsLined.tail {t : Text} (h : IsLined t) : IsTail ('\n' :: t) := .inr ⟨t, h, rfl⟩

theorem IsLined.append_tail {t y : Text} (h : IsLined t) (hy : IsTail y) : IsLined (t ++ y) := by
  obtain rfl | ⟨u, hu, rfl⟩ := hy
  · rwa [List.append_nil]
  · exact h.append hu

theorem IsTail.append {y z : Text} (hy : IsTail y) (hz : IsTail z) : IsTail (y ++ z) := by
  obtain rfl | ⟨t, ht, rfl⟩ := hy
  · exact hz
  · exact (ht.append_tail hz).tail

theorem isTail_nested {t : Text} (ht : t = [] ∨ IsLined t) : IsTail (nested t) := by
  rcases ht with rfl | ht
  · exact .inl rfl
  · have hne : t.isEmpty = false := by simpa using ht.ne_nil
    rw [nested, hne]
    exact (ht.indent 1).tail

end CanonicalVhdl.Text
