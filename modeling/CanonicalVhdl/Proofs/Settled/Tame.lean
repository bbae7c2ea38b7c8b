import CanonicalVhdl.Proofs.Region.Statement
import CanonicalVhdl.Proofs.Settled.Text

/-!
# Texts without structure

The extent of a text depends neither on how much precedes it nor, unless a word or a
literal would reach over, on what.  Blanks, points and words without a part in the
structure leave a scan as it is, and so do comments; a clause made of these ends at its
first semicolon.

## Main definitions

* `Text.IsTame t` — a text without marks or words of structure.

## Main statements

* `Text.extentFrom_shift`, `Text.extentFrom_before` — an extent does not depend on where
  a text stands.
* `Text.exists_extent?_of_tame` — a clause without structure ends at its first semicolon.
-/

namespace CanonicalVhdl

open Text Token

namespace Text

/-! ## Extents wherever a text stands -/

theorem triviaEnd_passed (t : Text) :
    ∀ inComment passed passed' before,
      (triviaEnd inComment passed before t).before = (triviaEnd inComment passed' before t).before
      ∧ (triviaEnd inComment passed before t).rest = (triviaEnd inComment passed' before t).rest := by
  induction t with
  | nil => exact fun _ _ _ _ => ⟨rfl, rfl⟩
  | cons c t ih =>
    intro inComment passed passed' before
    rw [triviaEnd, triviaEnd]
    split
    · exact ih _ _ _ _
    · split
      · exact ih _ _ _ _
      · split
        · exact ih _ _ _ _
        · exact ⟨rfl, rfl⟩

/-- The tokens of a text do not depend on how much precedes it. -/
theorem nextTokens_passed (n : Nat) :
    ∀ passed passed' before t,
      nextTokens n ⟨passed, before, t⟩ = nextTokens n ⟨passed', before, t⟩ := by
  induction n with
  | zero => exact fun _ _ _ _ => rfl
  | succ n ih =>
    intro passed passed' before t
    obtain ⟨hbefore, hrest⟩ := triviaEnd_passed t false passed passed' before
    simp only [nextTokens, nextToken?, skipTrivia, hbefore, hrest, advance]
    cases (triviaEnd false passed' before t).rest with
    | nil => rfl
    | cons c r => exact congrArg _ (ih _ _ _ _)

end Text

/-- The nesting after a word does not depend on how much precedes it. -/
theorem Nesting.word_passed (s : Nesting) (w : Text) (passed passed' : Nat)
    (before : Option Char) (t : Text) :
    s.word w ⟨passed, before, t⟩ = s.word w ⟨passed', before, t⟩ := by
  simp only [word, opensConstruct, nextTokens_passed _ passed passed']

namespace Text

/-- The extent of a text does not depend on how much precedes it. -/
theorem extentFrom_shift (k : Nat) (t : Text) :
    ∀ parens s skip position before,
      extentFrom parens s skip (position + k) before t
        = (extentFrom parens s skip position before t).map (· + k) := by
  induction t with
  | nil => exact fun _ _ _ _ _ => rfl
  | cons c t ih =>
    intro parens s skip position before
    have hnext : ∀ parens s skip before, extentFrom parens s skip (position + k + 1) before t
        = (extentFrom parens s skip (position + 1) before t).map (· + k) := by
      intro parens s skip before
      rw [Nat.add_right_comm, ih]
    cases skip with
    | succ skip => exact hnext ..
    | zero =>
      simp only [extentFrom, hnext]
      split
      · rfl
      · rfl
      split
      · split
        · generalize c :: t.takeWhile isIdentChar = w
          have hword : s.word w (advance w.length ⟨position + k, before, c :: t⟩)
              = s.word w (advance w.length ⟨position, before, c :: t⟩) :=
            Nesting.word_passed s w _ _ _ _
          rw [hword]
          cases s.word w (advance w.length ⟨position, before, c :: t⟩) <;> rfl
        · rfl
      split
      · rfl
      split
      · split <;> rfl
      split
      · split
        · rw [Option.map_some, Nat.add_right_comm]
        · rfl
      · rfl

/-- The extent of a text does not depend on what precedes it, unless that belongs to a
word or a tick follows it. -/
theorem extentFrom_before {t : Text} (ht : t.head? ≠ some '\'') {before : Option Char}
    (hbefore : before.any isIdentChar = false) (parens : Nat) (s : Nesting) (position : Nat) :
    extentFrom parens s 0 position before t = extentFrom parens s 0 position none t := by
  cases t with
  | nil => rfl
  | cons c t =>
    have hat : Lexeme.at before (c :: t) = Lexeme.at none (c :: t) := by
      have htick : c ≠ '\'' := fun hc => ht (by rw [hc]; rfl)
      unfold Lexeme.at
      split
      · rfl
      · rfl
      · next heq => exact absurd (List.cons.inj heq).1 htick
      · rfl
    have hplace : ∀ n, advance (n + 1) ⟨position, before, c :: t⟩
        = advance (n + 1) ⟨position, none, c :: t⟩ := by
      intro n
      simp [advance, List.getLast?_cons]
    simp only [extentFrom, hat, hbefore, List.length_cons, hplace]
    rfl

/-! ## Blanks and points -/

/-- A blank or a point. -/
def isGap (c : Char) : Bool :=
  isBlank c || c == '.'

theorem isIdentChar_of_isGap {c : Char} (h : isGap c = true) : isIdentChar c = false := by
  rw [isGap, Bool.or_eq_true, beq_iff_eq] at h
  rw [Bool.eq_false_iff]
  intro hident
  rcases h with h | rfl
  · rw [isBlank_eq_false_of_isIdentChar hident] at h
    cases h
  · cases hident

theorem isGap_of_isBlank {c : Char} (h : isBlank c = true) : isGap c = true := by
  rw [isGap, h]
  rfl

theorem ne_of_isGap {c d : Char} (hc : isGap c = true) (hd : isGap d = false) : c ≠ d := by
  rintro rfl
  rw [hc] at hd
  cases hd

/-- A blank or a point is code. -/
theorem at_gap {c : Char} (hc : isGap c = true) (before : Option Char) (u : Text) :
    Lexeme.at before (c :: u) = .code :=
  at_code (ne_of_isGap hc (by decide)) (fun h => absurd h (ne_of_isGap hc (by decide)))
    (fun h => absurd h (ne_of_isGap hc (by decide)))

/-- A blank or a point is passed over. -/
theorem extentFrom_gap {c : Char} (hc : isGap c = true) (u : Text) {parens : Nat} {s : Nesting}
    {position : Nat} {before : Option Char} :
    extentFrom parens s 0 position before (c :: u)
      = extentFrom parens s 0 (position + 1) (some c) u :=
  extentFrom_code (at_gap hc before u) (by simp [isIdentChar_of_isGap hc])
    (ne_of_isGap hc (by decide)) (ne_of_isGap hc (by decide))
    (by simp [ne_of_isGap (d := ';') hc (by decide)])

/-- A construct after blanks. -/
theorem extent?_append_blank {g t : Text} (hg : g.all isBlank = true)
    (ht : t.head? ≠ some '\'') (h : extent? t = some t.length) :
    extent? (g ++ t) = some (g ++ t).length := by
  have hpass : ∀ (g : Text) (position : Nat) (before : Option Char), g.all isBlank = true →
      before.any isIdentChar = false →
      extentFrom 0 .start 0 position before (g ++ t)
        = extentFrom 0 .start 0 (position + g.length) none t := by
    intro g
    induction g with
    | nil => exact fun position before _ hbefore => extentFrom_before ht hbefore 0 .start position
    | cons c g ih =>
      intro position before hg hbefore
      rw [List.all_cons, Bool.and_eq_true] at hg
      have hgap := isGap_of_isBlank hg.1
      rw [List.cons_append, extentFrom_gap hgap, ih _ (some c) hg.2 (isIdentChar_of_isGap hgap),
        List.length_cons]
      congr 1
      omega
  rw [extent?, hpass g 0 none hg rfl, extentFrom_shift, show extentFrom 0 .start 0 0 none t = _ from h,
    Option.map_some, List.length_append, Nat.add_comm]

/-! ## Texts without structure -/

/-- A text of words, blanks and points, none of whose words opens, divides or closes a
construct. -/
structure IsTame (t : Text) : Prop where
  /-- Words, blanks and points are all that the text holds. -/
  chars : ∀ c ∈ t, isIdentChar c = true ∨ isBlank c = true ∨ c = '.'
  /-- No word has a part in the structure. -/
  words : ∀ w ∈ t.splitOnP (!isIdentChar ·), structureWords.contains (fold w) = false

theorem isTame_nil : IsTame [] := ⟨by simp, by decide⟩

/-- Between two parts of a text stands a blank or a point. -/
theorem isTame_append_cons {c : Char} (hc : isGap c = true) {s t : Text} :
    IsTame (s ++ c :: t) ↔ IsTame s ∧ IsTame t := by
  have hsep : (!isIdentChar c) = true := by rw [isIdentChar_of_isGap hc]; rfl
  constructor
  · rintro ⟨hchars, hwords⟩
    rw [List.splitOnP_append_cons s t hsep] at hwords
    exact ⟨⟨fun d hd => hchars d (by simp [hd]), fun w hw => hwords w (by simp [hw])⟩,
      ⟨fun d hd => hchars d (by simp [hd]), fun w hw => hwords w (by simp [hw])⟩⟩
  · rintro ⟨hs, ht⟩
    refine ⟨fun d hd => ?_, fun w hw => ?_⟩
    · rcases List.mem_append.1 hd with hd | hd
      · exact hs.chars d hd
      · rcases List.mem_cons.1 hd with rfl | hd
        · rw [isGap, Bool.or_eq_true, beq_iff_eq] at hc
          exact .inr hc
        · exact ht.chars d hd
    · rw [List.splitOnP_append_cons s t hsep] at hw
      rcases List.mem_append.1 hw with hw | hw
      · exact hs.words w hw
      · exact ht.words w hw

theorem isTame_cons {c : Char} (hc : isGap c = true) {t : Text} : IsTame (c :: t) ↔ IsTame t := by
  rw [← List.nil_append (c :: t), isTame_append_cons hc]
  exact ⟨And.right, fun h => ⟨isTame_nil, h⟩⟩

/-- A word is tame when it has no part in the structure. -/
theorem isTame_run {w : Text} (hw : w.all isIdentChar = true) :
    IsTame w ↔ structureWords.contains (fold w) = false := by
  have hident : ∀ c ∈ w, isIdentChar c = true := List.all_eq_true.1 hw
  have hsplit : w.splitOnP (!isIdentChar ·) = [w] :=
    List.splitOnP_eq_singleton fun c hc => by rw [hident c hc]; rfl
  constructor
  · exact fun h => h.words w (by rw [hsplit]; exact List.mem_singleton_self w)
  · refine fun h => ⟨fun c hc => .inl (hident c hc), fun v hv => ?_⟩
    rw [hsplit] at hv
    rwa [List.mem_singleton.1 hv]

/-- A text with a gap at the start of the second of its parts. -/
theorem IsTame.append {s t : Text} (hs : IsTame s) (ht : IsTame t)
    (h : t.head?.any isIdentChar = false) : IsTame (s ++ t) := by
  cases t with
  | nil => rwa [List.append_nil]
  | cons c t =>
    have hc : isGap c = true := by
      rcases ht.chars c List.mem_cons_self with hident | hgap
      · exact absurd (hident.symm.trans h) (by decide)
      · rwa [isGap, Bool.or_eq_true, beq_iff_eq]
    exact (isTame_append_cons hc).2 ⟨hs, (isTame_cons hc).1 ht⟩

theorem IsTame.blank_append {g t : Text} (ht : IsTame t) (hg : g.all isBlank = true) :
    IsTame (g ++ t) := by
  induction g with
  | nil => exact ht
  | cons c g ih =>
    rw [List.all_cons, Bool.and_eq_true] at hg
    exact (isTame_cons (isGap_of_isBlank hg.1)).2 (ih hg.2)

theorem isTame_blank {g : Text} (hg : g.all isBlank = true) : IsTame g := by
  have h := isTame_nil.blank_append hg
  rwa [List.append_nil] at h

theorem IsTame.append_blank {g t : Text} (ht : IsTame t) (hg : g.all isBlank = true) :
    IsTame (t ++ g) := by
  refine ht.append (isTame_blank hg) ?_
  cases g with
  | nil => rfl
  | cons c g =>
    rw [List.all_cons, Bool.and_eq_true] at hg
    exact isIdentChar_of_isGap (isGap_of_isBlank hg.1)

theorem IsTame.of_trim {t : Text} (h : IsTame (trim t)) : IsTame t := by
  obtain ⟨g, g', hg, hg', hsplit⟩ := exists_pad_trim t
  rw [hsplit]
  exact (h.blank_append hg).append_blank hg'

theorem isTame_join {parts : List Text} (h : ∀ p ∈ parts, IsTame p) : IsTame (join ['.'] parts) := by
  induction parts with
  | nil => exact isTame_nil
  | cons p ps ih =>
    obtain ⟨hp, hps⟩ := List.forall_mem_cons.1 h
    by_cases hnil : ps = []
    · subst hnil
      simpa [join] using hp
    · obtain ⟨q, qs, rfl⟩ := List.exists_cons_of_ne_nil hnil
      have hjoin : join ['.'] (p :: q :: qs) = p ++ '.' :: join ['.'] (q :: qs) := by
        simp [join, List.intercalate_cons_cons]
      rw [hjoin]
      exact (isTame_append_cons (by decide)).2 ⟨hp, ih hps⟩

/-- The scan of a tame text finds nothing. -/
theorem extentFrom_tame {u : Text} (hu : u.head?.any isIdentChar = false) (n : Nat) :
    ∀ {t : Text} {position : Nat} {before : Option Char}, t.length ≤ n → IsTame t →
      (before.any isIdentChar = false ∨ t.head?.any isIdentChar = false) →
      extentFrom 0 .start 0 position before (t ++ u)
        = extentFrom 0 .start 0 (position + t.length) (lastOr before t) u := by
  induction n with
  | zero =>
    intro t position before ht _ _
    rw [List.eq_nil_of_length_eq_zero (Nat.le_zero.1 ht)]
    rfl
  | succ n ih =>
    intro t position before ht htame hstart
    rcases t with _ | ⟨c, t⟩
    · rfl
    rw [List.length_cons] at ht
    cases hident : isIdentChar c with
    | true =>
      obtain ⟨w, r, hsplit, hrun, hrest, hshort⟩ := exists_run hident t
      have hr := hrest [] atLineEnd_nil
      rw [List.append_nil] at hr
      have hbefore : before.any isIdentChar = false := by
        rcases hstart with h | h
        · exact h
        · exact absurd (hident.symm.trans h) (by decide)
      rw [hsplit] at htame ⊢
      have hparts : IsTame w ∧ IsTame r := by
        cases r with
        | nil => exact ⟨by rwa [List.append_nil] at htame, isTame_nil⟩
        | cons d r =>
          have hd : isGap d = true := by
            rcases htame.chars d (by simp) with hd | hd
            · exact absurd (hd.symm.trans hr) (by decide)
            · rwa [isGap, Bool.or_eq_true, beq_iff_eq]
          obtain ⟨hw, hrest⟩ := (isTame_append_cons hd).1 htame
          exact ⟨hw, (isTame_cons hd).2 hrest⟩
      have hword : ∀ p, Nesting.start.word w p = some .start :=
        Nesting.word_eq_self ((isTame_run hrun.ident).1 hparts.1) rfl
      have hhead : (r ++ u).head?.any isIdentChar = false := by
        cases r with
        | nil => exact hu
        | cons d r => exact hr
      rw [List.append_assoc, extentFrom_plain_word hrun hbefore hhead fun _ => hword,
        ih (by omega) hparts.2 (.inr hr), List.length_append, lastOr_append, Nat.add_assoc]
    | false =>
      have hgap : isGap c = true := by
        rcases htame.chars c List.mem_cons_self with h | h
        · rw [hident] at h
          cases h
        · rwa [isGap, Bool.or_eq_true, beq_iff_eq]
      rw [List.cons_append, extentFrom_gap hgap, ih (by omega) ((isTame_cons hgap).1 htame)
        (.inl (show (some c).any isIdentChar = false from hident)), List.length_cons, lastOr_cons]
      congr 1
      omega

/-! ## Clauses on lines with comments -/

/-- A line whose code is tame is passed over, with the line end after it. -/
theorem extentFrom_line {l u : Text} (hl : '\n' ∉ l) (h : IsTame (lineCode l)) {position : Nat}
    {before : Option Char} (hbefore : before.any isIdentChar = false) :
    extentFrom 0 .start 0 position before (l ++ '\n' :: u)
      = extentFrom 0 .start 0 (position + l.length + 1) (some '\n') u := by
  obtain ⟨g, w, hsplit, hg, hw⟩ := exists_lineCode l
  have htame := h.append_blank hg
  rw [← List.append_assoc] at hsplit
  rw [hsplit, List.append_assoc, List.length_append, ← Nat.add_assoc]
  obtain rfl | ⟨v, rfl⟩ := hw
  · rw [List.nil_append, extentFrom_tame (by rfl) _ (Nat.le_refl _) htame (.inl hbefore),
      extentFrom_gap (by decide)]
    rfl
  · have hv : '\n' ∉ v := fun hv => hl (by rw [hsplit]; simp [hv])
    have hcomment := at_comment (u := '\n' :: u) hv (atLineEnd_newline u)
    rw [extentFrom_tame (by rfl) _ (Nat.le_refl _) htame (.inl hbefore)]
    refine (extentFrom_comment (x := '-' :: v) (hcomment _)).trans ?_
    rw [extentFrom_gap (by decide)]
    simp only [List.length_cons]
    congr 1
    omega

/-- Lines whose code goes on tamely to a semicolon end there. -/
theorem exists_extentFrom_lines {ls : List Text} :
    (∀ l ∈ ls, '\n' ∉ l) → ∀ {x y : Text},
      join ['\n'] ((ls.map lineCode).filter (!·.isEmpty)) = x ++ ';' :: y → IsTame x →
      ∃ k, ∀ r position before, before.any isIdentChar = false →
        extentFrom 0 .start 0 position before (join ['\n'] ls ++ r) = some (position + k) := by
  induction ls with
  | nil =>
    intro _ x y h
    simp [join] at h
  | cons l ls ih =>
    intro hlines x y h hx
    obtain ⟨hl, hls⟩ := List.forall_mem_cons.1 hlines
    -- the semicolon is in the code of the line, or behind it
    have hcases : (∃ y', lineCode l = x ++ ';' :: y') ∨ ls ≠ [] ∧ IsTame (lineCode l) ∧
        ∃ x', join ['\n'] ((ls.map lineCode).filter (!·.isEmpty)) = x' ++ ';' :: y ∧ IsTame x' := by
      by_cases hnil : lineCode l = []
      · rw [List.map_cons, List.filter_cons_of_neg (by simp [hnil])] at h
        refine .inr ⟨?_, by rw [hnil]; exact isTame_nil, x, h, hx⟩
        rintro rfl
        simp [join] at h
      · rw [List.map_cons, List.filter_cons_of_pos (by simpa using hnil)] at h
        by_cases hrest : (ls.map lineCode).filter (!·.isEmpty) = []
        · rw [hrest] at h
          exact .inl ⟨y, by simpa [join] using h⟩
        · rw [join_cons_of_ne_nil _ hrest] at h
          obtain ⟨a, hxa, ha⟩ | ⟨a, hla, ha⟩ := List.append_eq_append_iff.1 h
          · rcases a with _ | ⟨d, a⟩
            · exact absurd (List.cons.inj ha).1 (by decide)
            · obtain ⟨rfl, htail⟩ := List.cons.inj ha
              rw [hxa] at hx
              obtain ⟨hline, htame⟩ := (isTame_append_cons (by decide)).1 hx
              refine .inr ⟨?_, hline, a, htail, htame⟩
              rintro rfl
              simp at hrest
          · rcases a with _ | ⟨d, a⟩
            · exact absurd (List.cons.inj ha).1 (by decide)
            · rw [← (List.cons.inj ha).1] at hla
              exact .inl ⟨a, hla⟩
    obtain ⟨y', hy'⟩ | ⟨hne, hline, x', hx', htame⟩ := hcases
    · refine ⟨x.length + 1, fun r position before hbefore => ?_⟩
      obtain ⟨g, w, hsplit, -, -⟩ := exists_lineCode l
      have hjoin : ∃ z, join ['\n'] (l :: ls) ++ r = x ++ ';' :: z := by
        rw [hsplit, hy']
        cases ls with
        | nil => exact ⟨y' ++ (g ++ w) ++ r, by simp [join]⟩
        | cons m ms =>
          exact ⟨y' ++ (g ++ w) ++ '\n' :: join ['\n'] (m :: ms) ++ r, by
            rw [join_cons_of_ne_nil _ (List.cons_ne_nil m ms)]
            simp⟩
      obtain ⟨z, hz⟩ := hjoin
      rw [hz, extentFrom_tame (by rfl) _ (Nat.le_refl _) hx (.inl hbefore), extentFrom_semicolon,
        if_pos (show Nesting.start.depth = 0 from rfl), Nat.add_assoc]
    · obtain ⟨k, hk⟩ := ih hls hx' htame
      refine ⟨l.length + 1 + k, fun r position before hbefore => ?_⟩
      rw [join_cons_of_ne_nil l hne, List.append_assoc, List.cons_append,
        extentFrom_line hl hline hbefore, hk r _ _ (by decide)]
      congr 1
      omega

/-- A text whose code goes on tamely to a semicolon ends there, whatever follows. -/
theorem exists_extent?_of_tame {t x y : Text} (h : withoutComments t = x ++ ';' :: y)
    (hx : IsTame x) : ∃ k, ∀ r, extent? (t ++ r) = some k := by
  rw [withoutComments] at h
  split at h
  · obtain ⟨hjoin, hlines⟩ := join_splitOn '\n' t
    rw [stripComments_eq] at h
    obtain ⟨k, hk⟩ := exists_extentFrom_lines hlines h hx
    rw [hjoin] at hk
    exact ⟨0 + k, fun r => hk r 0 none rfl⟩
  · refine ⟨x.length + 1, fun r => ?_⟩
    rw [h, extent?, List.append_assoc, extentFrom_tame (by rfl) _ (Nat.le_refl _) hx (.inl rfl),
      List.cons_append, extentFrom_semicolon, if_pos (show Nesting.start.depth = 0 from rfl),
      Nat.zero_add]

end Text
end CanonicalVhdl
