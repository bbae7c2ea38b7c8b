import CanonicalVhdl.Proofs.Comment.Masked
import CanonicalVhdl.Proofs.Search.Word

/-!
# Phrases

A phrase is a row of words with blanks between them.  The search for a phrase goes on behind what
it has found, and behind the first word where the rest of the phrase is missing.  Words are made of
identifier characters, so no phrase starts inside a word, and nothing is passed over.

## Main definitions

* `Text.SpellsPhrase ignoreCase words x` — a text is made of the words, with blanks between them.
* `Text.StandsPhrase ignoreCase words t s e` — a phrase takes up the bytes between two offsets.
* `Text.Exhausts ignoreCase words t n ranges` — ranges are those of the phrases from an offset on.

## Main statements

* `Text.exhausts_phrases` — the search for a phrase finds each one that does not start inside
  another one it has found.
* `Text.found_whole` — what the searches for words and phrases find.
-/

namespace CanonicalVhdl.Text

/-! ## Phrases -/

/-- Whether a text is made of words, each behind one blank at least. -/
def SpellsRest (ignoreCase : Bool) : List Text → Text → Prop
  | [], x => x = []
  | word :: words, x =>
    word ≠ [] ∧ ∃ g y z, x = g ++ (y ++ z) ∧ g ≠ [] ∧ g.all isBlank = true ∧
      Spells ignoreCase word y ∧ SpellsRest ignoreCase words z

/-- Whether a text is made of words with one blank at least between them. -/
def SpellsPhrase (ignoreCase : Bool) : List Text → Text → Prop
  | [], _ => False
  | word :: words, x =>
    word ≠ [] ∧ ∃ y z, x = y ++ z ∧ Spells ignoreCase word y ∧ SpellsRest ignoreCase words z

/-- Whether a phrase takes up the bytes of a text between two offsets. -/
def StandsPhrase (ignoreCase : Bool) (words : List Text) (t : Text) (s e : Nat) : Prop :=
  ∃ a x b, t = a ++ (x ++ b) ∧ byteLength a = s ∧ byteLength (a ++ x) = e ∧
    SpellsPhrase ignoreCase words x ∧ Apart a b

section Phrases

variable {ignoreCase : Bool} {first : Text} {words : List Text}

/-- No identifier character starts what follows a word of a phrase. -/
theorem SpellsRest.head?_append {x b : Text} (h : SpellsRest ignoreCase words x)
    (hb : b.head?.any isIdentChar = false) : (x ++ b).head?.any isIdentChar = false := by
  cases words with
  | nil =>
    obtain rfl : x = [] := h
    exact hb
  | cons word words =>
    obtain ⟨-, g, y, z, rfl, hg, hblank, -, -⟩ := h
    obtain ⟨c, g, rfl⟩ := List.exists_cons_of_ne_nil hg
    rw [List.all_cons, Bool.and_eq_true] at hblank
    simp only [List.cons_append, List.head?_cons, Option.any_some]
    by_contra hident
    rw [isBlank_eq_false_of_isIdentChar (by simpa using hident)] at hblank
    exact Bool.false_ne_true hblank.1

/-- The blanks in front of a word. -/
theorem span_word {g y u word : Text} (hg : g.all isBlank = true) (hword : word ≠ [])
    (hident : word.all isIdentChar = true) (hy : Spells ignoreCase word y) :
    (g ++ (y ++ u)).takeWhile isBlank = g ∧ (g ++ (y ++ u)).drop g.length = y ++ u := by
  obtain ⟨c, y, rfl⟩ := List.exists_cons_of_ne_nil (hy.ne_nil hword)
  have hc : isBlank c = false := by
    apply isBlank_eq_false_of_isIdentChar
    have := hy.all_isIdentChar hident
    rw [List.all_cons, Bool.and_eq_true] at this
    exact this.1
  constructor
  · rw [List.takeWhile_append_of_pos (List.all_eq_true.1 hg)]
    simp [hc]
  · exact List.drop_left

/-- **How far the words of a phrase extend** behind its first one. -/
theorem phraseLength?_eq_some_iff (hident : ∀ w ∈ words, w.all isIdentChar = true) :
    ∀ {length n : Nat} {t : Text}, t.head?.any isIdentChar = false →
      (phraseLength? ignoreCase length t words = some n ↔
        ∃ x b, t = x ++ b ∧ n = length + x.length ∧ SpellsRest ignoreCase words x ∧
          b.head?.any isIdentChar = false) := by
  induction words with
  | nil =>
    intro length n t ht
    rw [phraseLength?, Option.some.injEq]
    constructor
    · rintro rfl
      exact ⟨[], t, rfl, rfl, rfl, ht⟩
    · rintro ⟨x, b, rfl, rfl, hx, -⟩
      obtain rfl : x = [] := hx
      rfl
  | cons word words ih =>
    intro length n t ht
    obtain ⟨hword, hwords⟩ := List.forall_mem_cons.1 hident
    constructor
    · intro h
      simp only [phraseLength?] at h
      split at h
      · cases h
      · rename_i hgap
        split at h
        · cases h
        · rename_i after hwhole
          obtain ⟨hne, -, y, hy, hspells, hafter⟩ := wholeWord?_eq_some_iff.1 hwhole
          obtain ⟨x, b, rfl, rfl, hx, hb⟩ := (ih hwords hafter).1 h
          have hsplit : t = t.takeWhile isBlank ++ (y ++ (x ++ b)) := by
            rw [← hy]
            exact (List.prefix_iff_eq_append.1 (List.takeWhile_prefix isBlank)).symm
          refine ⟨t.takeWhile isBlank ++ (y ++ x), b, ?_, ?_, ⟨hne, _, y, x, rfl, ?_, ?_, hspells, hx⟩, hb⟩
          · rw [List.append_assoc, List.append_assoc, ← hsplit]
          · rw [hspells.length_eq, List.length_append, List.length_append]
            omega
          · rintro hnil
            rw [hnil] at hgap
            exact hgap rfl
          · exact List.all_takeWhile
    · rintro ⟨x, b, rfl, rfl, ⟨hne, g, y, z, rfl, hg, hblank, hspells, hz⟩, hb⟩
      have hafter := hz.head?_append hb
      rw [List.append_assoc, List.append_assoc]
      obtain ⟨htake, hdrop⟩ := span_word (u := z ++ b) hblank hne hword hspells
      have hwhole : wholeWord? ignoreCase word (some ' ') (y ++ (z ++ b)) = some (z ++ b) :=
        wholeWord?_eq_some_iff.2 ⟨hne, rfl, y, rfl, hspells, hafter⟩
      simp only [phraseLength?, htake, hdrop, hwhole, beq_iff_eq, List.length_eq_zero_iff, hg, if_false]
      refine (ih hwords hafter).2 ⟨z, b, rfl, ?_, hz, hb⟩
      rw [hspells.length_eq, List.length_append, List.length_append]
      omega

/-- The length of the phrase at the head of a text, given the character before it. -/
def phraseAt? (ignoreCase : Bool) (first : Text) (words : List Text) (before : Option Char) (t : Text) :
    Option Nat :=
  (wholeWord? ignoreCase first before t).bind fun after =>
    phraseLength? ignoreCase first.length after words

theorem phraseAt?_eq_some_iff (hident : ∀ w ∈ words, w.all isIdentChar = true) {before : Option Char}
    {t : Text} {n : Nat} :
    phraseAt? ignoreCase first words before t = some n ↔
      before.any isIdentChar = false ∧ ∃ x b, t = x ++ b ∧ n = x.length ∧
        SpellsPhrase ignoreCase (first :: words) x ∧ b.head?.any isIdentChar = false := by
  rw [phraseAt?, Option.bind_eq_some_iff]
  constructor
  · rintro ⟨after, hwhole, h⟩
    obtain ⟨hne, hbefore, y, rfl, hspells, hafter⟩ := wholeWord?_eq_some_iff.1 hwhole
    obtain ⟨x, b, rfl, rfl, hx, hb⟩ := (phraseLength?_eq_some_iff hident hafter).1 h
    refine ⟨hbefore, y ++ x, b, (List.append_assoc y x b).symm, ?_, ⟨hne, y, x, rfl, hspells, hx⟩, hb⟩
    rw [hspells.length_eq, List.length_append]
  · rintro ⟨hbefore, x, b, rfl, rfl, ⟨hne, y, z, rfl, hspells, hz⟩, hb⟩
    have hafter := hz.head?_append hb
    refine ⟨z ++ b, wholeWord?_eq_some_iff.2 ⟨hne, hbefore, y, ?_, hspells, hafter⟩, ?_⟩
    · rw [List.append_assoc]
    · refine (phraseLength?_eq_some_iff hident hafter).2 ⟨z, b, rfl, ?_, hz, hb⟩
      rw [hspells.length_eq, List.length_append]

theorem SpellsPhrase.ne_nil {x : Text} (h : SpellsPhrase ignoreCase words x) : x ≠ [] := by
  cases words with
  | nil => exact h.elim
  | cons first words =>
    obtain ⟨hne, y, z, rfl, hspells, -⟩ := h
    exact List.append_ne_nil_of_left_ne_nil (hspells.ne_nil hne) z

/-! ## Where phrases stand -/

/-- A phrase stands behind a text where it is found at the head of the rest. -/
theorem standsPhrase_iff (hident : ∀ w ∈ words, w.all isIdentChar = true) (a u : Text) (e : Nat) :
    StandsPhrase ignoreCase (first :: words) (a ++ u) (byteLength a) e ↔
      ∃ x b, u = x ++ b ∧ e = byteLength (a ++ x) ∧
        phraseAt? ignoreCase first words a.getLast? u = some x.length := by
  constructor
  · rintro ⟨a', x, b, hsplit, hlength, rfl, hx, hapart⟩
    obtain ⟨rfl, rfl⟩ := eq_of_byteLength_eq hsplit hlength.symm
    exact ⟨x, b, rfl, rfl,
      (phraseAt?_eq_some_iff hident).2 ⟨hapart.before, x, b, rfl, rfl, hx, hapart.behind⟩⟩
  · rintro ⟨x, b, rfl, rfl, h⟩
    obtain ⟨hbefore, x', b', hsplit, hlength, hx, hbehind⟩ := (phraseAt?_eq_some_iff hident).1 h
    obtain ⟨rfl, rfl⟩ := List.append_inj hsplit hlength
    exact ⟨a, x, b, rfl, rfl, rfl, hx, hbefore, hbehind⟩

theorem StandsPhrase.isBoundary {t : Text} {s e : Nat} (h : StandsPhrase ignoreCase words t s e) :
    IsBoundary t s := by
  obtain ⟨a, x, b, rfl, rfl, -⟩ := h
  exact isBoundary_iff.2 ⟨a, x ++ b, rfl, rfl⟩

theorem StandsPhrase.lt {t : Text} {s e : Nat} (h : StandsPhrase ignoreCase words t s e) : s < e := by
  obtain ⟨a, x, b, rfl, rfl, rfl, hx, -⟩ := h
  have : byteLength x ≠ 0 := fun hzero => hx.ne_nil (byteLength_eq_zero.1 hzero)
  rw [byteLength_append]
  omega

/-- No phrase starts inside a word. -/
theorem not_standsPhrase_inside {a y u : Text} (hy : y.all isIdentChar = true) {s e : Nat}
    (hs : byteLength a < s) (hlt : s ≤ byteLength (a ++ y)) :
    ¬ StandsPhrase ignoreCase words (a ++ (y ++ u)) s e := by
  rintro ⟨a', x, b, hsplit, rfl, -, -, hapart⟩
  have hlast : ∀ m r : Text, m ≠ [] → y = m ++ r → a' = a ++ m → False := by
    rintro m r hne rfl rfl
    obtain ⟨m, c, rfl⟩ := (List.eq_nil_or_concat' m).resolve_left hne
    have hc : isIdentChar c = true := List.all_eq_true.1 hy c (by simp)
    have hbefore := hapart.before
    rw [← List.append_assoc, List.getLast?_concat, Option.any_some, hc] at hbefore
    cases hbefore
  rcases List.append_eq_append_iff.1 hsplit with ⟨m, rfl, hm⟩ | ⟨m, rfl, -⟩
  · rw [byteLength_append] at hs
    have hne : m ≠ [] := by
      rintro rfl
      exact Nat.lt_irrefl _ hs
    rcases List.append_eq_append_iff.1 hm with ⟨r, rfl, -⟩ | ⟨r, rfl, -⟩
    · rw [byteLength_append, byteLength_append, byteLength_append] at hlt
      obtain rfl := byteLength_eq_zero.1 (show byteLength r = 0 by omega)
      exact hlast y [] (by simpa using hne) (List.append_nil y).symm (by rw [List.append_nil])
    · exact hlast m r hne rfl rfl
  · rw [byteLength_append] at hs
    omega

/-- Whether ranges are those of the phrases from an offset on: each is one of a phrase, they are in
order and share no byte, and every other phrase starts inside one of them. -/
structure Exhausts (ignoreCase : Bool) (words : List Text) (t : Text) (n : Nat)
    (ranges : List (Nat × Nat)) : Prop where
  /-- A phrase takes up every range. -/
  stands : ∀ r ∈ ranges, StandsPhrase ignoreCase words t r.1 r.2
  /-- No range starts before the offset. -/
  le_start : ∀ r ∈ ranges, n ≤ r.1
  /-- The ranges are in order and share no byte. -/
  ordered : ranges.Pairwise fun r q => r.2 ≤ q.1
  /-- Every phrase takes up a range or starts inside one. -/
  complete : ∀ s e, n ≤ s → StandsPhrase ignoreCase words t s e →
    (s, e) ∈ ranges ∨ ∃ r ∈ ranges, r.1 ≤ s ∧ s < r.2

namespace Exhausts

variable {t : Text} {n m : Nat} {ranges : List (Nat × Nat)}

/-- Nothing is missed where no phrase starts. -/
theorem skip (h : Exhausts ignoreCase words t m ranges) (hnm : n ≤ m)
    (hnone : ∀ s e, n ≤ s → s < m → ¬ StandsPhrase ignoreCase words t s e) :
    Exhausts ignoreCase words t n ranges where
  stands := h.stands
  le_start r hr := Nat.le_trans hnm (h.le_start r hr)
  ordered := h.ordered
  complete s e hs hstands := by
    by_cases hlt : s < m
    · exact absurd hstands (hnone s e hs hlt)
    · exact h.complete s e (Nat.le_of_not_lt hlt) hstands

/-- A phrase, and those behind it. -/
theorem cons (h : Exhausts ignoreCase words t m ranges) (hstands : StandsPhrase ignoreCase words t n m) :
    Exhausts ignoreCase words t n ((n, m) :: ranges) where
  stands := List.forall_mem_cons.2 ⟨hstands, h.stands⟩
  le_start := List.forall_mem_cons.2
    ⟨Nat.le_refl n, fun r hr => Nat.le_trans (Nat.le_of_lt hstands.lt) (h.le_start r hr)⟩
  ordered := List.pairwise_cons.2 ⟨h.le_start, h.ordered⟩
  complete s e hs hphrase := by
    by_cases hlt : s < m
    · exact .inr ⟨(n, m), List.mem_cons_self, hs, hlt⟩
    · rcases h.complete s e (Nat.le_of_not_lt hlt) hphrase with hmem | ⟨r, hr, hinside⟩
      · exact .inl (List.mem_cons_of_mem _ hmem)
      · exact .inr ⟨r, List.mem_cons_of_mem _ hr, hinside⟩

end Exhausts

/-! ## The search -/

/-- What was found earlier comes first. -/
theorem phrasesFrom_append (found : List (Nat × Nat)) (skip position : Nat) (before : Option Char)
    (t : Text) :
    phrasesFrom ignoreCase first words found skip position before t =
      found.reverse ++ phrasesFrom ignoreCase first words [] skip position before t := by
  induction t generalizing found skip position before with
  | nil => simp [phrasesFrom]
  | cons c t ih =>
    cases skip with
    | succ skip =>
      simp only [phrasesFrom]
      exact ih ..
    | zero =>
      simp only [phrasesFrom]
      split
      · exact ih ..
      · split
        · exact ih ..
        · rw [ih, ih [_]]
          simp

theorem phrasesFrom_skip (x u : Text) (position : Nat) (before : Option Char) :
    phrasesFrom ignoreCase first words [] x.length position before (x ++ u)
      = phrasesFrom ignoreCase first words [] 0 (position + x.length) (lastOr before x) u := by
  induction x generalizing position before with
  | nil => rfl
  | cons c x ih =>
    rw [List.cons_append, List.length_cons, phrasesFrom, ih, lastOr_cons, Nat.add_right_comm, Nat.add_assoc]

/-- The characters of a first word, or of a phrase, are passed over. -/
theorem phrasesFrom_pass (c : Char) (x u : Text) (position : Nat) (before : Option Char) :
    phrasesFrom ignoreCase first words [] ((c :: x).length - 1) (position + 1) (some c) (x ++ u)
      = phrasesFrom ignoreCase first words [] 0 (position + (c :: x).length) (lastOr before (c :: x)) u := by
  rw [List.length_cons, Nat.add_sub_cancel, phrasesFrom_skip, lastOr_cons, Nat.add_assoc, Nat.add_comm 1]

/-- **The search for a phrase finds each one** that does not start inside another one. -/
theorem exhausts_phrasesFrom (hfirst : first.all isIdentChar = true)
    (hident : ∀ w ∈ words, w.all isIdentChar = true) (n : Nat) :
    ∀ a u : Text, u.length ≤ n →
      Exhausts ignoreCase (first :: words) (a ++ u) (byteLength a)
        ((phrasesFrom ignoreCase first words [] 0 a.length a.getLast? u).map (byteSpan (a ++ u))) := by
  induction n with
  | zero =>
    intro a u hu
    obtain rfl := List.eq_nil_of_length_eq_zero (Nat.le_zero.1 hu)
    have hnone : ∀ s e, byteLength a ≤ s → ¬ StandsPhrase ignoreCase (first :: words) (a ++ []) s e := by
      intro s e hs h
      obtain rfl : byteLength a = s := by
        have := h.isBoundary.le
        rw [List.append_nil] at this
        omega
      obtain ⟨x, b, hsplit, -, hphrase⟩ := (standsPhrase_iff hident a [] e).1 h
      obtain ⟨-, x', b', hsplit', -, hx, -⟩ := (phraseAt?_eq_some_iff hident).1 hphrase
      exact hx.ne_nil (List.append_eq_nil_iff.1 hsplit'.symm).1
    exact ⟨by simp [phrasesFrom], by simp [phrasesFrom], List.Pairwise.nil, fun s e hs h =>
      absurd h (hnone s e hs)⟩
  | succ n ih =>
    intro a u hu
    cases u with
    | nil => exact ih a [] (Nat.zero_le n)
    | cons c u =>
      -- the search goes on behind a part of the text in which no phrase starts
      have onward : ∀ y v : Text, c :: u = y ++ v → y ≠ [] →
          (∀ s e, byteLength a ≤ s → s < byteLength (a ++ y) →
            ¬ StandsPhrase ignoreCase (first :: words) (a ++ c :: u) s e) →
          Exhausts ignoreCase (first :: words) (a ++ c :: u) (byteLength a)
            ((phrasesFrom ignoreCase first words [] 0 (a.length + y.length) (lastOr a.getLast? y) v).map
              (byteSpan (a ++ c :: u))) := by
        intro y v hsplit hy hnone
        have hlength := congrArg List.length hsplit
        have hpos := List.length_pos_of_ne_nil hy
        rw [List.length_cons, List.length_append] at hlength
        rw [List.length_cons] at hu
        have hrest := ih (a ++ y) v (by omega)
        rw [List.append_assoc, ← hsplit, List.length_append, ← lastOr_getLast?] at hrest
        exact hrest.skip (by rw [byteLength_append]; omega) hnone
      cases hwhole : wholeWord? ignoreCase first a.getLast? (c :: u) with
      | none =>
        have hstep : phrasesFrom ignoreCase first words [] 0 a.length a.getLast? (c :: u)
            = phrasesFrom ignoreCase first words [] 0 (a.length + [c].length) (lastOr a.getLast? [c]) u := by
          simp only [phrasesFrom, hwhole]
          rfl
        rw [hstep]
        refine onward [c] u rfl (List.cons_ne_nil c []) fun s e hs hlt h => ?_
        have hle : ¬ byteLength a < s := fun hlt' =>
          Nat.not_lt.2 (h.isBoundary.succ_le hlt') hlt
        obtain rfl : byteLength a = s := by omega
        obtain ⟨x, b, -, -, hphrase⟩ := (standsPhrase_iff hident a (c :: u) e).1 h
        rw [phraseAt?, hwhole] at hphrase
        cases hphrase
      | some after =>
        obtain ⟨hne, -, y, hsplit, hspells, -⟩ := wholeWord?_eq_some_iff.1 hwhole
        cases hphrase : phraseLength? ignoreCase first.length after words with
        | none =>
          obtain ⟨d, y, rfl⟩ := List.exists_cons_of_ne_nil (hspells.ne_nil hne)
          rw [List.cons_append, List.cons.injEq] at hsplit
          obtain ⟨rfl, rfl⟩ := hsplit
          have hstep : phrasesFrom ignoreCase first words [] 0 a.length a.getLast? (c :: (y ++ after))
              = phrasesFrom ignoreCase first words [] 0 (a.length + (c :: y).length)
                (lastOr a.getLast? (c :: y)) after := by
            simp only [phrasesFrom, hwhole, hphrase]
            rw [hspells.length_eq, phrasesFrom_pass]
          rw [hstep]
          refine onward (c :: y) after rfl (List.cons_ne_nil c y) fun s e hs hlt h => ?_
          have hle : ¬ byteLength a < s := fun hlt' =>
            not_standsPhrase_inside (hspells.all_isIdentChar hfirst) hlt' (Nat.le_of_lt hlt) h
          obtain rfl : byteLength a = s := by omega
          obtain ⟨x, b, -, -, hfound⟩ := (standsPhrase_iff hident a _ e).1 h
          rw [phraseAt?, hwhole, Option.bind_some, hphrase] at hfound
          cases hfound
        | some k =>
          have hfound : phraseAt? ignoreCase first words a.getLast? (c :: u) = some k := by
            rw [phraseAt?, hwhole, Option.bind_some, hphrase]
          obtain ⟨-, x, b, hsplit, rfl, hx, -⟩ := (phraseAt?_eq_some_iff hident).1 hfound
          have hstands := (standsPhrase_iff hident a (c :: u) _).2 ⟨x, b, hsplit, rfl, hfound⟩
          obtain ⟨d, x, rfl⟩ := List.exists_cons_of_ne_nil hx.ne_nil
          rw [List.cons_append, List.cons.injEq] at hsplit
          obtain ⟨rfl, rfl⟩ := hsplit
          have hstep : phrasesFrom ignoreCase first words [] 0 a.length a.getLast? (c :: (x ++ b))
              = (a.length, a.length + (c :: x).length) ::
                phrasesFrom ignoreCase first words [] 0 (a.length + (c :: x).length)
                  (lastOr a.getLast? (c :: x)) b := by
            simp only [phrasesFrom, hwhole, hphrase]
            rw [phrasesFrom_append, phrasesFrom_pass]
            rfl
          have hspan : byteSpan (a ++ c :: (x ++ b)) (a.length, a.length + (c :: x).length)
              = (byteLength a, byteLength (a ++ c :: x)) := by
            have hstop := offset_length (a ++ c :: x) b
            rw [List.append_assoc, List.length_append] at hstop
            rw [byteSpan, offset_length]
            exact congrArg _ hstop
          rw [List.length_cons, List.length_append] at hu
          have hrest := ih (a ++ c :: x) b (by omega)
          rw [List.append_assoc, List.length_append, ← lastOr_getLast?] at hrest
          rw [hstep, List.map_cons, hspan]
          exact hrest.cons hstands

end Phrases

/-- The phrases of a text, but those that start inside another one. -/
theorem exhausts_phrases {ignoreCase : Bool} {words : List Text}
    (hident : ∀ w ∈ words, w.all isIdentChar = true) (t : Text) :
    Exhausts ignoreCase words t 0 ((phrases ignoreCase words t).map (byteSpan t)) := by
  cases words with
  | nil =>
    refine ⟨by simp [phrases], by simp [phrases], List.Pairwise.nil, ?_⟩
    rintro s e - ⟨a, x, b, -, -, -, hx, -⟩
    exact hx.elim
  | cons first words =>
    obtain ⟨hfirst, hwords⟩ := List.forall_mem_cons.1 hident
    exact exhausts_phrasesFrom hfirst hwords t.length [] t (Nat.le_refl _)

/-- **The searches for words and phrases find what stands whole in a text.**  From an offset on, the
search for a word finds the first one where it stands whole, and none only if there is none.  The
phrases that are found are in order and share no byte, and every other phrase starts inside one of
them. -/
theorem found_whole (t : Text) :
    (∀ ignoreCase word start i, position? start t = some i →
        (∀ n, (wordFrom? ignoreCase word i t).map (offset t) = some n ↔
          IsLeast {k | start ≤ k ∧ StandsWhole ignoreCase word t k} n) ∧
        (wordFrom? ignoreCase word i t = none ↔
          ∀ k, start ≤ k → ¬ StandsWhole ignoreCase word t k)) ∧
      ∀ ignoreCase words, (∀ w ∈ words, w.all isIdentChar = true) →
        Exhausts ignoreCase words t 0 ((phrases ignoreCase words t).map (byteSpan t)) := by
  constructor
  · intro ignoreCase word start i hstart
    exact ⟨wordFrom?_isLeast hstart, wordFrom?_eq_none_iff hstart⟩
  · intro ignoreCase words hident
    exact exhausts_phrases hident t

/-- The second phrase has another case and two blanks, and a character of two bytes is first. -/
theorem found_whole_cases :
    position? 2 "é end if; END  IF".toList = some 1 ∧
      (∀ w ∈ ["end".toList, "if".toList], w.all isIdentChar = true) ∧
      IsLeast {k | 2 ≤ k ∧ StandsWhole true "end".toList "é end if; END  IF".toList k} 3 ∧
      Exhausts true ["end".toList, "if".toList] "é end if; END  IF".toList 0 [(3, 9), (11, 18)] := by
  have hstart : position? 2 "é end if; END  IF".toList = some 1 := by decide +kernel
  have hident : ∀ w ∈ ["end".toList, "if".toList], w.all isIdentChar = true := by decide +kernel
  obtain ⟨hword, hphrases⟩ := found_whole "é end if; END  IF".toList
  refine ⟨hstart, hident, ?_, ?_⟩
  · apply ((hword true "end".toList 2 1 hstart).1 3).1
    decide +kernel
  · have hfound : (phrases true ["end".toList, "if".toList] "é end if; END  IF".toList).map
        (byteSpan "é end if; END  IF".toList) = [(3, 9), (11, 18)] := by decide +kernel
    rw [← hfound]
    exact hphrases true ["end".toList, "if".toList] hident

end CanonicalVhdl.Text
