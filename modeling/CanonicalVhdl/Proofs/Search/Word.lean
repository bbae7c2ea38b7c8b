import CanonicalVhdl.Proofs.Bytewise.Basic
import Mathlib.Order.Bounds.Basic

/-!
# Whole words anywhere in a text

A word stands whole at a byte offset when its characters start there and no identifier character
touches them.  The search for a word finds the first such offset, wherever it starts.

## Main definitions

* `Text.Spells ignoreCase word x` — a text is the word, case aside if it is ignored.
* `Text.Apart a b` — no identifier character touches what stands between two texts.
* `Text.StandsWhole ignoreCase word t n` — the word stands whole at a byte offset.

## Main statements

* `Text.wholeWord?_eq_some_iff` — what it is for a whole word to stand at the head of a text.
* `Text.wordFrom?_isLeast` — the search for a word finds the first offset where it stands whole.
-/

namespace CanonicalVhdl.Text

/-! ## Words that stand whole -/

/-- Whether a text is a word: as it is or, if case is ignored, up to the case of ASCII letters. -/
def Spells (ignoreCase : Bool) (word x : Text) : Prop :=
  if ignoreCase then sameWord word x = true else word = x

/-- Whether no identifier character touches what stands between two texts. -/
structure Apart (a b : Text) : Prop where
  /-- The first text does not end with one. -/
  before : a.getLast?.any isIdentChar = false
  /-- The second text does not start with one. -/
  behind : b.head?.any isIdentChar = false

/-- Whether a word stands whole at a byte offset of a text. -/
def StandsWhole (ignoreCase : Bool) (word t : Text) (n : Nat) : Prop :=
  word ≠ [] ∧ ∃ a x b, t = a ++ (x ++ b) ∧ byteLength a = n ∧ Spells ignoreCase word x ∧ Apart a b

section Words

variable {ignoreCase : Bool} {word x : Text}

theorem Spells.length_eq (h : Spells ignoreCase word x) : word.length = x.length := by
  cases ignoreCase with
  | true => exact length_eq_of_sameWord h
  | false => exact congrArg List.length h

theorem Spells.ne_nil (h : Spells ignoreCase word x) (hword : word ≠ []) : x ≠ [] := by
  rintro rfl
  exact hword (List.eq_nil_of_length_eq_zero h.length_eq)

/-- A text that spells a word is made of identifier characters if the word is. -/
theorem Spells.all_isIdentChar (h : Spells ignoreCase word x) (hword : word.all isIdentChar = true) :
    x.all isIdentChar = true := by
  cases ignoreCase with
  | true => rw [← all_isIdentChar_fold, ← sameWord_iff.1 h, all_isIdentChar_fold, hword]
  | false =>
    obtain rfl : word = x := h
    exact hword

theorem dropWordWith_eq_some_iff {t b : Text} :
    dropWordWith ignoreCase word t = some b ↔ ∃ x, t = x ++ b ∧ Spells ignoreCase word x := by
  cases ignoreCase with
  | true => exact dropWord?_eq_some_iff
  | false =>
    rw [dropWordWith, if_neg Bool.false_ne_true, dropLead?]
    constructor
    · intro h
      split at h
      · rename_i hprefix
        obtain ⟨r, rfl⟩ := List.isPrefixOf_iff_prefix.1 hprefix
        rw [List.drop_left] at h
        exact ⟨word, by rw [Option.some.inj h], rfl⟩
      · cases h
    · rintro ⟨x, rfl, hx⟩
      obtain rfl : word = x := hx
      rw [if_pos (List.isPrefixOf_iff_prefix.2 (List.prefix_append _ _)), List.drop_left]

/-- **A whole word at the head of a text** is the word, and no identifier character touches it. -/
theorem wholeWord?_eq_some_iff {before : Option Char} {t b : Text} :
    wholeWord? ignoreCase word before t = some b ↔
      word ≠ [] ∧ before.any isIdentChar = false ∧
        ∃ x, t = x ++ b ∧ Spells ignoreCase word x ∧ b.head?.any isIdentChar = false := by
  rw [wholeWord?]
  by_cases hguard : (word.isEmpty || before.any isIdentChar) = true
  · rw [if_pos hguard]
    constructor
    · intro h
      cases h
    · rintro ⟨hword, hbefore, -⟩
      simp [hword, hbefore] at hguard
  · have hclean : word ≠ [] ∧ before.any isIdentChar = false := by simpa using hguard
    rw [if_neg hguard, Option.bind_eq_some_iff]
    constructor
    · rintro ⟨after, hafter, h⟩
      obtain ⟨x, rfl, hx⟩ := dropWordWith_eq_some_iff.1 hafter
      by_cases hbehind : after.head?.any isIdentChar = true
      · rw [if_pos hbehind] at h
        cases h
      · rw [if_neg hbehind] at h
        obtain rfl := Option.some.inj h
        exact ⟨hclean.1, hclean.2, x, rfl, hx, eq_false_of_ne_true hbehind⟩
    · rintro ⟨-, -, x, rfl, hx, hb⟩
      exact ⟨b, dropWordWith_eq_some_iff.2 ⟨x, rfl, hx⟩, by simp [hb]⟩

/-! ## The search -/

/-- A word stands whole behind a text where it is found at the head of the rest. -/
theorem standsWhole_iff (a u : Text) :
    StandsWhole ignoreCase word (a ++ u) (byteLength a)
      ↔ (wholeWord? ignoreCase word a.getLast? u).isSome = true := by
  rw [Option.isSome_iff_exists]
  constructor
  · rintro ⟨hword, a', x, b, hsplit, hlength, hx, hapart⟩
    obtain ⟨rfl, rfl⟩ := eq_of_byteLength_eq hsplit hlength.symm
    exact ⟨b, wholeWord?_eq_some_iff.2 ⟨hword, hapart.before, x, rfl, hx, hapart.behind⟩⟩
  · rintro ⟨b, hb⟩
    obtain ⟨hword, hbefore, x, rfl, hx, hbehind⟩ := wholeWord?_eq_some_iff.1 hb
    exact ⟨hword, a, x, b, rfl, rfl, hx, hbefore, hbehind⟩

theorem StandsWhole.isBoundary {t : Text} {n : Nat} (h : StandsWhole ignoreCase word t n) :
    IsBoundary t n := by
  obtain ⟨-, a, x, b, rfl, rfl, -⟩ := h
  exact isBoundary_iff.2 ⟨a, x ++ b, rfl, rfl⟩

/-- No word stands at the end of a text. -/
theorem not_standsWhole_end (a : Text) : ¬ StandsWhole ignoreCase word a (byteLength a) := by
  have hiff := @standsWhole_iff ignoreCase word a []
  rw [List.append_nil] at hiff
  rw [hiff, Option.isSome_iff_exists]
  rintro ⟨b, hb⟩
  obtain ⟨hword, -, x, hx, hspells, -⟩ := wholeWord?_eq_some_iff.1 hb
  exact hspells.ne_nil hword (List.append_eq_nil_iff.1 hx.symm).1

/-- A search that has come to the place behind a text finds the first offset from there on. -/
theorem wordAfter?_isLeast (u : Text) :
    ∀ a : Text,
      (wordAfter? ignoreCase word a.length a.getLast? u = none ∧
          ∀ n, byteLength a ≤ n → ¬ StandsWhole ignoreCase word (a ++ u) n) ∨
        ∃ i, wordAfter? ignoreCase word a.length a.getLast? u = some i ∧
          IsLeast {n | byteLength a ≤ n ∧ StandsWhole ignoreCase word (a ++ u) n} (offset (a ++ u) i) := by
  induction u with
  | nil =>
    intro a
    refine .inl ⟨rfl, fun n hn h => ?_⟩
    rw [List.append_nil] at h
    obtain rfl : n = byteLength a := Nat.le_antisymm h.isBoundary.le hn
    exact not_standsWhole_end a h
  | cons c u ih =>
    intro a
    rw [wordAfter?]
    by_cases hwhole : (wholeWord? ignoreCase word a.getLast? (c :: u)).isSome = true
    · rw [if_pos hwhole]
      refine .inr ⟨a.length, rfl, ?_, fun n hn => ?_⟩
      · rw [offset_length]
        exact ⟨Nat.le_refl _, (standsWhole_iff a (c :: u)).2 hwhole⟩
      · rw [offset_length]
        exact hn.1
    · -- the word does not stand here, so the offsets are those behind the next character
      have hstep : ∀ n, byteLength a ≤ n → StandsWhole ignoreCase word (a ++ c :: u) n →
          byteLength (a ++ [c]) ≤ n := by
        intro n hn h
        have hne : byteLength a ≠ n := by
          rintro rfl
          exact hwhole ((standsWhole_iff a (c :: u)).1 h)
        exact h.isBoundary.succ_le (Nat.lt_of_le_of_ne hn hne)
      have hnext := ih (a ++ [c])
      rw [List.length_append, List.length_singleton, List.getLast?_concat, List.append_assoc,
        List.singleton_append] at hnext
      have hle : byteLength a ≤ byteLength (a ++ [c]) := by
        rw [byteLength_append]
        exact Nat.le_add_right _ _
      rw [if_neg hwhole]
      rcases hnext with ⟨hnone, hall⟩ | ⟨i, hsome, ⟨hi, hstands⟩, hleast⟩
      · exact .inl ⟨hnone, fun n hn h => hall n (hstep n hn h) h⟩
      · refine .inr ⟨i, hsome, ⟨Nat.le_trans hle hi, hstands⟩, fun n hn => ?_⟩
        exact hleast ⟨hstep n hn.1 hn.2, hn.2⟩

section Start

variable {t : Text} {start i : Nat}

/-- The search finds no word, and there is none, or it finds the first one. -/
theorem wordFrom?_cases (hstart : position? start t = some i) :
    (wordFrom? ignoreCase word i t = none ∧ ∀ n, start ≤ n → ¬ StandsWhole ignoreCase word t n) ∨
      ∃ j, wordFrom? ignoreCase word i t = some j ∧
        IsLeast {n | start ≤ n ∧ StandsWhole ignoreCase word t n} (offset t j) := by
  obtain ⟨hi, rfl⟩ := position?_eq_some_iff.1 hstart
  have hrun := @wordAfter?_isLeast ignoreCase word (t.drop i) (t.take i)
  rwa [List.take_append_drop, List.length_take, Nat.min_eq_left hi] at hrun

/-- **The search for a word finds the first offset**, from its start on, where the word stands
whole. -/
theorem wordFrom?_isLeast (hstart : position? start t = some i) (n : Nat) :
    (wordFrom? ignoreCase word i t).map (offset t) = some n
      ↔ IsLeast {k | start ≤ k ∧ StandsWhole ignoreCase word t k} n := by
  rcases wordFrom?_cases hstart with ⟨hnone, hall⟩ | ⟨j, hsome, hleast⟩
  · rw [hnone]
    constructor
    · intro h
      cases h
    · exact fun h => absurd h.1.2 (hall n h.1.1)
  · rw [hsome, Option.map_some, Option.some.injEq]
    constructor
    · rintro rfl
      exact hleast
    · exact fun h => hleast.unique h

theorem wordFrom?_eq_none_iff (hstart : position? start t = some i) :
    wordFrom? ignoreCase word i t = none ↔ ∀ n, start ≤ n → ¬ StandsWhole ignoreCase word t n := by
  rcases wordFrom?_cases hstart with ⟨hnone, hall⟩ | ⟨j, hsome, hleast⟩
  · rw [hnone]
    exact ⟨fun _ => hall, fun _ => rfl⟩
  · rw [hsome]
    constructor
    · intro h
      cases h
    · exact fun h => absurd hleast.1.2 (h _ hleast.1.1)

end Start

end Words

end CanonicalVhdl.Text
