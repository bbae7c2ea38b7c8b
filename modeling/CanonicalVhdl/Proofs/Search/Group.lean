import CanonicalVhdl.Proofs.Comment.Masked
import Mathlib.Order.Bounds.Basic

/-!
# The first group between two delimiters

The search for a group counts delimiters among the code points of a text.  From the first opening
delimiter on, the group ends where the two counts meet for the first time; what closes before the
first opening delimiter does not count.

## Main definitions

* `Text.occurrences t c s n` — how often a character is a code point from one byte offset through
  another.
* `Text.offsetsOf c t` — the byte offsets of a character among the code points.
* `Text.evenOffsets opening closing t s` — the byte offsets behind `s` where the counts are even.

## Main statements

* `Text.closeGroup_open` — inside a group, the search finds the first place where the counts meet.
* `Text.balancedSpan?_first` — the span between two delimiters is the first group.
-/

namespace CanonicalVhdl.Text

/-! ## Counting delimiters -/

/-- How many code points with the character `c` stand at places up to `n`, where `place` says
where a code point stands. -/
def tally (place : CodePoint → Nat) (c : Char) (n : Nat) (points : List CodePoint) : Nat :=
  points.countP fun p => p.char == c && decide (place p ≤ n)

section Tally

variable {place : CodePoint → Nat} {c : Char} {n : Nat} {p : CodePoint} {points : List CodePoint}

theorem tally_cons : tally place c n (p :: points)
    = tally place c n points + if p.char = c ∧ place p ≤ n then 1 else 0 := by
  simp [tally, List.countP_cons]

/-- Nothing is counted before the first code point. -/
theorem tally_eq_zero (h : ∀ q ∈ points, n < place q) : tally place c n points = 0 := by
  rw [tally, List.countP_eq_zero]
  intro q hq hcount
  have := h q hq
  simp only [Bool.and_eq_true, decide_eq_true_eq] at hcount
  omega

end Tally

/-! ## Inside a group -/

section Groups

variable {place : CodePoint → Nat} {opening closing : Char}

/-- The places behind `bound` up to which the delimiters among some code points close `count`
groups. -/
def closers (place : CodePoint → Nat) (opening closing : Char) (bound count : Nat)
    (points : List CodePoint) : Set Nat :=
  {n | bound < n ∧ tally place closing n points = count + tally place opening n points}

/-- A code point changes the number of groups to close, if it does not close the last one. -/
theorem closers_cons {p : CodePoint} {points : List CodePoint} {bound count next : Nat}
    (hbound : bound < place p) (hpoints : ∀ q ∈ points, place p < place q) (hcount : 0 < count)
    (hstep : next + (if p.char = closing then 1 else 0) = count + if p.char = opening then 1 else 0)
    (hnext : 0 < next) :
    closers place opening closing bound count (p :: points)
      = closers place opening closing (place p) next points := by
  ext n
  simp only [closers, Set.mem_ofPred_eq, tally_cons]
  by_cases hn : place p ≤ n
  · simp only [hn, and_true]
    rcases Nat.eq_or_lt_of_le hn with rfl | hlt
    · have hzero : ∀ c, tally place c (place p) points = 0 := fun c => tally_eq_zero hpoints
      rw [hzero, hzero]
      omega
    · omega
  · have hzero : ∀ c, tally place c n points = 0 := by
      intro c
      apply tally_eq_zero
      intro q hq
      have := hpoints q hq
      omega
    simp only [hn, and_false, if_false, hzero]
    omega

/-- **Inside a group, the search finds the first place where the counts meet**, if there is one. -/
theorem closeGroup_open (hne : opening ≠ closing) (start : Nat) (points : List CodePoint) :
    ∀ (bound count : Nat), points.Pairwise (place · < place ·) → (∀ p ∈ points, bound < place p) →
      0 < count →
      (closeGroup opening closing (some (start, count)) points = none ∧
          closers place opening closing bound count points = ∅) ∨
        ∃ q ∈ points, q.char = closing ∧
          closeGroup opening closing (some (start, count)) points
            = some (some (start, q.position + 1)) ∧
          IsLeast (closers place opening closing bound count points) (place q) := by
  induction points with
  | nil =>
    intro bound count _ _ hcount
    refine .inl ⟨rfl, Set.eq_empty_of_forall_notMem ?_⟩
    rintro n ⟨-, hn⟩
    simp only [tally, List.countP_nil] at hn
    omega
  | cons p points ih =>
    intro bound count hsorted hbound hcount
    obtain ⟨hpoints, hsorted⟩ := List.pairwise_cons.1 hsorted
    have hp : bound < place p := hbound p List.mem_cons_self
    -- the group goes on behind the code point, with another number of groups to close
    have onward : ∀ next, 0 < next →
        next + (if p.char = closing then 1 else 0) = count + (if p.char = opening then 1 else 0) →
        closeGroup opening closing (some (start, count)) (p :: points)
          = closeGroup opening closing (some (start, next)) points →
        (closeGroup opening closing (some (start, count)) (p :: points) = none ∧
            closers place opening closing bound count (p :: points) = ∅) ∨
          ∃ q ∈ p :: points, q.char = closing ∧
            closeGroup opening closing (some (start, count)) (p :: points)
              = some (some (start, q.position + 1)) ∧
            IsLeast (closers place opening closing bound count (p :: points)) (place q) := by
      intro next hnext hstep hgroup
      rw [closers_cons hp hpoints hcount hstep hnext, hgroup]
      rcases ih (place p) next hsorted hpoints hnext with hnone | ⟨q, hq, hsome⟩
      · exact .inl hnone
      · exact .inr ⟨q, List.mem_cons_of_mem p hq, hsome⟩
    by_cases ho : p.char = opening
    · apply onward (count + 1) (Nat.succ_pos count)
      · rw [if_neg (ho ▸ hne), if_pos ho]
      · rw [closeGroup, if_pos (beq_iff_eq.2 ho)]
    · by_cases hc : p.char = closing
      · by_cases hlast : count = 1
        · -- the last group closes here
          subst hlast
          refine .inr ⟨p, List.mem_cons_self, hc, ?_, ⟨hp, ?_⟩, ?_⟩
          · rw [closeGroup, if_neg (by simpa using ho), if_pos (beq_iff_eq.2 hc)]
            rfl
          · rw [tally_cons, tally_cons, tally_eq_zero hpoints, tally_eq_zero hpoints, if_pos ⟨hc, Nat.le_refl _⟩,
              if_neg fun h => ho h.1]
          · rintro n ⟨-, hn⟩
            by_contra hlt
            have hzero : ∀ c, tally place c n (p :: points) = 0 := by
              intro c
              apply tally_eq_zero
              refine List.forall_mem_cons.2 ⟨Nat.lt_of_not_le hlt, fun q hq => ?_⟩
              exact Nat.lt_trans (Nat.lt_of_not_le hlt) (hpoints q hq)
            rw [hzero, hzero] at hn
            omega
        · apply onward (count - 1) (by omega)
          · rw [if_pos hc, if_neg ho]
            omega
          · rw [closeGroup, if_neg (by simpa using ho), if_pos (beq_iff_eq.2 hc)]
            simp only [beq_iff_eq, hlast, if_false]
      · apply onward count hcount
        · rw [if_neg hc, if_neg ho]
        · rw [closeGroup, if_neg (by simpa using ho), if_neg (by simpa using hc)]

/-- What stands before the first opening delimiter does not count. -/
theorem closeGroup_none_append {a : List CodePoint} (h : ∀ p ∈ a, p.char ≠ opening)
    (points : List CodePoint) :
    closeGroup opening closing none (a ++ points) = closeGroup opening closing none points := by
  induction a with
  | nil => rfl
  | cons p a ih =>
    obtain ⟨hp, ha⟩ := List.forall_mem_cons.1 h
    rw [List.cons_append, closeGroup, if_neg (by simpa using hp), ite_self]
    exact ih ha

end Groups

/-! ## Byte offsets -/

/-- How many code points with the character `c` start at the byte offsets from `s` through `n`. -/
def occurrences (t : Text) (c : Char) (s n : Nat) : Nat :=
  (codePoints t).countP fun p =>
    p.char == c && decide (s ≤ offset t p.position) && decide (offset t p.position ≤ n)

/-- The byte offsets of the code points with the character `c`. -/
def offsetsOf (c : Char) (t : Text) : Set Nat :=
  {n | ∃ p ∈ codePoints t, p.char = c ∧ offset t p.position = n}

/-- The byte offsets behind `s` up to which as many closing as opening delimiters stand, counted
from `s` on. -/
def evenOffsets (opening closing : Char) (t : Text) (s : Nat) : Set Nat :=
  {n | s < n ∧ occurrences t closing s n = occurrences t opening s n}

/-- Code points are listed in the order of their byte offsets. -/
theorem codePoints_pairwise_offset (t : Text) :
    (codePoints t).Pairwise fun p q => offset t p.position < offset t q.position := by
  refine (codePointsFrom_pairwise 0 0 0 none t).imp_of_mem ?_
  intro p q hp _ hpq
  obtain ⟨s, ht, hposition, -⟩ := mem_codePoints hp
  have hlength := congrArg List.length ht
  rw [List.length_append, CodePoint.rest, List.length_cons] at hlength
  exact offset_lt_offset hpq (by omega)

/-- A code point of one byte ends one byte behind its start. -/
theorem offset_succ_position {t : Text} {p : CodePoint} (hp : p ∈ codePoints t) (hc : p.char.toNat < 128) :
    offset t (p.position + 1) = offset t p.position + 1 := by
  obtain ⟨s, rfl, hposition, -⟩ := mem_codePoints hp
  rw [hposition, CodePoint.rest, offset_length_succ, offset_length, utf8Size_eq_one hc]

section Spans

variable {opening closing : Char} {t : Text} {p : CodePoint} {a points : List CodePoint}

/-- What is counted from a code point on: that code point, and those behind it. -/
theorem occurrences_from (hsplit : codePoints t = a ++ p :: points) (c : Char) {n : Nat}
    (hn : offset t p.position < n) :
    occurrences t c (offset t p.position) n
      = tally (fun q => offset t q.position) c n points + if p.char = c then 1 else 0 := by
  have hsorted := codePoints_pairwise_offset t
  rw [hsplit, List.pairwise_append, List.pairwise_cons] at hsorted
  obtain ⟨-, ⟨hbehind, -⟩, hbefore⟩ := hsorted
  have hnone : (a.countP fun q => q.char == c && decide (offset t p.position ≤ offset t q.position)
      && decide (offset t q.position ≤ n)) = 0 := by
    rw [List.countP_eq_zero]
    intro q hq hcount
    have hlt := hbefore q hq p List.mem_cons_self
    simp only [Bool.and_eq_true, decide_eq_true_eq] at hcount
    omega
  have hrest : (points.countP fun q => q.char == c && decide (offset t p.position ≤ offset t q.position)
      && decide (offset t q.position ≤ n)) = tally (fun q => offset t q.position) c n points := by
    apply List.countP_congr
    intro q hq
    simp [Nat.le_of_lt (hbehind q hq)]
  rw [occurrences, hsplit, List.countP_append, hnone, List.countP_cons, hrest, Nat.zero_add]
  simp [Nat.le_of_lt hn]

/-- The counts meet behind an opening delimiter where the code points behind it close one group. -/
theorem evenOffsets_eq_closers (hsplit : codePoints t = a ++ p :: points) (hp : p.char = opening)
    (hne : opening ≠ closing) :
    evenOffsets opening closing t (offset t p.position)
      = closers (fun q => offset t q.position) opening closing (offset t p.position) 1 points := by
  ext n
  simp only [evenOffsets, closers, Set.mem_ofPred_eq]
  apply and_congr_right
  intro hn
  rw [occurrences_from hsplit closing hn, occurrences_from hsplit opening hn, if_neg (hp ▸ hne), if_pos hp,
    Nat.add_zero, Nat.add_comm 1]

/-- **The span between two delimiters is the first group.**  Without an opening delimiter it is the
whole text.  Otherwise it starts at the first one and ends behind the first byte offset up to which
as many closing as opening delimiters stand, counted from the start on; there is no span exactly
when there is no such offset. -/
theorem balancedSpan?_first (ho : opening.toNat < 128) (hc : closing.toNat < 128)
    (hne : opening ≠ closing) (t : Text) :
    (offsetsOf opening t = ∅ →
        (balancedSpan? opening closing t).map (byteSpan t) = some (0, byteLength t)) ∧
      ∀ s, IsLeast (offsetsOf opening t) s →
        (∀ b e, (balancedSpan? opening closing t).map (byteSpan t) = some (b, e) ↔
            b = s ∧ ∃ n, IsLeast (evenOffsets opening closing t s) n ∧ e = n + 1) ∧
          (balancedSpan? opening closing t = none ↔ evenOffsets opening closing t s = ∅) := by
  rw [balancedSpan?, if_pos (by simp [ho, hc])]
  constructor
  · intro hempty
    have hnone : ∀ p ∈ codePoints t, p.char ≠ opening := by
      intro p hp hchar
      exact Set.eq_empty_iff_forall_notMem.1 hempty _ ⟨p, hp, hchar, rfl⟩
    have hgroup := @closeGroup_none_append _ closing _ hnone []
    rw [List.append_nil] at hgroup
    rw [hgroup]
    simp [closeGroup, byteSpan, offset]
  · rintro s ⟨⟨p, hp, hchar, rfl⟩, hleast⟩
    obtain ⟨a, points, hsplit⟩ := List.append_of_mem hp
    have hsorted := codePoints_pairwise_offset t
    rw [hsplit, List.pairwise_append, List.pairwise_cons] at hsorted
    obtain ⟨-, ⟨hbehind, hsorted⟩, hbefore⟩ := hsorted
    have hnone : ∀ q ∈ a, q.char ≠ opening := by
      intro q hq hqchar
      have hlt := hbefore q hq p List.mem_cons_self
      have hle := hleast ⟨q, by rw [hsplit]; exact List.mem_append_left _ hq, hqchar, rfl⟩
      omega
    have hgroup : closeGroup opening closing none (codePoints t)
        = closeGroup opening closing (some (p.position, 1)) points := by
      rw [hsplit, closeGroup_none_append hnone, closeGroup, if_pos (beq_iff_eq.2 hchar)]
    rw [evenOffsets_eq_closers hsplit hchar hne, hgroup]
    rcases closeGroup_open hne p.position points (offset t p.position) 1 hsorted hbehind Nat.one_pos with
      ⟨hclose, hset⟩ | ⟨q, hq, hqchar, hclose, hqleast⟩
    · rw [hclose, hset]
      simp [IsLeast]
    · have hmem : q ∈ codePoints t := by
        rw [hsplit]
        exact List.mem_append_right _ (List.mem_cons_of_mem p hq)
      rw [hclose]
      constructor
      · intro b e
        simp only [Option.map_some, Option.getD_some, byteSpan, Option.some.injEq, Prod.mk.injEq,
          offset_succ_position hmem (hqchar ▸ hc)]
        constructor
        · rintro ⟨rfl, rfl⟩
          exact ⟨rfl, _, hqleast, rfl⟩
        · rintro ⟨rfl, n, hn, rfl⟩
          exact ⟨rfl, by rw [hqleast.unique hn]⟩
      · simp only [Option.map_some, reduceCtorEq, false_iff]
        exact Set.Nonempty.ne_empty ⟨_, hqleast.1⟩

end Spans

/-- A closing parenthesis before the group, one in a literal and one in a comment do not count. -/
theorem balancedSpan?_first_guarded :
    '('.toNat < 128 ∧ ')'.toNat < 128 ∧ '(' ≠ ')' ∧
      IsLeast (offsetsOf '(' ")é (a ')' -- )\n(b)) c)".toList) 4 ∧
      IsLeast (evenOffsets '(' ')' ")é (a ')' -- )\n(b)) c)".toList 4) 19 ∧
      (balancedSpan? '(' ')' ")é (a ')' -- )\n(b)) c)".toList).map
        (byteSpan ")é (a ')' -- )\n(b)) c)".toList) = some (4, 20) := by
  have hspan : (balancedSpan? '(' ')' ")é (a ')' -- )\n(b)) c)".toList).map
      (byteSpan ")é (a ')' -- )\n(b)) c)".toList) = some (4, 20) := by decide +kernel
  have hfirst : IsLeast (offsetsOf '(' ")é (a ')' -- )\n(b)) c)".toList) 4 := by
    refine ⟨by unfold offsetsOf; decide +kernel, ?_⟩
    have hall : ∀ p ∈ codePoints ")é (a ')' -- )\n(b)) c)".toList, p.char = '(' →
        4 ≤ offset ")é (a ')' -- )\n(b)) c)".toList p.position := by decide +kernel
    rintro n ⟨p, hp, hchar, rfl⟩
    exact hall p hp hchar
  obtain ⟨-, hgroup⟩ := @balancedSpan?_first '(' ')' (by decide) (by decide) (by decide)
    ")é (a ')' -- )\n(b)) c)".toList
  obtain ⟨-, n, heven, hn⟩ := ((hgroup 4 hfirst).1 4 20).1 hspan
  obtain rfl : n = 19 := by omega
  exact ⟨by decide, by decide, by decide, hfirst, heven, hspan⟩

end CanonicalVhdl.Text
