import CanonicalVhdl.Proofs.Bytewise.Basic
import CanonicalVhdl.Proofs.Comment.Segments
import Mathlib.Data.List.Forall2

/-!
# Searches in masked texts

A search goes through the code points of a text.  Those of a masked text are those of the text
itself, and the blanks in place of comments among them.  Corresponding code points have the same
character, depth and byte offset, and a pattern that could tell a comment from blanks neither
starts nor goes on in one.

## Main definitions

* `Alike t t' p q` — searches see the same at the code point `p` of `t` and at `q` of `t'`.
* `byteSpan t` — a range of positions as a range of byte offsets.

## Main statements

* `alike_maskComments` — blanks aside, a text and its masked form have the same code points.
* `maskComments_invisible` — what masking does, and that no search notices.
-/

namespace CanonicalVhdl.Text

open Token

/-! ## Patterns -/

section Patterns

variable {u u' : Text}

/-- A pattern is found in front of a comment as in front of blanks. -/
theorem Veils.isPrefixOf (h : Veils u u') :
    ∀ {pattern : Text}, ' ' ∉ pattern → '-' ∉ pattern →
      pattern.isPrefixOf u = pattern.isPrefixOf u' := by
  induction h with
  | nil => exact fun _ _ => rfl
  | cons c h ih =>
    intro pattern hblank hhyphen
    cases pattern with
    | nil => rfl
    | cons d pattern =>
      rw [List.mem_cons, not_or] at hblank hhyphen
      rw [List.isPrefixOf_cons_cons, List.isPrefixOf_cons_cons, ih hblank.2 hhyphen.2]
  | comment w w' =>
    intro pattern hblank hhyphen
    cases pattern with
    | nil => rfl
    | cons d pattern =>
      rw [List.mem_cons, not_or] at hblank hhyphen
      rw [List.isPrefixOf_cons_cons, List.isPrefixOf_cons_cons, beq_false_of_ne (Ne.symm hblank.1),
        beq_false_of_ne (Ne.symm hhyphen.1), Bool.false_and, Bool.false_and]

/-- A word ends in front of a comment as in front of blanks. -/
theorem Veils.dropWord? (h : Veils u u') :
    ∀ {w : Text}, ' ' ∉ w → '-' ∉ w →
      Text.dropWord? w u = none ∧ Text.dropWord? w u' = none
        ∨ ∃ r r', Text.dropWord? w u = some r ∧ Text.dropWord? w u' = some r' ∧ Veils r r' := by
  induction h with
  | nil =>
    intro w _ _
    cases w with
    | nil => exact .inr ⟨[], [], rfl, rfl, .nil⟩
    | cons d w => exact .inl ⟨rfl, rfl⟩
  | @cons c u u' h ih =>
    intro w hblank hhyphen
    cases w with
    | nil => exact .inr ⟨c :: u, c :: u', rfl, rfl, .cons c h⟩
    | cons d w =>
      rw [List.mem_cons, not_or] at hblank hhyphen
      by_cases hd : (d.toLower == c.toLower) = true
      · simp only [Text.dropWord?, if_pos hd]
        exact ih hblank.2 hhyphen.2
      · exact .inl ⟨if_neg hd, if_neg hd⟩
  | comment w w' =>
    intro pattern hblank hhyphen
    cases pattern with
    | nil => exact .inr ⟨_, _, rfl, rfl, .comment w w'⟩
    | cons d pattern =>
      rw [List.mem_cons, not_or] at hblank hhyphen
      have hb : d.toLower ≠ ' ' := fun hd => hblank.1 ((toLower_eq_iff (by decide)).1 hd).symm
      have hh : d.toLower ≠ '-' := fun hd => hhyphen.1 ((toLower_eq_iff (by decide)).1 hd).symm
      have hlower : ' '.toLower = ' ' ∧ '-'.toLower = '-' := by decide
      exact .inl (by simp [Text.dropWord?, hb, hh, hlower])

theorem Veils.head_ident (h : Veils u u') : u.head?.any isIdentChar = u'.head?.any isIdentChar := by
  cases h with
  | nil => rfl
  | cons c h => rfl
  | comment w w' => rfl

/-- A pattern stands in front of a comment as in front of blanks. -/
theorem Veils.standsAt_eq (h : Veils u u') {pattern : Text} (hblank : ' ' ∉ pattern)
    (hhyphen : '-' ∉ pattern) (before : Option Char) :
    standsAt pattern before u = standsAt pattern before u' := by
  cases pattern with
  | nil => rfl
  | cons d pattern =>
    have hword : (wholeWord? true (d :: pattern) before u).isSome
        = (wholeWord? true (d :: pattern) before u').isSome := by
      simp only [wholeWord?, dropWordWith, if_true]
      obtain ⟨hnone, hnone'⟩ | ⟨r, r', hr, hr', hrest⟩ := h.dropWord? hblank hhyphen
      · rw [hnone, hnone']
      · rw [hr, hr', Option.bind_some, Option.bind_some, hrest.head_ident]
        by_cases hbefore : ((d :: pattern).isEmpty || before.any isIdentChar) = true
        · rw [if_pos hbefore, if_pos hbefore]
        · rw [if_neg hbefore, if_neg hbefore]
          by_cases hident : r'.head?.any isIdentChar = true
          · rw [if_pos hident, if_pos hident]
          · rw [if_neg hident, if_neg hident]
            rfl
    simp only [standsAt, hword, h.isPrefixOf hblank hhyphen]

theorem wholeWord?_head {c d : Char} (hd : d.toLower ≠ c.toLower) (w : Text) (before : Option Char)
    (u : Text) : wholeWord? true (d :: w) before (c :: u) = none := by
  have hnone : dropWord? (d :: w) (c :: u) = none := if_neg (by simpa using hd)
  simp [wholeWord?, dropWordWith, hnone]

/-- What precedes a line end makes no difference to what stands there. -/
theorem standsAt_newline (pattern : Text) (before b : Option Char) (u : Text) :
    standsAt pattern before ('\n' :: u) = standsAt pattern b ('\n' :: u) := by
  cases pattern with
  | nil => rfl
  | cons d pattern =>
    by_cases halpha : d.isAlpha = true
    · have hd : d.toLower ≠ '\n'.toLower := by
        intro hd
        rw [show '\n'.toLower = '\n' by decide, toLower_eq_iff (by decide)] at hd
        rw [hd] at halpha
        exact absurd halpha (by decide)
      simp only [standsAt, wholeWord?_head hd]
    · simp only [standsAt, if_neg halpha]

/-- A pattern without blanks does not stand at one. -/
theorem standsAt_space {pattern : Text} (hblank : ' ' ∉ pattern) (before : Option Char) (u : Text) :
    standsAt pattern before (' ' :: u) = false := by
  cases pattern with
  | nil => rfl
  | cons d pattern =>
    rw [List.mem_cons, not_or] at hblank
    have hd : d.toLower ≠ ' '.toLower := by
      intro hd
      rw [show ' '.toLower = ' ' by decide, toLower_eq_iff (by decide)] at hd
      exact hblank.1 hd.symm
    have hprefix : (d :: pattern).isPrefixOf (' ' :: u) = false := by
      rw [List.isPrefixOf_cons_cons, beq_false_of_ne (Ne.symm hblank.1), Bool.false_and]
    simp only [standsAt, wholeWord?_head hd, hprefix, Option.isSome_none, ite_self]

end Patterns

/-! ## Corresponding code points -/

/-- Searches see the same at the code point `p` of `t` and at the code point `q` of `t'`. -/
structure Alike (t t' : Text) (p q : CodePoint) : Prop where
  /-- The same character stands there. -/
  char : p.char = q.char
  /-- The depth of parentheses is the same. -/
  depth : p.depth = q.depth
  /-- As many bytes stand in front of it. -/
  start : offset t p.position = offset t' q.position
  /-- As many bytes stand in front of what follows it. -/
  stop : offset t (p.position + 1) = offset t' (q.position + 1)
  /-- The same patterns stand there. -/
  matchesAt : ∀ pattern, ' ' ∉ pattern → '-' ∉ pattern → matchesAt pattern p = matchesAt pattern q

/-- Whether a code point is no blank such as masking leaves. -/
def isVisible (p : CodePoint) : Bool :=
  p.char != ' '

theorem alike_cons {t t' : Text} {p q : CodePoint} {ps qs : List CodePoint} (hpq : Alike t t' p q)
    (h : List.Forall₂ (Alike t t') (ps.filter isVisible) (qs.filter isVisible)) :
    List.Forall₂ (Alike t t') ((p :: ps).filter isVisible) ((q :: qs).filter isVisible) := by
  have hvisible : isVisible p = isVisible q := by rw [isVisible, isVisible, hpq.char]
  rw [List.filter_cons, List.filter_cons, hvisible]
  by_cases hq : isVisible q = true
  · rw [if_pos hq, if_pos hq]
    exact .cons hpq h
  · rw [if_neg hq, if_neg hq]
    exact h

section Points

variable {before b : Option Char} {c : Char} {s s' u u' : Text}

theorem alike_head (hb : EntersAlike before b (c :: u)) (hs : byteLength s = byteLength s')
    (hu : Veils u u') (depth : Nat) :
    Alike (s ++ c :: u) (s' ++ c :: u') ⟨s.length, before, c, u, depth⟩
      ⟨s'.length, b, c, u', depth⟩ where
  char := rfl
  depth := rfl
  start := by rw [offset_length, offset_length, hs]
  stop := by rw [offset_length_succ, offset_length_succ, hs]
  matchesAt := by
    intro pattern hblank hhyphen
    rw [matchesAt_eq_standsAt, matchesAt_eq_standsAt]
    refine ((hu.append [c]).standsAt_eq hblank hhyphen before).trans ?_
    rcases hb with rfl | hline
    · rfl
    · obtain rfl : c = '\n' := hline c rfl
      exact standsAt_newline pattern before b u'

/-- The blanks in place of a comment are code points that no search looks for. -/
theorem filter_codePointsFrom_blanks (n : Nat) (position depth : Nat) (before : Option Char) (u : Text) :
    (codePointsFrom [] 0 position depth before (List.replicate n ' ' ++ u)).filter isVisible
      = (codePointsFrom [] 0 (position + n) depth (lastOr before (List.replicate n ' ')) u).filter
          isVisible := by
  induction n generalizing position before with
  | zero => rfl
  | succ n ih =>
    rw [List.replicate_succ, List.cons_append, codePointsFrom_code _ _ (at_blank_code before _),
      List.filter_cons_of_neg (by simp [isVisible]), if_neg (by decide), if_neg (by decide), ih, lastOr_cons,
      Nat.add_right_comm, Nat.add_assoc]

end Points

/-- Blanks aside, the code points of a text and of its masked form correspond to each other. -/
theorem Lexes.alike {before : Option Char} {ps : List Segment} (h : Lexes before ps) :
    ∀ (b : Option Char) (s s' : Text) (depth : Nat), EntersAlike before b (source ps) →
      byteLength s = byteLength s' →
      List.Forall₂ (Alike (s ++ source ps) (s' ++ masked ps))
        ((codePointsFrom [] 0 s.length depth before (source ps)).filter isVisible)
        ((codePointsFrom [] 0 s'.length depth b (masked ps)).filter isVisible) := by
  induction h with
  | nil => exact fun _ _ _ _ _ _ => .nil
  | @code before c ps hat h ih =>
    intro b s s' depth hb hs
    rw [source_cons, masked_code, List.singleton_append, List.singleton_append] at *
    have hat' := h.veils.at_code (hb.at.trans hat)
    have hrest := ih (some c) (s ++ [c]) (s' ++ [c])
      (if c == '(' then depth + 1 else if c == ')' then depth - 1 else depth) (.inl rfl)
      (by rw [byteLength_append, byteLength_append, hs])
    simp only [List.length_append, List.length_singleton, List.append_assoc, List.singleton_append]
      at hrest
    rw [codePointsFrom_code _ _ hat, codePointsFrom_code _ _ hat']
    exact alike_cons (alike_head hb hs h.veils _) hrest
  | @literal before c x ps hat h ih =>
    intro b s s' depth hb hs
    rw [source_cons, masked_code, List.cons_append, List.cons_append] at *
    have hat' := h.veils.at_literal (hb.at.trans hat)
    have hrest := ih (lastOr (some c) x) (s ++ c :: x) (s' ++ c :: x) depth (.inl rfl)
      (by rw [byteLength_append, byteLength_append, hs])
    simp only [List.length_append, List.length_cons, List.append_assoc, List.cons_append] at hrest
    rw [codePointsFrom_literal _ _ hat, codePointsFrom_literal _ _ hat', Nat.add_assoc, Nat.add_comm 1,
      Nat.add_assoc, Nat.add_comm 1]
    exact alike_cons (alike_head hb hs (h.veils.append x) _) hrest
  | @comment before c x ps hat h ih =>
    intro b s s' depth _ hs
    obtain ⟨-, -, -, -, hline⟩ := eq_of_at_comment hat
    rw [source_cons, masked_comment, List.cons_append]
    have hrest := ih (lastOr b (blanked (c :: x))) (s ++ c :: x) (s' ++ blanked (c :: x)) depth
      (.inr hline)
      (by rw [byteLength_append, byteLength_append, hs, ListEntry.byteLength_blanked])
    simp only [List.length_append, List.length_cons, List.append_assoc, List.cons_append] at hrest
    rw [codePointsFrom_comment _ _ hat, blanked, filter_codePointsFrom_blanks, Nat.add_assoc, Nat.add_comm 1]
    rw [blanked, List.length_replicate] at hrest
    exact hrest

theorem alike_maskComments (t : Text) :
    List.Forall₂ (Alike t (maskComments t)) ((codePoints t).filter isVisible)
      ((codePoints (maskComments t)).filter isVisible) := by
  obtain ⟨ps, h, rfl⟩ := exists_lexes t.length t none (Nat.le_refl _)
  rw [maskComments_source h]
  exact h.alike none [] [] 0 (.inl rfl) rfl

/-! ## Searches -/

section Searches

variable {t t' : Text}

/-- A test that no blank passes accepts corresponding code points. -/
theorem alike_filter {test : CodePoint → Bool} (hvisible : ∀ p, test p = true → p.char ≠ ' ')
    (htest : ∀ p q, Alike t (maskComments t) p q → test p = test q) :
    List.Forall₂ (Alike t (maskComments t)) ((codePoints t).filter test)
      ((codePoints (maskComments t)).filter test) := by
  have hdrop : ∀ ps : List CodePoint, ps.filter test = (ps.filter isVisible).filter test := by
    intro ps
    rw [List.filter_filter]
    refine List.filter_congr fun p _ => ?_
    by_cases hp : test p = true
    · simp [hp, isVisible, hvisible p hp]
    · simp [hp]
  rw [hdrop (codePoints t), hdrop (codePoints (maskComments t))]
  refine List.rel_filter (fun {p q} hpq => ?_) (alike_maskComments t)
  show test p = true ↔ test q = true
  rw [htest p q hpq]

theorem map_offset_eq {ps qs : List CodePoint} (h : List.Forall₂ (Alike t t') ps qs) :
    (qs.map (·.position)).map (offset t') = (ps.map (·.position)).map (offset t) := by
  induction h with
  | nil => rfl
  | cons hpq h ih => rw [List.map_cons, List.map_cons, List.map_cons, List.map_cons, ih, hpq.start]

/-- The same with places outside parentheses only. -/
theorem alike_outerPoints {test : CodePoint → Bool} (hvisible : ∀ p, test p = true → p.char ≠ ' ')
    (htest : ∀ p q, Alike t (maskComments t) p q → test p = test q) :
    List.Forall₂ (Alike t (maskComments t)) ((outerPoints t).filter test)
      ((outerPoints (maskComments t)).filter test) := by
  rw [outerPoints, outerPoints, List.filter_filter, List.filter_filter]
  apply alike_filter
  · intro p hp
    rw [Bool.and_eq_true] at hp
    exact hvisible p hp.1
  · intro p q hpq
    rw [htest p q hpq, hpq.depth]

/-- **A pattern without blanks and hyphens stands at the same byte offsets** in a text and in its
masked form. -/
theorem outerMatches_maskComments (t : Text) {pattern : Text} (hblank : ' ' ∉ pattern)
    (hhyphen : '-' ∉ pattern) :
    (outerMatches pattern (maskComments t)).map (offset (maskComments t))
      = (outerMatches pattern t).map (offset t) := by
  rw [outerMatches, outerMatches]
  apply map_offset_eq
  apply alike_outerPoints
  · intro p hp hc
    rw [matchesAt_eq_standsAt, CodePoint.rest, hc, standsAt_space hblank] at hp
    cases hp
  · intro p q hpq
    exact hpq.matchesAt pattern hblank hhyphen

/-! ## Separators -/

theorem byteLength_drop (t : Text) (i : Nat) : byteLength (t.drop i) = byteLength t - offset t i := by
  have hsplit : byteLength t = offset t i + byteLength (t.drop i) := by
    rw [offset, ← byteLength_append, List.take_append_drop]
  omega

theorem byteLength_take_drop (t : Text) {i j : Nat} (h : i ≤ j) :
    byteLength ((t.drop i).take (j - i)) = offset t j - offset t i := by
  have hsplit : t.take j = t.take i ++ (t.drop i).take (j - i) := by
    rw [← List.take_add, Nat.add_sub_cancel' h]
  have hlength : offset t j = offset t i + byteLength ((t.drop i).take (j - i)) := by
    rw [offset, hsplit, byteLength_append, ← offset]
  omega

/-- Pieces between corresponding places take the same number of bytes. -/
theorem map_byteLength_piecesBetween (ht : byteLength t' = byteLength t) {ps qs : List CodePoint}
    (h : List.Forall₂ (Alike t t') ps qs) :
    ∀ {i j : Nat}, (∀ p ∈ ps, i ≤ p.position) → (∀ q ∈ qs, j ≤ q.position) →
      ps.Pairwise (·.position < ·.position) → qs.Pairwise (·.position < ·.position) →
      offset t i = offset t' j →
      (piecesBetween j (t'.drop j) (qs.map (·.position))).map byteLength
        = (piecesBetween i (t.drop i) (ps.map (·.position))).map byteLength := by
  induction h with
  | nil =>
    intro i j _ _ _ _ hij
    simp only [List.map_nil, piecesBetween, List.map_cons, byteLength_drop, ht, hij]
  | @cons p q ps qs hpq h ih =>
    intro i j hi hj hps hqs hij
    obtain ⟨hnext, hps⟩ := List.pairwise_cons.1 hps
    obtain ⟨hnext', hqs⟩ := List.pairwise_cons.1 hqs
    have hp : i ≤ p.position := hi p List.mem_cons_self
    have hq : j ≤ q.position := hj q List.mem_cons_self
    have hdrop : (t.drop i).drop (p.position + 1 - i) = t.drop (p.position + 1) := by
      rw [List.drop_drop, Nat.add_sub_cancel' (by omega)]
    have hdrop' : (t'.drop j).drop (q.position + 1 - j) = t'.drop (q.position + 1) := by
      rw [List.drop_drop, Nat.add_sub_cancel' (by omega)]
    simp only [List.map_cons, piecesBetween]
    rw [byteLength_take_drop t hp, byteLength_take_drop t' hq, hdrop, hdrop',
      ih hnext hnext' hps hqs hpq.stop, hij, hpq.start]

/-- **The pieces between separators take the same numbers of bytes**, so that the cuts are at the
same offsets. -/
theorem splitOuter_maskComments (t : Text) {separator : Char} (h : separator ≠ ' ') :
    (splitOuter separator (maskComments t)).map byteLength
      = (splitOuter separator t).map byteLength := by
  have hsorted : ∀ u : Text, ((outerPoints u).filter (·.char == separator)).Pairwise
      (·.position < ·.position) :=
    fun u => ((codePointsFrom_pairwise 0 0 0 none u).filter _).filter _
  rw [splitOuter, splitOuter]
  refine map_byteLength_piecesBetween (i := 0) (j := 0) (byteLength_maskComments t) ?_ ?_ ?_ (hsorted t)
    (hsorted (maskComments t)) rfl
  · apply alike_outerPoints
    · intro p hp
      rw [beq_iff_eq.1 hp]
      exact h
    · intro p q hpq
      rw [hpq.char]
  · exact fun p _ => Nat.zero_le _
  · exact fun q _ => Nat.zero_le _

/-! ## Groups -/

/-- A range of positions as a range of byte offsets. -/
def byteSpan (t : Text) (span : Nat × Nat) : Nat × Nat :=
  (offset t span.1, offset t span.2)

theorem closeGroup_filter {opening closing : Char} (ho : opening ≠ ' ') (hc : closing ≠ ' ')
    (ps : List CodePoint) : ∀ state, closeGroup opening closing state (ps.filter isVisible)
      = closeGroup opening closing state ps := by
  induction ps with
  | nil => exact fun _ => rfl
  | cons p ps ih =>
    intro state
    by_cases hp : p.char = ' '
    · have hhidden : ¬ isVisible p = true := by simp [isVisible, hp]
      rw [List.filter_cons_of_neg hhidden, ih]
      cases state <;> simp [closeGroup, hp, Ne.symm ho, Ne.symm hc]
    · have hshown : isVisible p = true := by simp [isVisible, hp]
      rw [List.filter_cons_of_pos hshown]
      cases state <;> simp only [closeGroup, ih]

/-- A group among corresponding code points. -/
theorem closeGroup_alike (opening closing : Char) {ps qs : List CodePoint}
    (h : List.Forall₂ (Alike t t') ps qs) :
    ∀ (state state' : Option (Nat × Nat)),
      state.map (fun s => (offset t s.1, s.2)) = state'.map (fun s => (offset t' s.1, s.2)) →
      (closeGroup opening closing state' qs).map (Option.map (byteSpan t'))
        = (closeGroup opening closing state ps).map (Option.map (byteSpan t)) := by
  induction h with
  | nil =>
    intro state state' hstate
    cases state <;> cases state' <;> first | rfl | cases hstate
  | @cons p q ps qs hpq h ih =>
    intro state state' hstate
    cases state with
    | none =>
      cases state' with
      | some s' => cases hstate
      | none =>
        simp only [closeGroup, ← hpq.char]
        by_cases ho : (p.char == opening) = true
        · rw [if_pos ho, if_pos ho]
          exact ih _ _ (by rw [Option.map_some, Option.map_some, hpq.start])
        · rw [if_neg ho, if_neg ho, ite_self, ite_self]
          exact ih _ _ rfl
    | some s =>
      cases state' with
      | none => cases hstate
      | some s' =>
        obtain ⟨i, n⟩ := s
        obtain ⟨j, m⟩ := s'
        obtain ⟨hij, rfl⟩ : offset t i = offset t' j ∧ n = m := by simpa using hstate
        have hcount : ∀ k : Nat, (some (i, k)).map (fun s => (offset t s.1, s.2))
            = (some (j, k)).map (fun s => (offset t' s.1, s.2)) := by
          intro k
          rw [Option.map_some, Option.map_some, hij]
        simp only [closeGroup, ← hpq.char]
        by_cases ho : (p.char == opening) = true
        · rw [if_pos ho, if_pos ho]
          exact ih _ _ (hcount (n + 1))
        · rw [if_neg ho, if_neg ho]
          by_cases hc : (p.char == closing) = true
          · rw [if_pos hc, if_pos hc]
            by_cases hlast : (n == 1) = true
            · rw [if_pos hlast, if_pos hlast]
              simp only [Option.map_some, byteSpan, hij, hpq.stop]
            · rw [if_neg hlast, if_neg hlast]
              exact ih _ _ (hcount (n - 1))
          · rw [if_neg hc, if_neg hc]
            exact ih _ _ (hcount n)

end Searches

/-- **The first group takes up the same bytes** in a text and in its masked form. -/
theorem balancedSpan?_maskComments (t : Text) {opening closing : Char} (ho : opening ≠ ' ')
    (hc : closing ≠ ' ') :
    (balancedSpan? opening closing (maskComments t)).map (byteSpan (maskComments t))
      = (balancedSpan? opening closing t).map (byteSpan t) := by
  have hspan : ∀ (u : Text) (group : Option (Option (Nat × Nat))),
      (group.map fun g => g.getD (0, u.length)).map (byteSpan u)
        = (group.map (Option.map (byteSpan u))).map fun g => g.getD (0, byteLength u) := by
    intro u group
    have hwhole : byteSpan u (0, u.length) = (0, byteLength u) := by
      rw [byteSpan, offset, offset, List.take_zero, List.take_length]
      rfl
    rcases group with _ | _ | g
    · rfl
    · simp only [Option.map_some, Option.map_none, Option.getD_none, hwhole]
    · rfl
  have hgroup := closeGroup_alike opening closing (alike_maskComments t) none none rfl
  rw [closeGroup_filter ho hc, closeGroup_filter ho hc] at hgroup
  rw [balancedSpan?, balancedSpan?]
  by_cases hascii : (decide (opening.toNat < 128) && decide (closing.toNat < 128)) = true
  · rw [if_pos hascii, if_pos hascii, hspan, hspan, hgroup, byteLength_maskComments]
  · rw [if_neg hascii, if_neg hascii]
    rfl

/-! ## Masking as a whole -/

/-- **Masking comments is invisible to searches.**  The text is a row of lexemes; each byte of its
comments becomes a blank, and the rest stays.  The masked text takes as many bytes, holds no
comment, and is its own masked form.  The pieces between separators take the same numbers of bytes,
and groups and patterns are found at the same offsets. -/
theorem maskComments_invisible (t : Text) :
    byteLength (maskComments t) = byteLength t ∧
      (∃ ps, Lexes none ps ∧ source ps = t ∧ masked ps = maskComments t) ∧
      commentStart? (maskComments t) = none ∧
      maskComments (maskComments t) = maskComments t ∧
      (∀ separator, separator ≠ ' ' →
        (splitOuter separator (maskComments t)).map byteLength
          = (splitOuter separator t).map byteLength) ∧
      (∀ opening closing, opening ≠ ' ' → closing ≠ ' ' →
        (balancedSpan? opening closing (maskComments t)).map (byteSpan (maskComments t))
          = (balancedSpan? opening closing t).map (byteSpan t)) ∧
      ∀ pattern, ' ' ∉ pattern → '-' ∉ pattern →
        (outerMatches pattern (maskComments t)).map (offset (maskComments t))
          = (outerMatches pattern t).map (offset t) := by
  refine ⟨?_, ?_, ?_, ?_, ?_, ?_, ?_⟩
  · exact byteLength_maskComments t
  · obtain ⟨ps, h, rfl⟩ := exists_lexes t.length t none (Nat.le_refl _)
    exact ⟨ps, h, rfl, (maskComments_source h).symm⟩
  · exact commentStart?_maskComments t
  · exact maskComments_idem t
  · exact fun separator h => splitOuter_maskComments t h
  · exact fun opening closing ho hc => balancedSpan?_maskComments t ho hc
  · exact fun pattern hblank hhyphen => outerMatches_maskComments t hblank hhyphen

/-- The separators, the parentheses and the arrow of two lines with a comment between them. -/
theorem maskComments_invisible_lines :
    (';' ≠ ' ' ∧ (splitOuter ';' (maskComments "a(1); -- é;(\nb => ';'".toList)).map byteLength
        = (splitOuter ';' "a(1); -- é;(\nb => ';'".toList).map byteLength) ∧
      ('(' ≠ ' ' ∧ ')' ≠ ' ' ∧
        (balancedSpan? '(' ')' (maskComments "a(1); -- é;(\nb => ';'".toList)).map
            (byteSpan (maskComments "a(1); -- é;(\nb => ';'".toList))
          = (balancedSpan? '(' ')' "a(1); -- é;(\nb => ';'".toList).map
            (byteSpan "a(1); -- é;(\nb => ';'".toList)) ∧
      ' ' ∉ "=>".toList ∧ '-' ∉ "=>".toList ∧
        (outerMatches "=>".toList (maskComments "a(1); -- é;(\nb => ';'".toList)).map
            (offset (maskComments "a(1); -- é;(\nb => ';'".toList))
          = (outerMatches "=>".toList "a(1); -- é;(\nb => ';'".toList).map
            (offset "a(1); -- é;(\nb => ';'".toList) := by
  obtain ⟨-, -, -, -, hsplit, hspan, hmatches⟩ := maskComments_invisible "a(1); -- é;(\nb => ';'".toList
  refine ⟨⟨by decide, ?_⟩, ⟨by decide, by decide, ?_⟩, by decide, by decide, ?_⟩
  · exact hsplit ';' (by decide)
  · exact hspan '(' ')' (by decide) (by decide)
  · exact hmatches "=>".toList (by decide) (by decide)

end CanonicalVhdl.Text
