import CanonicalVhdl.Proofs.Bytewise.Lexeme
import CanonicalVhdl.Proofs.Search.Group
import CanonicalVhdl.Proofs.Search.Separator
import CanonicalVhdl.Proofs.Search.Word

/-!
# Searches through the bytes outside literals and comments

Groups, separators and patterns are looked for among the code points of the bytes.  Delimiters and
separators are characters of ASCII, which no byte of another character is, and a pattern starts with
the first byte of a character.  So the bytes of other characters are passed over, and what is found
starts and ends between characters.

## Main definitions

* `Bytewise.balancedSpan` — the first group between two delimiters.
* `Bytewise.splitTopLevel` — the pieces between separators.
* `Bytewise.topLevelMatches` — where a pattern stands.

## Main statements

* `Bytewise.balancedSpan_eq`, `Bytewise.splitTopLevel_eq`, `Bytewise.topLevelMatches_eq` — the bytes
  answer what the characters answer.
-/

namespace CanonicalVhdl.Bytewise

open Text Token

/-! ## Groups -/

/-- The range of the first group among the given points.  `start` is the offset of the first opening
delimiter, and `count` the number of groups still open; `size` is the size of the text. -/
def groupFrom (size : Nat) (opening closing : UInt8) (start : Option Nat) (count : Nat) :
    List Point → Checked (Option (Nat × Nat))
  | [] => return if start.isSome then none else some (0, size)
  | p :: ps =>
    if p.byte == opening then groupFrom size opening closing (start.or (some p.offset)) (count + 1) ps
    else if p.byte == closing && start.isSome then do
      let count ← minus count 1
      if count == 0 then return start.map fun s => (s, p.offset + 1)
      else groupFrom size opening closing start count ps
    else groupFrom size opening closing start count ps

/-- The range from the first opening delimiter through its partner, in bytes. -/
def balancedSpan (opening closing : Char) (t : Text) : Checked (Option (Nat × Nat)) := do
  if opening.toNat < 128 && closing.toNat < 128 then
    groupFrom (byteLength t) opening.toUInt8 closing.toUInt8 none 0 (← points t)
  else return none

section Groups

variable {t : Text} {opening closing : Char}

/-- Points that are no delimiters are passed over. -/
theorem groupFrom_append {size : Nat} {o c : UInt8} {qs : List Point}
    (h : ∀ q ∈ qs, (q.byte == o) = false ∧ (q.byte == c) = false) (start : Option Nat) (count : Nat)
    (ps : List Point) : groupFrom size o c start count (qs ++ ps) = groupFrom size o c start count ps := by
  induction qs with
  | nil => rfl
  | cons q qs ih =>
    obtain ⟨⟨ho, hc⟩, hqs⟩ := List.forall_mem_cons.1 h
    rw [List.cons_append, groupFrom, ho, hc, if_neg Bool.false_ne_true, Bool.false_and,
      if_neg Bool.false_ne_true, ih hqs]

theorem closeGroup_closing {p : CodePoint} (ho : p.char ≠ opening) (hc : p.char = closing)
    (start count : Nat) (ps : List CodePoint) :
    closeGroup opening closing (some (start, count)) (p :: ps)
      = if count == 1 then some (some (start, p.position + 1))
        else closeGroup opening closing (some (start, count - 1)) ps := by
  rw [closeGroup, if_neg (by simpa using ho), if_pos (beq_iff_eq.2 hc)]

/-- **The bytes close the group that the characters close.** -/
theorem groupFrom_eq (ho : opening.toNat < 128) (hc : closing.toNat < 128) {ps : List CodePoint}
    (hps : ∀ p ∈ ps, p ∈ codePoints t) :
    ∀ state : Option (Nat × Nat), (∀ s ∈ state, 0 < s.2) →
      groupFrom (byteLength t) opening.toUInt8 closing.toUInt8 (state.map fun s => offset t s.1)
          ((state.map Prod.snd).getD 0) (ps.flatMap (spread t))
        = .ok ((closeGroup opening closing state ps).map
            fun group => (group.map (byteSpan t)).getD (0, byteLength t)) := by
  induction ps with
  | nil =>
    intro state _
    cases state <;> rfl
  | cons p ps ih =>
    intro state hstate
    obtain ⟨hp, hps⟩ := List.forall_mem_cons.1 hps
    rw [List.flatMap_cons]
    by_cases hopen : p.char = opening
    · have hascii : p.char.toNat < 128 := hopen ▸ ho
      rw [spread_ascii hascii, List.singleton_append, groupFrom, hopen, if_pos (beq_self_eq_true _)]
      cases state with
      | none =>
        rw [closeGroup, if_pos (beq_iff_eq.2 hopen)]
        exact ih hps (some (p.position, 1)) (by simp)
      | some s =>
        rw [closeGroup, if_pos (beq_iff_eq.2 hopen)]
        exact ih hps (some (s.1, s.2 + 1)) (by simp)
    · by_cases hclose : p.char = closing
      · have hascii : p.char.toNat < 128 := hclose ▸ hc
        have hbyte : (p.char.toUInt8 == opening.toUInt8) = false := by
          rw [toUInt8_beq hascii ho, beq_false_of_ne hopen]
        rw [spread_ascii hascii, List.singleton_append, groupFrom, hbyte, if_neg Bool.false_ne_true, hclose,
          beq_self_eq_true, Bool.true_and]
        cases state with
        | none =>
          have hnone := @closeGroup_none_append _ closing [p] (by simpa using hopen) ps
          rw [List.singleton_append] at hnone
          rw [hnone]
          exact ih hps none (by simp)
        | some s =>
          obtain ⟨start, count⟩ := s
          have hcount : 0 < count := hstate _ rfl
          have hminus : minus count 1 = .ok (count - 1) := minus_eq hcount
          rw [closeGroup_closing hopen hclose]
          simp only [Option.map_some, Option.isSome_some, if_true, Option.getD_some, hminus, bind, Except.bind]
          by_cases hlast : count = 1
          · subst hlast
            simp only [byteSpan, offset_succ_position hp hascii, beq_self_eq_true, if_true, Option.map_some,
              Option.getD_some]
            rfl
          · have hmore : (count == 1) = false := beq_false_of_ne hlast
            have hleft : (count - 1 == 0) = false := beq_false_of_ne (by omega)
            rw [hmore, hleft, if_neg Bool.false_ne_true, if_neg Bool.false_ne_true]
            exact ih hps (some (start, count - 1)) (by rintro _ ⟨⟩; show 0 < count - 1; omega)
      · rw [closeGroup_other _ _ hopen hclose, groupFrom_append]
        · exact ih hps state hstate
        · intro q hq
          have hmem := byte_mem_of_mem_spread hq
          exact ⟨(beq_of_mem ho hmem).trans (beq_false_of_ne hopen),
            (beq_of_mem hc hmem).trans (beq_false_of_ne hclose)⟩

/-- The bytes close the first group where the characters close it. -/
theorem balancedSpan_eq (opening closing : Char) (t : Text) :
    balancedSpan opening closing t = .ok ((balancedSpan? opening closing t).map (byteSpan t)) := by
  rw [balancedSpan, balancedSpan?]
  by_cases hascii : (decide (opening.toNat < 128) && decide (closing.toNat < 128)) = true
  · rw [if_pos hascii, if_pos hascii, points_eq]
    rw [Bool.and_eq_true, decide_eq_true_eq, decide_eq_true_eq] at hascii
    have hgroup := groupFrom_eq hascii.1 hascii.2 (t := t) (fun _ (hp : _ ∈ codePoints t) => hp) none (by simp)
    refine Eq.trans hgroup ?_
    rw [Option.map_map]
    congr 2
    funext group
    cases group with
    | none => simp [byteSpan, offset]
    | some g => rfl
  · rw [if_neg hascii, if_neg hascii]
    rfl

/-- A group does not end in front of its start. -/
theorem le_of_closeGroup {ps : List CodePoint} (hps : ps.Pairwise (·.position < ·.position)) {b e : Nat}
    (h : closeGroup opening closing none ps = some (some (b, e))) : b ≤ e := by
  induction ps with
  | nil => cases h
  | cons p ps ih =>
    obtain ⟨hp, hps⟩ := List.pairwise_cons.1 hps
    simp only [closeGroup] at h
    split at h
    · obtain ⟨q, hq, -, hg⟩ := exists_of_closeGroup h
      obtain ⟨rfl, rfl⟩ := Prod.mk.inj (Option.some.inj hg)
      exact Nat.le_succ_of_le (Nat.le_of_lt (hp q hq))
    · split at h
      · exact ih hps h
      · exact ih hps h

theorem le_of_balancedSpan? {r : Nat × Nat} (h : balancedSpan? opening closing t = some r) : r.1 ≤ r.2 := by
  rw [balancedSpan?] at h
  obtain ⟨-, h⟩ := Option.ite_none_right_eq_some.1 h
  obtain ⟨g, hg, rfl⟩ := Option.map_eq_some_iff.1 h
  cases g with
  | none => exact Nat.zero_le _
  | some r => exact le_of_closeGroup (codePointsFrom_pairwise 0 0 0 none t) hg

end Groups

/-! ## Separators -/

/-- The pieces of a text from `start` on, cut at the separators among the given points. -/
def cutFrom (t : Text) (separator : UInt8) (start : Nat) : List Point → Checked (List Text)
  | [] => do return [← part t start (byteLength t)]
  | p :: ps =>
    if p.depth == 0 && p.byte == separator then do
      let piece ← part t start p.offset
      return piece :: (← cutFrom t separator (p.offset + 1) ps)
    else cutFrom t separator start ps

/-- The pieces between the separators outside parentheses, literals and comments. -/
def splitTopLevel (separator : Char) (t : Text) : Checked (List Text) := do
  cutFrom t separator.toUInt8 0 (← points t)

section Separators

variable {separator : Char}

/-- Points that are no separators are passed over. -/
theorem cutFrom_append {t : Text} {s : UInt8} {qs : List Point} (h : ∀ q ∈ qs, (q.byte == s) = false)
    (start : Nat) (ps : List Point) : cutFrom t s start (qs ++ ps) = cutFrom t s start ps := by
  induction qs with
  | nil => rfl
  | cons q qs ih =>
    obtain ⟨hq, hqs⟩ := List.forall_mem_cons.1 h
    rw [List.cons_append, cutFrom, hq, Bool.and_false, if_neg Bool.false_ne_true, ih hqs]

/-- **The bytes are cut where the characters are cut.** -/
theorem cutFrom_eq (hs : separator.toNat < 128) {ps : List CodePoint} :
    ∀ {a u : Text}, (∀ p ∈ ps, a.length ≤ p.position ∧ p ∈ codePoints (a ++ u)) →
      ps.Pairwise (·.position < ·.position) →
      cutFrom (a ++ u) separator.toUInt8 (byteLength a) (ps.flatMap (spread (a ++ u)))
        = .ok (piecesBetween a.length u (cuts separator ps)) := by
  induction ps with
  | nil =>
    intro a u _ _
    simp only [List.flatMap_nil, cutFrom, part_back]
    rfl
  | cons p ps ih =>
    intro a u hps hsorted
    obtain ⟨⟨hle, hp⟩, hps⟩ := List.forall_mem_cons.1 hps
    obtain ⟨hlt, hsorted⟩ := List.pairwise_cons.1 hsorted
    rw [List.flatMap_cons]
    by_cases hchar : p.char = separator
    · have hascii : p.char.toNat < 128 := hchar ▸ hs
      have hbyte : (separator.toUInt8 == separator.toUInt8) = true := beq_self_eq_true _
      rw [spread_ascii hascii, List.singleton_append, cutFrom, hchar, hbyte, Bool.and_true]
      by_cases hdepth : p.depth = 0
      · obtain ⟨s, hsplit, hposition, -⟩ := mem_codePoints hp
        obtain ⟨x, rfl, rfl⟩ : ∃ x, s = a ++ x ∧ u = x ++ separator :: p.after := by
          rw [hposition] at hle
          rcases List.append_eq_append_iff.1 hsplit with ⟨m, rfl, hm⟩ | ⟨m, rfl, hm⟩
          · exact ⟨m, rfl, by rw [hm, CodePoint.rest, hchar]⟩
          · rw [List.length_append] at hle
            obtain rfl := List.eq_nil_of_length_eq_zero (show m.length = 0 by omega)
            exact ⟨[], by simp, by rw [List.nil_append, ← hchar]; exact hm.symm⟩
        have hsource : a ++ (x ++ separator :: p.after) = a ++ x ++ [separator] ++ p.after := by simp
        have hoffset : offset (a ++ (x ++ separator :: p.after)) p.position = byteLength (a ++ x) := by
          rw [hposition, ← List.append_assoc, offset_length]
        have hcut : cuts separator (p :: ps) = (a.length + x.length) :: cuts separator ps := by
          rw [cuts, List.filter_cons_of_pos (by simp [isCut, hchar, hdepth]), List.map_cons, hposition,
            List.length_append]
          rfl
        have hrest := ih (a := a ++ x ++ [separator]) (u := p.after) (by
          intro q hq
          have := hlt q hq
          refine ⟨?_, hsource ▸ (hps q hq).2⟩
          rw [List.length_append, List.length_singleton]
          omega) hsorted
        rw [← hsource, byteLength_snoc hs, List.length_append, List.length_append, List.length_singleton] at hrest
        rw [hdepth, hoffset, hcut, piecesBetween_cut, beq_self_eq_true, if_pos rfl, part_between]
        simp only [bind, Except.bind, hrest]
        rfl
      · have hcut : isCut separator p = false := by simp [isCut, hdepth]
        rw [beq_false_of_ne hdepth, if_neg Bool.false_ne_true, cuts_cons hcut]
        exact ih hps hsorted
    · have hcut : isCut separator p = false := by simp [isCut, hchar]
      rw [cuts_cons hcut, cutFrom_append]
      · exact ih hps hsorted
      · intro q hq
        exact (beq_of_mem hs (byte_mem_of_mem_spread hq)).trans (beq_false_of_ne hchar)

/-- The bytes are cut at the separators of the characters. -/
theorem splitTopLevel_eq (hs : separator.toNat < 128) (t : Text) :
    splitTopLevel separator t = .ok (splitOuter separator t) := by
  have hcut := cutFrom_eq hs (a := []) (u := t) (fun p (hp : p ∈ codePoints t) => ⟨Nat.zero_le _, hp⟩)
    (codePointsFrom_pairwise 0 0 0 none t)
  rw [splitTopLevel, points_eq, splitOuter_eq_cuts]
  exact hcut

end Separators

/-! ## Patterns -/

/-- Whether a pattern stands at an index: as a whole word, case aside, or byte for byte. -/
def patternAt (bs pattern : List UInt8) (isWord : Bool) (i : Nat) : Checked Bool := do
  if i + pattern.length ≤ bs.length then
    let candidate := (bs.drop i).take pattern.length
    if isWord then
      if ← startsWordAt bs i then
        return candidate.map lowerByte == pattern.map lowerByte && !(bs[i + pattern.length]?).any isIdentByte
      else return false
    else return candidate == pattern
  else return false

/-- The offsets, among the given points, of the pattern outside parentheses. -/
def matchesFrom (bs pattern : List UInt8) (isWord : Bool) : List Point → Checked (List Nat)
  | [] => return []
  | p :: ps => do
    let found ← if p.depth == 0 then patternAt bs pattern isWord p.offset else .ok false
    let rest ← matchesFrom bs pattern isWord ps
    return if found then p.offset :: rest else rest

/-- The offsets of a pattern outside parentheses, literals and comments. -/
def topLevelMatches (pattern t : Text) : Checked (List Nat) := do
  match bytes pattern with
  | [] => return []
  | first :: _ => matchesFrom (bytes t) (bytes pattern) (isAlphaByte first) (← points t)

/-- The first offset of a pattern outside parentheses, literals and comments. -/
def findTopLevel (pattern t : Text) : Checked (Option Nat) := do
  return (← topLevelMatches pattern t).head?

section Patterns

variable {pattern t : Text}

/-- Texts that start with a word, case aside, by their bytes. -/
theorem exists_sameWord_iff {w u : Text} :
    (∃ x b, u = x ++ b ∧ sameWord w x = true)
      ↔ byteLength w ≤ byteLength u ∧
        ((bytes u).take (byteLength w)).map lowerByte = (bytes w).map lowerByte := by
  rw [← bytes_fold, List.map_take, ← bytes_fold]
  have hprefix : (bytes (fold u)).take (byteLength w) = bytes (fold w) ∧ byteLength w ≤ byteLength u
      ↔ fold w <+: fold u := by
    rw [← bytes_isPrefix_iff, List.prefix_iff_eq_take, length_bytes, byteLength_fold, eq_comm]
    constructor
    · exact fun h => h.1
    · intro h
      refine ⟨h, ?_⟩
      have hlength := congrArg List.length h
      rw [length_bytes, List.length_take, length_bytes, byteLength_fold, byteLength_fold] at hlength
      omega
  rw [and_comm, hprefix]
  constructor
  · rintro ⟨x, b, rfl, hx⟩
    rw [sameWord_iff.1 hx, fold_append]
    exact List.prefix_append _ _
  · rintro ⟨r, hr⟩
    obtain ⟨x, b, rfl, hx, -⟩ := List.map_eq_append_iff.1 hr.symm
    exact ⟨x, b, rfl, sameWord_iff.2 hx.symm⟩

/-- A whole word at the head of a text. -/
theorem isSome_wholeWord?_iff {w u : Text} {before : Option Char} :
    (wholeWord? true w before u).isSome = true
      ↔ w ≠ [] ∧ before.any isIdentChar = false ∧
        ∃ x b, u = x ++ b ∧ sameWord w x = true ∧ b.head?.any isIdentChar = false := by
  rw [Option.isSome_iff_exists]
  constructor
  · rintro ⟨b, hb⟩
    obtain ⟨hne, hbefore, x, hx, hspells, hbehind⟩ := wholeWord?_eq_some_iff.1 hb
    exact ⟨hne, hbefore, x, b, hx, hspells, hbehind⟩
  · rintro ⟨hne, hbefore, x, b, hx, hspells, hbehind⟩
    exact ⟨b, wholeWord?_eq_some_iff.2 ⟨hne, hbefore, x, hx, hspells, hbehind⟩⟩

/-- A word that starts with a letter starts where an identifier starts. -/
theorem startsWord_of_sameWord {d c : Char} {w x : Text} (hd : d.isAlpha = true)
    (h : sameWord (d :: w) (c :: x) = true) : isIdentChar c = true := by
  obtain ⟨hdc, -⟩ := List.cons.inj (sameWord_iff.1 h)
  rw [← isIdentChar_toLower, ← hdc, isIdentChar_toLower, isIdentChar, Char.isAlphanum, hd]
  rfl

/-- A word stands where it stands whole for the characters. -/
theorem patternAt_word {d : Char} {w : Text} (hd : d.isAlpha = true) (a : Text) (c : Char) (u : Text) :
    patternAt (bytes (a ++ c :: u)) (bytes (d :: w)) true (byteLength a)
      = .ok (wholeWord? true (d :: w) a.getLast? (c :: u)).isSome := by
  have hlength : byteLength a + (bytes (d :: w)).length ≤ (bytes (a ++ c :: u)).length
      ↔ byteLength (d :: w) ≤ byteLength (c :: u) := by
    rw [length_bytes, length_bytes, byteLength_append]
    omega
  have hfits : (wholeWord? true (d :: w) a.getLast? (c :: u)).isSome = true →
      (isIdentChar c && !a.getLast?.any isIdentChar) = true ∧ byteLength (d :: w) ≤ byteLength (c :: u) ∧
        ((bytes (c :: u)).take (byteLength (d :: w))).map lowerByte = (bytes (d :: w)).map lowerByte := by
    intro h
    obtain ⟨-, hbefore, x, b, hsplit, hx, -⟩ := isSome_wholeWord?_iff.1 h
    refine ⟨?_, exists_sameWord_iff.1 ⟨x, b, hsplit, hx⟩⟩
    cases x with
    | nil => cases sameWord_iff.1 hx
    | cons e x =>
      obtain ⟨rfl, -⟩ := List.cons.inj hsplit
      rw [startsWord_of_sameWord hd hx, hbefore]
      rfl
  rw [patternAt, drop_bytes, startsWordAt_eq]
  by_cases hle : byteLength (d :: w) ≤ byteLength (c :: u)
  · rw [if_pos (hlength.2 hle), if_pos rfl]
    by_cases hstart : (isIdentChar c && !a.getLast?.any isIdentChar) = true
    · simp only [bind, Except.bind, hstart, if_true, length_bytes]
      by_cases hword : ((bytes (c :: u)).take (byteLength (d :: w))).map lowerByte
          = (bytes (d :: w)).map lowerByte
      · obtain ⟨x, b, hsplit, hx⟩ := exists_sameWord_iff.2 ⟨hle, hword⟩
        have hsize : byteLength (d :: w) = byteLength x := by
          rw [← byteLength_fold, sameWord_iff.1 hx, byteLength_fold]
        have hnext := getElem?_place (a ++ x) b
        rw [byteLength_append, List.append_assoc, ← hsplit, ← hsize] at hnext
        rw [hword, beq_self_eq_true, Bool.true_and, hnext, any_lead]
        refine congrArg Except.ok ?_
        rw [Bool.eq_iff_iff, isSome_wholeWord?_iff, Bool.not_eq_true']
        constructor
        · intro hb
          rw [Bool.and_eq_true, Bool.not_eq_true'] at hstart
          exact ⟨List.cons_ne_nil d w, hstart.2, x, b, hsplit, hx, hb⟩
        · rintro ⟨-, -, x', b', hsplit', hx', hb'⟩
          have hlength : x.length = x'.length := by
            rw [← length_eq_of_sameWord hx, ← length_eq_of_sameWord hx']
          obtain ⟨rfl, rfl⟩ := List.append_inj (hsplit.symm.trans hsplit') hlength
          exact hb'
      · rw [beq_false_of_ne hword, Bool.false_and, eq_false_of_ne_true fun h => hword (hfits h).2.2]
        rfl
    · simp only [bind, Except.bind, hstart]
      rw [eq_false_of_ne_true fun h => hstart (hfits h).1]
      rfl
  · rw [if_neg (fun h => hle (hlength.1 h)), eq_false_of_ne_true fun h => hle (hfits h).2.1]
    rfl

/-- **A pattern stands where it stands for the characters.** -/
theorem patternAt_eq {d : Char} {w : Text} (a : Text) (c : Char) (u : Text) :
    patternAt (bytes (a ++ c :: u)) (bytes (d :: w)) (isAlphaByte (lead d)) (byteLength a)
      = .ok (standsAt (d :: w) a.getLast? (c :: u)) := by
  rw [standsAt, isAlphaByte_of_mem (lead_mem d)]
  by_cases halpha : d.isAlpha = true
  · rw [if_pos halpha, halpha, patternAt_word halpha]
  · have hstands : (byteLength a + (bytes (d :: w)).length ≤ (bytes (a ++ c :: u)).length
        ∧ (bytes (c :: u)).take (bytes (d :: w)).length = bytes (d :: w))
        ↔ (d :: w).isPrefixOf (c :: u) = true := by
      rw [List.isPrefixOf_iff_prefix, ← bytes_isPrefix_iff, List.prefix_iff_eq_take, eq_comm, and_iff_right_iff_imp]
      intro h
      have hlength := congrArg List.length h
      rw [List.length_take, length_bytes, length_bytes] at hlength
      rw [length_bytes, length_bytes, byteLength_append]
      omega
    rw [if_neg halpha, eq_false_of_ne_true halpha, patternAt, drop_bytes, if_neg Bool.false_ne_true]
    by_cases hle : byteLength a + (bytes (d :: w)).length ≤ (bytes (a ++ c :: u)).length
    · rw [if_pos hle]
      refine congrArg Except.ok ?_
      rw [Bool.eq_iff_iff, beq_iff_eq, ← hstands, and_iff_right hle]
    · rw [if_neg hle, eq_false_of_ne_true fun h => hle (hstands.2 h).1]
      rfl

/-- **No pattern stands inside a character.** -/
theorem patternAt_inside {d : Char} {w : Text} (a : Text) (c : Char) (u : Text) {k : Nat} (hpos : 0 < k)
    (hk : k < c.utf8Size) :
    patternAt (bytes (a ++ c :: u)) (bytes (d :: w)) (isAlphaByte (lead d)) (byteLength a + k) = .ok false := by
  have hc : ¬ c.toNat < 128 := by
    intro hc
    rw [utf8Size_eq_one hc] at hk
    omega
  obtain ⟨b, hb, hbyte⟩ := exists_byte a c u hk
  rw [patternAt]
  by_cases hle : byteLength a + k + (bytes (d :: w)).length ≤ (bytes (a ++ c :: u)).length
  · rw [if_pos hle]
    cases hword : isAlphaByte (lead d) with
    | true =>
      have hident : isIdentByte b = false := by
        rw [isIdentByte_of_mem hb]
        exact eq_false_of_ne_true fun h => hc (toNat_lt_of_isIdentChar h)
      rw [if_pos rfl, startsWordAt_byte hbyte hident]
      rfl
    | false =>
      rw [if_neg Bool.false_ne_true]
      refine congrArg Except.ok (beq_false_of_ne fun heq => ?_)
      have hprefix : bytes (d :: w) <+: (bytes (a ++ c :: u)).drop (byteLength a + k) := by
        rw [← heq]
        exact List.take_prefix _ _
      have hbound := (isBoundary_of_isPrefix (List.cons_ne_nil d w) hprefix).succ_le (by omega)
      rw [byteLength_append, byteLength_cons, byteLength_nil] at hbound
      omega
  · rw [if_neg hle]
    rfl

/-- The bytes of a code point: its first one, and those inside its character. -/
theorem exists_spread (t : Text) (p : CodePoint) :
    ∃ qs, spread t p = ⟨offset t p.position, lead p.char, p.depth⟩ :: qs ∧
      ∀ q ∈ qs, ∃ k, 0 < k ∧ k < p.char.utf8Size ∧ q.offset = offset t p.position + k := by
  obtain ⟨b, x, hx⟩ := List.exists_cons_of_ne_nil (String.utf8EncodeChar_ne_nil (c := p.char))
  have hlead : lead p.char = b := by simp [lead, hx]
  have hlength := congrArg List.length hx
  rw [String.length_utf8EncodeChar, List.length_cons] at hlength
  rw [spread, hx, List.mapIdx_cons, hlead]
  refine ⟨_, rfl, ?_⟩
  rintro q hq
  obtain ⟨k, hk, rfl⟩ := List.mem_mapIdx.1 hq
  exact ⟨k + 1, Nat.succ_pos k, by omega, rfl⟩

/-- Points where the pattern does not stand are passed over. -/
theorem matchesFrom_append {bs pattern : List UInt8} {isWord : Bool} {qs : List Point}
    (h : ∀ q ∈ qs, patternAt bs pattern isWord q.offset = .ok false) (ps : List Point) :
    matchesFrom bs pattern isWord (qs ++ ps) = matchesFrom bs pattern isWord ps := by
  induction qs with
  | nil => rfl
  | cons q qs ih =>
    obtain ⟨hq, hqs⟩ := List.forall_mem_cons.1 h
    rw [List.cons_append, matchesFrom, hq, ite_self, ih hqs]
    cases matchesFrom bs pattern isWord ps <;> rfl

/-- **The bytes hold a pattern where the characters hold it.** -/
theorem matchesFrom_eq {d : Char} {w : Text} {ps : List CodePoint} (hps : ∀ p ∈ ps, p ∈ codePoints t) :
    matchesFrom (bytes t) (bytes (d :: w)) (isAlphaByte (lead d)) (ps.flatMap (spread t))
      = .ok (((ps.filter (·.depth == 0)).filter (matchesAt (d :: w))).map fun p => offset t p.position) := by
  induction ps with
  | nil => rfl
  | cons p ps ih =>
    obtain ⟨hp, hps⟩ := List.forall_mem_cons.1 hps
    obtain ⟨a, hsplit, hposition, hbefore, -⟩ := mem_codePoints hp
    obtain ⟨qs, hspread, hinside⟩ := exists_spread t p
    have hoffset : offset t p.position = byteLength a := by rw [hposition, hsplit, offset_length]
    have hpattern := patternAt_eq (d := d) (w := w) a p.char p.after
    have hlast : a.getLast? = p.before := by rw [hbefore, lastOr, Option.or_none]
    rw [hlast, show p.char :: p.after = p.rest from rfl, ← hsplit, ← hoffset] at hpattern
    have hnone : ∀ q ∈ qs, patternAt (bytes t) (bytes (d :: w)) (isAlphaByte (lead d)) q.offset = .ok false := by
      intro q hq
      obtain ⟨k, hpos, hk, hq⟩ := hinside q hq
      have h := patternAt_inside (d := d) (w := w) a p.char p.after hpos hk
      rwa [show p.char :: p.after = p.rest from rfl, ← hsplit, ← hoffset, ← hq] at h
    rw [List.flatMap_cons, hspread, List.cons_append, matchesFrom, matchesFrom_append hnone, ih hps, hpattern,
      ← matchesAt_eq_standsAt]
    by_cases hdepth : p.depth = 0
    · have hkeep : (p.depth == 0) = true := beq_iff_eq.2 hdepth
      simp only [List.filter_cons, hkeep, if_true]
      cases matchesAt (d :: w) p <;> rfl
    · have hdrop : (p.depth == 0) = false := beq_false_of_ne hdepth
      simp only [List.filter_cons, hdrop, Bool.false_eq_true, if_false]
      rfl

/-- The bytes hold a pattern outside parentheses where the characters hold it. -/
theorem topLevelMatches_eq (pattern t : Text) :
    topLevelMatches pattern t = .ok ((outerMatches pattern t).map (offset t)) := by
  cases pattern with
  | nil =>
    rw [outerMatches, List.filter_eq_nil_iff.2 fun p _ => by simp [matchesAt]]
    rfl
  | cons d w =>
    have hmatches := matchesFrom_eq (d := d) (w := w) (t := t) fun _ (hp : _ ∈ codePoints t) => hp
    obtain ⟨b, x, hx⟩ := List.exists_cons_of_ne_nil (String.utf8EncodeChar_ne_nil (c := d))
    have hlead : lead d = b := by simp [lead, hx]
    have hbytes : bytes (d :: w) = b :: (x ++ bytes w) := by rw [bytes_cons, hx, List.cons_append]
    rw [outerMatches, outerPoints, List.map_map]
    rw [hlead] at hmatches
    simp only [topLevelMatches, hbytes, points_eq, bind, Except.bind]
    rw [← hbytes]
    exact hmatches

theorem findTopLevel_eq (pattern t : Text) :
    findTopLevel pattern t = .ok ((outerMatch? pattern t).map (offset t)) := by
  rw [findTopLevel, topLevelMatches_eq, outerMatch?_eq_head?, ← List.head?_map]
  rfl

end Patterns

end CanonicalVhdl.Bytewise
