import CanonicalVhdl.Proofs.Bytewise.Lexeme
import CanonicalVhdl.Proofs.Search.Phrase

/-!
# Words in the bytes of a text

A word is looked for from a byte offset on.  Where a candidate is no whole word, the search goes on
behind the first character of the word, and a search for a phrase goes on behind what it has looked
at.  Each of these offsets is that of a place between characters.

## Main definitions

* `Bytewise.findWordFrom` — the first offset from a start on where a word stands whole.
* `Bytewise.findSentence` — the ranges of a phrase.

## Main statements

* `Bytewise.findWordFrom_eq`, `Bytewise.findSentence_eq` — the bytes answer what the characters
  answer.
-/

namespace CanonicalVhdl.Bytewise

open Text

/-! ## Occurrences of a text -/

/-- The byte offset of the first occurrence of a text in another one. -/
def find? (needle : Text) : Text → Option Nat
  | [] => if needle.isEmpty then some 0 else none
  | c :: t => if needle.isPrefixOf (c :: t) then some 0 else (find? needle t).map (c.utf8Size + ·)

section Occurrences

variable {needle t : Text}

theorem find?_eq_none (h : find? needle t = none) : ∀ y z, t = y ++ z → ¬ needle <+: z := by
  induction t with
  | nil =>
    rintro y z hsplit ⟨r, hr⟩
    obtain ⟨-, rfl⟩ := List.append_eq_nil_iff.1 hsplit.symm
    obtain ⟨rfl, -⟩ := List.append_eq_nil_iff.1 hr
    cases h
  | cons c t ih =>
    intro y z hsplit hz
    rw [find?] at h
    split at h
    · cases h
    · rename_i hnot
      cases y with
      | nil =>
        rw [List.nil_append] at hsplit
        exact hnot (List.isPrefixOf_iff_prefix.2 (hsplit ▸ hz))
      | cons d y =>
        obtain ⟨-, rfl⟩ := List.cons.inj hsplit
        exact ih (Option.map_eq_none_iff.1 h) y z rfl hz

theorem find?_eq_some {n : Nat} (h : find? needle t = some n) :
    ∃ y z, t = y ++ z ∧ byteLength y = n ∧ needle <+: z ∧
      ∀ y' z', t = y' ++ z' → byteLength y' < n → ¬ needle <+: z' := by
  induction t generalizing n with
  | nil =>
    rw [find?] at h
    split at h
    · obtain rfl := Option.some.inj h
      rename_i hempty
      rw [List.isEmpty_iff.1 hempty]
      exact ⟨[], [], rfl, rfl, List.nil_prefix, fun _ _ _ hlt => absurd hlt (Nat.not_lt_zero _)⟩
    · cases h
  | cons c t ih =>
    rw [find?] at h
    split at h
    · rename_i hprefix
      obtain rfl := Option.some.inj h
      exact ⟨[], c :: t, rfl, rfl, List.isPrefixOf_iff_prefix.1 hprefix,
        fun _ _ _ hlt => absurd hlt (Nat.not_lt_zero _)⟩
    · rename_i hnot
      obtain ⟨m, hm, rfl⟩ := Option.map_eq_some_iff.1 h
      obtain ⟨y, z, rfl, rfl, hz, hfirst⟩ := ih hm
      refine ⟨c :: y, z, rfl, byteLength_cons c y, hz, ?_⟩
      intro y' z' hsplit hlt hz'
      cases y' with
      | nil =>
        rw [List.nil_append] at hsplit
        exact hnot (List.isPrefixOf_iff_prefix.2 (hsplit ▸ hz'))
      | cons d y' =>
        obtain ⟨rfl, hrest⟩ := List.cons.inj hsplit
        rw [byteLength_cons] at hlt
        exact hfirst y' z' hrest (by omega) hz'

end Occurrences

/-! ## Words -/

/-- A text as a search compares it. -/
def shape (ignoreCase : Bool) (t : Text) : Text :=
  if ignoreCase then fold t else t

/-- Whether the byte at an index, if there is one, is no byte of an identifier. -/
def isCleanAt (bs : List UInt8) (i : Nat) : Checked Bool := do
  if bs.length ≤ i then return true else return !isIdentByte (← byteAt bs i)

/-- One turn of the search for a word. -/
def wordTurn (ignoreCase : Bool) (word t : Text) (_ : Unit) (i : Nat) :
    Checked (Turn Unit (Option Nat)) := do
  let needle := shape ignoreCase word
  match (slice? (shape ignoreCase t) i (byteLength (shape ignoreCase t))).bind (find? needle) with
  | none => return .done none
  | some found =>
    let touched ← isIdentBefore (bytes t) (i + found)
    let clean ← isCleanAt (bytes t) (i + found + byteLength needle)
    if !touched && clean then return .done (some (i + found))
    else return .next () (i + found + needle.head?.elim 1 Char.utf8Size)

/-- The first offset from a start on where a word stands whole. -/
def findWordFrom (ignoreCase : Bool) (word : Text) (start : Nat) (t : Text) : Checked (Option Nat) :=
  if word.isEmpty then return none
  else loop (byteLength t + 1) (wordTurn ignoreCase word t) (fun _ _ => return none) () start

/-- The first offset where a word stands whole. -/
def findWord (ignoreCase : Bool) (word t : Text) : Checked (Option Nat) :=
  findWordFrom ignoreCase word 0 t

section Words

variable {ignoreCase : Bool} {word t : Text}

theorem shape_append (s t : Text) : shape ignoreCase (s ++ t) = shape ignoreCase s ++ shape ignoreCase t := by
  cases ignoreCase with
  | true => exact fold_append s t
  | false => rfl

theorem byteLength_shape (t : Text) : byteLength (shape ignoreCase t) = byteLength t := by
  cases ignoreCase with
  | true => exact byteLength_fold t
  | false => rfl

theorem spells_iff {x : Text} : Spells ignoreCase word x ↔ shape ignoreCase word = shape ignoreCase x := by
  cases ignoreCase with
  | true => exact sameWord_iff
  | false => exact Iff.rfl

/-- The parts of a text as a search compares it. -/
theorem exists_of_shape_eq_append {y z : Text} (h : shape ignoreCase t = y ++ z) :
    ∃ y' z', t = y' ++ z' ∧ shape ignoreCase y' = y ∧ shape ignoreCase z' = z := by
  cases ignoreCase with
  | true => exact List.map_eq_append_iff.1 h
  | false => exact ⟨y, z, h, rfl, rfl⟩

theorem isCleanAt_eq (a u : Text) :
    isCleanAt (bytes (a ++ u)) (byteLength a) = .ok (!u.head?.any isIdentChar) := by
  rw [isCleanAt, length_bytes]
  cases u with
  | nil =>
    rw [if_pos (by rw [List.append_nil])]
    rfl
  | cons c u =>
    have hlt : ¬ byteLength (a ++ c :: u) ≤ byteLength a := by
      have := byteLength_lt_snoc a c
      have := byteLength_snoc_le a c u
      omega
    rw [if_neg hlt, byteAt_eq (getElem?_place a _), List.head?_cons, Option.any_some,
      ← isIdentByte_of_mem (lead_mem c)]
    rfl

/-- The search looks at the rest of the text. -/
theorem slice?_shape (a u : Text) :
    slice? (shape ignoreCase (a ++ u)) (byteLength a) (byteLength (shape ignoreCase (a ++ u)))
      = some (shape ignoreCase u) := by
  have h := slice?_append (shape ignoreCase a) (shape ignoreCase u) []
  rw [List.append_nil, ← byteLength_append, ← shape_append, byteLength_shape a] at h
  exact h

/-- Where a word stands whole, it is an occurrence in what the search looks at. -/
theorem exists_prefix_of_standsWhole {a u : Text} {k : Nat} (h : StandsWhole ignoreCase word (a ++ u) k)
    (hk : byteLength a ≤ k) :
    ∃ y z, shape ignoreCase u = y ++ z ∧ byteLength a + byteLength y = k ∧ shape ignoreCase word <+: z := by
  obtain ⟨-, a', x, b, hsplit, rfl, hx, -⟩ := h
  obtain ⟨y, rfl, rfl⟩ := exists_append_of_le hsplit hk
  refine ⟨shape ignoreCase y, shape ignoreCase (x ++ b), shape_append _ _, ?_, ?_⟩
  · rw [byteLength_shape, byteLength_append]
  · rw [shape_append, spells_iff.1 hx]
    exact List.prefix_append _ _

/-- Whether the search for a word has found the first offset from a start on, or there is none. -/
def IsFirst (ignoreCase : Bool) (word t : Text) (start : Nat) : Option Nat → Prop
  | none => ∀ k, start ≤ k → ¬ StandsWhole ignoreCase word t k
  | some n => IsLeast {k | start ≤ k ∧ StandsWhole ignoreCase word t k} n

/-- A search goes on behind offsets where no word stands. -/
theorem IsFirst.skip {start next : Nat} {r : Option Nat} (h : IsFirst ignoreCase word t next r)
    (hle : start ≤ next) (hnone : ∀ k, start ≤ k → k < next → ¬ StandsWhole ignoreCase word t k) :
    IsFirst ignoreCase word t start r := by
  have hnext : ∀ k, start ≤ k → StandsWhole ignoreCase word t k → next ≤ k := by
    intro k hk hstands
    by_contra hlt
    exact hnone k hk (Nat.lt_of_not_le hlt) hstands
  cases r with
  | none => exact fun k hk hstands => h k (hnext k hk hstands) hstands
  | some n =>
    obtain ⟨⟨hn, hstands⟩, hleast⟩ := h
    exact ⟨⟨Nat.le_trans hle hn, hstands⟩, fun k hk => hleast ⟨hnext k hk.1 hk.2, hk.2⟩⟩

/-- There is one first offset at most. -/
theorem IsFirst.unique {start : Nat} {r r' : Option Nat} (h : IsFirst ignoreCase word t start r)
    (h' : IsFirst ignoreCase word t start r') : r = r' := by
  cases r with
  | none =>
    cases r' with
    | none => rfl
    | some n => exact absurd h'.1.2 (h n h'.1.1)
  | some n =>
    cases r' with
    | none => exact absurd h.1.2 (h' n h.1.1)
    | some m => exact congrArg some (IsLeast.unique h h')

/-- **The search for a word in the bytes of a text finds the first offset**, without a fault. -/
theorem loop_wordTurn (hword : word ≠ []) (n : Nat) :
    ∀ a u : Text, u.length < n → ∃ r,
      loop (byteLength (a ++ u) + 1) (wordTurn ignoreCase word (a ++ u)) (fun _ _ => return none) ()
          (byteLength a) = .ok r ∧ IsFirst ignoreCase word (a ++ u) (byteLength a) r := by
  induction n with
  | zero => exact fun _ _ hu => absurd hu (Nat.not_lt_zero _)
  | succ n ih =>
    intro a u hu
    have hbound : byteLength a < byteLength (a ++ u) + 1 := Nat.lt_succ_of_le (byteLength_le_append a u)
    cases hfind : find? (shape ignoreCase word) (shape ignoreCase u) with
    | none =>
      have hturn : wordTurn ignoreCase word (a ++ u) () (byteLength a) = .ok (.done none) := by
        rw [wordTurn, slice?_shape, Option.bind_some, hfind]
        rfl
      refine ⟨none, loop_done hbound hturn, fun k hk hstands => ?_⟩
      obtain ⟨y, z, hsplit, -, hprefix⟩ := exists_prefix_of_standsWhole hstands hk
      exact find?_eq_none hfind y z hsplit hprefix
    | some found =>
      obtain ⟨y, z, hsplit, hfound, ⟨r, hr⟩, hfirst⟩ := find?_eq_some hfind
      obtain ⟨y, z, rfl, rfl, rfl⟩ := exists_of_shape_eq_append hsplit
      obtain ⟨x, b, rfl, hx, -⟩ := exists_of_shape_eq_append hr.symm
      have hspells : Spells ignoreCase word x := spells_iff.2 hx.symm
      have hsource : a ++ (y ++ (x ++ b)) = a ++ y ++ (x ++ b) := (List.append_assoc a y _).symm
      have hstart : byteLength a + found = byteLength (a ++ y) := by
        rw [← hfound, byteLength_shape, byteLength_append]
      -- no word stands before the candidate
      have hnone : ∀ k, byteLength a ≤ k → k < byteLength (a ++ y) →
          ¬ StandsWhole ignoreCase word (a ++ (y ++ (x ++ b))) k := by
        intro k hk hlt hstands
        obtain ⟨y', z', hsplit', hk', hprefix⟩ := exists_prefix_of_standsWhole hstands hk
        exact hfirst y' z' hsplit' (by omega) hprefix
      have htouched := isIdentBefore_eq (a ++ y) (x ++ b)
      have hclean := isCleanAt_eq (a ++ y ++ x) b
      rw [List.append_assoc (a ++ y), byteLength_append (a ++ y) x] at hclean
      have hneedle : byteLength (shape ignoreCase word) = byteLength x := by
        rw [← hx, byteLength_shape]
      have hturn : wordTurn ignoreCase word (a ++ (y ++ (x ++ b))) () (byteLength a)
          = .ok (if !(a ++ y).getLast?.any isIdentChar && !b.head?.any isIdentChar then
              .done (some (byteLength (a ++ y)))
            else .next () (byteLength (a ++ y) + (shape ignoreCase word).head?.elim 1 Char.utf8Size)) := by
        rw [wordTurn, slice?_shape, Option.bind_some, hfind]
        simp only [hstart, hneedle, hsource, bind, Except.bind, htouched, hclean]
        split <;> rfl
      by_cases hapart : (!(a ++ y).getLast?.any isIdentChar && !b.head?.any isIdentChar) = true
      · rw [if_pos hapart] at hturn
        rw [Bool.and_eq_true, Bool.not_eq_true', Bool.not_eq_true'] at hapart
        have hstands : StandsWhole ignoreCase word (a ++ (y ++ (x ++ b))) (byteLength (a ++ y)) :=
          ⟨hword, a ++ y, x, b, hsource, rfl, hspells, hapart.1, hapart.2⟩
        refine ⟨_, loop_done hbound hturn, ⟨byteLength_le_append a y, hstands⟩, fun k hk => ?_⟩
        by_contra hlt
        exact hnone k hk.1 (Nat.lt_of_not_le hlt) hk.2
      · rw [if_neg hapart] at hturn
        obtain ⟨c, x, rfl⟩ := List.exists_cons_of_ne_nil (hspells.ne_nil hword)
        have hsize : (shape ignoreCase word).head?.elim 1 Char.utf8Size = c.utf8Size := by
          rw [← hx]
          cases ignoreCase with
          | true => exact utf8Size_toLower c
          | false => rfl
        have hnext : byteLength (a ++ y) + c.utf8Size = byteLength (a ++ y ++ [c]) := by
          rw [byteLength_append (a ++ y), byteLength_cons, byteLength_nil, Nat.add_zero]
        have hrest : a ++ (y ++ (c :: x ++ b)) = a ++ y ++ [c] ++ (x ++ b) := by simp
        rw [hsize, hnext] at hturn
        have hlt := byteLength_lt_snoc (a ++ y) c
        have hle := byteLength_le_append a y
        have hend := byteLength_le_append (a ++ y ++ [c]) (x ++ b)
        rw [← hrest] at hend
        obtain ⟨r, hloop, hr⟩ := ih (a ++ y ++ [c]) (x ++ b) (by
          simp only [List.length_append, List.length_cons] at hu ⊢
          omega)
        rw [← hrest] at hloop hr
        refine ⟨r, ?_, hr.skip (by omega) fun k hk hknext hstands => ?_⟩
        · rw [loop_next hturn (by omega) (by omega), hloop]
        · have hbefore : ¬ k < byteLength (a ++ y) := fun h => hnone k hk h hstands
          have hbehind : ¬ byteLength (a ++ y) < k := by
            intro h
            have hboundary := hstands.isBoundary
            rw [hsource] at hboundary
            have := hboundary.succ_le h
            omega
          obtain rfl : k = byteLength (a ++ y) := by omega
          obtain ⟨-, a', x', b', hsplit', hlength, hx', happart'⟩ := hstands
          obtain ⟨rfl, hrest'⟩ := eq_of_byteLength_eq (hsource.symm.trans hsplit') hlength.symm
          have hxx : (c :: x).length = x'.length := hspells.length_eq.symm.trans hx'.length_eq
          obtain ⟨-, rfl⟩ := List.append_inj hrest' hxx
          exact hapart (by rw [happart'.before, happart'.behind]; rfl)

/-- **A word is found in the bytes where it is found in the characters.** -/
theorem findWordFrom_eq {start i : Nat} (hstart : position? start t = some i) :
    findWordFrom ignoreCase word start t = .ok ((wordFrom? ignoreCase word i t).map (offset t)) := by
  have hmodel : IsFirst ignoreCase word t start ((wordFrom? ignoreCase word i t).map (offset t)) := by
    rcases wordFrom?_cases hstart with ⟨hnone, hall⟩ | ⟨j, hsome, hleast⟩
    · rw [hnone]
      exact hall
    · rw [hsome]
      exact hleast
  rw [findWordFrom]
  by_cases hword : word = []
  · have hnone : IsFirst ignoreCase word t start none := fun k _ hstands => hstands.1 hword
    rw [if_pos (List.isEmpty_iff.2 hword), ← hnone.unique hmodel]
    rfl
  · obtain ⟨hi, rfl⟩ := position?_eq_some_iff.1 hstart
    obtain ⟨r, hloop, hr⟩ := @loop_wordTurn ignoreCase word hword (t.length + 1) (t.take i)
      (t.drop i) (by rw [List.length_drop]; omega)
    rw [List.take_append_drop] at hloop hr
    rw [if_neg (by simpa using hword), ← hr.unique hmodel]
    exact hloop

/-- A word is found in the bytes of a text where it is found in its characters. -/
theorem findWord_eq (ignoreCase : Bool) (word t : Text) :
    findWord ignoreCase word t = .ok ((word? ignoreCase word t).map (offset t)) :=
  findWordFrom_eq (position?_append [] t)

end Words

/-! ## Phrases -/

/-- How many bytes of blanks stand at an offset. -/
def gapAt (t : Text) (stop : Nat) : Checked Nat := do
  let rest ← part t stop (byteLength t)
  minus (byteLength rest) (byteLength (trimStart rest))

/-- Where the words of a phrase end, each of which stands behind one blank at least. -/
def sentenceEnd (ignoreCase : Bool) (t : Text) (stop : Nat) : List Text → Checked (Option Nat)
  | [] => return some stop
  | word :: words => do
    let gap ← gapAt t stop
    if gap == 0 then return none
    else
      match ← findWordFrom ignoreCase word (stop + gap) t with
      | some start =>
        if start == stop + gap then sentenceEnd ignoreCase t (start + byteLength word) words
        else return none
      | none => return none

/-- One turn of the search for a phrase; the state holds the ranges found, newest first. -/
def sentenceTurn (ignoreCase : Bool) (first : Text) (words : List Text) (t : Text)
    (found : List (Nat × Nat)) (i : Nat) : Checked (Turn (List (Nat × Nat)) (List (Nat × Nat))) := do
  match ← findWordFrom ignoreCase first i t with
  | none => return .done found.reverse
  | some start =>
    match ← sentenceEnd ignoreCase t (start + byteLength first) words with
    | some stop => return .next ((start, stop) :: found) stop
    | none => return .next found (start + byteLength first)

/-- The ranges of a phrase that share no byte. -/
def findSentence (ignoreCase : Bool) (words : List Text) (t : Text) : Checked (List (Nat × Nat)) :=
  match words with
  | [] => return []
  | first :: words =>
    loop (byteLength t + 1) (sentenceTurn ignoreCase first words t) (fun found _ => return found.reverse) []
      0

section Phrases

variable {ignoreCase : Bool} {word first : Text} {words : List Text}

theorem byteLength_eq_of_spells {x : Text} (h : Spells ignoreCase word x) : byteLength word = byteLength x := by
  rw [← @byteLength_shape ignoreCase word, spells_iff.1 h, byteLength_shape]

theorem gapAt_eq (a u : Text) :
    gapAt (a ++ u) (byteLength a) = .ok (byteLength (u.takeWhile isBlank)) := by
  have hsize : byteLength u = byteLength (u.takeWhile isBlank) + byteLength (trimStart u) := by
    rw [← byteLength_append, trimStart, List.takeWhile_append_dropWhile]
  rw [gapAt, part_back]
  refine (minus_eq (by omega)).trans (congrArg Except.ok ?_)
  omega

/-- What is found at the place where a search starts is a whole word there. -/
theorem findWordFrom_here (a u : Text) :
    ∃ r, findWordFrom ignoreCase word (byteLength a) (a ++ u) = .ok r ∧
      (r = some (byteLength a) ↔ (wholeWord? ignoreCase word a.getLast? u).isSome = true) := by
  have hstart := position?_append a u
  refine ⟨_, findWordFrom_eq hstart, ?_⟩
  rw [wordFrom?_isLeast hstart, ← standsWhole_iff]
  constructor
  · exact fun h => h.1.2
  · exact fun h => ⟨⟨Nat.le_refl _, h⟩, fun k hk => hk.1⟩

theorem phraseLength?_add (m : Nat) :
    ∀ (length : Nat) (u : Text), phraseLength? ignoreCase (m + length) u words
      = (phraseLength? ignoreCase length u words).map (m + ·) := by
  induction words with
  | nil => exact fun _ _ => rfl
  | cons word words ih =>
    intro length u
    simp only [phraseLength?]
    split
    · rfl
    · split
      · rfl
      · rw [Nat.add_assoc, Nat.add_assoc, ih, Nat.add_assoc]

/-- Only whether an identifier character precedes it matters to a whole word. -/
theorem wholeWord?_congr {b b' : Option Char} (h : b.any isIdentChar = b'.any isIdentChar) (u : Text) :
    wholeWord? ignoreCase word b u = wholeWord? ignoreCase word b' u := by
  rw [wholeWord?, wholeWord?, h]

/-- **The words of a phrase end where they end for the characters.** -/
theorem sentenceEnd_eq (words : List Text) :
    ∀ a u : Text, sentenceEnd ignoreCase (a ++ u) (byteLength a) words
      = .ok ((phraseLength? ignoreCase 0 u words).map fun n => byteLength (a ++ u.take n)) := by
  induction words with
  | nil =>
    intro a u
    rw [sentenceEnd, phraseLength?, Option.map_some, List.take_zero, List.append_nil]
    rfl
  | cons word words ih =>
    intro a u
    have hsplit : u = u.takeWhile isBlank ++ u.drop (u.takeWhile isBlank).length :=
      (List.prefix_iff_eq_append.1 (List.takeWhile_prefix isBlank)).symm
    have hblank : (u.takeWhile isBlank).all isBlank = true := List.all_takeWhile
    rw [sentenceEnd, gapAt_eq, phraseLength?]
    simp only [bind, Except.bind]
    generalize hg : u.takeWhile isBlank = g at *
    generalize hv : u.drop g.length = v at *
    subst hsplit
    by_cases hne : g = []
    · subst hne
      rfl
    · have hbytes : (byteLength g == 0) = false := beq_false_of_ne fun h => hne (byteLength_eq_zero.1 h)
      have hchars : (g.length == 0) = false := beq_false_of_ne fun h => hne (List.length_eq_zero_iff.1 h)
      obtain ⟨r, hfind, hr⟩ := @findWordFrom_here ignoreCase word (a ++ g) v
      rw [List.append_assoc, byteLength_append a g] at hfind
      rw [hbytes, hchars, if_neg Bool.false_ne_true, if_neg Bool.false_ne_true, hfind]
      have hbefore : wholeWord? ignoreCase word (a ++ g).getLast? v = wholeWord? ignoreCase word (some ' ') v := by
        apply wholeWord?_congr
        obtain ⟨g, c, rfl⟩ := (List.eq_nil_or_concat' g).resolve_left hne
        have hc : isBlank c = true := List.all_eq_true.1 hblank c (by simp)
        have hspace : isIdentChar ' ' = false := by decide
        rw [← List.append_assoc, List.getLast?_concat, Option.any_some, Option.any_some, hspace]
        by_contra hident
        rw [isBlank_eq_false_of_isIdentChar (by simpa using hident)] at hc
        cases hc
      rw [hbefore] at hr
      cases hwhole : wholeWord? ignoreCase word (some ' ') v with
      | none =>
        rw [hwhole, Option.isSome_none] at hr
        cases r with
        | none => rfl
        | some start =>
          have hmiss : (start == byteLength (a ++ g)) = false := by
            apply beq_false_of_ne
            rintro rfl
            exact Bool.false_ne_true (hr.1 rfl)
          rw [byteLength_append] at hmiss
          simp only [hmiss]
          rfl
      | some after =>
        obtain ⟨-, -, x, rfl, hspells, -⟩ := wholeWord?_eq_some_iff.1 hwhole
        rw [hwhole] at hr
        obtain rfl := hr.2 rfl
        have hrest := ih (a ++ g ++ x) after
        have hsource : a ++ (g ++ (x ++ after)) = a ++ g ++ x ++ after := by simp
        rw [← hsource, byteLength_append (a ++ g), ← byteLength_eq_of_spells hspells] at hrest
        have hhit : (byteLength (a ++ g) == byteLength a + byteLength g) = true := by
          rw [byteLength_append, beq_self_eq_true]
        simp only [hhit, if_true, hrest]
        rw [Nat.zero_add, ← Nat.add_zero (g.length + List.length word), phraseLength?_add, Option.map_map]
        congr 2
        funext n
        have htake : (g ++ (x ++ after)).take (g.length + word.length + n) = g ++ (x ++ after.take n) := by
          rw [hspells.length_eq, Nat.add_assoc, List.take_append, List.take_of_length_le (by omega),
            Nat.add_sub_cancel_left, List.take_append, List.take_of_length_le (by omega), Nat.add_sub_cancel_left]
        simp only [Function.comp_apply, htake, List.append_assoc]

theorem phraseLength?_le :
    ∀ {length n : Nat} {u : Text}, phraseLength? ignoreCase length u words = some n → n ≤ length + u.length := by
  induction words with
  | nil =>
    intro length n u h
    obtain rfl := Option.some.inj h
    omega
  | cons word words ih =>
    intro length n u h
    simp only [phraseLength?] at h
    split at h
    · cases h
    · split at h
      · cases h
      · rename_i after hwhole
        obtain ⟨-, -, x, hsplit, hspells, -⟩ := wholeWord?_eq_some_iff.1 hwhole
        have hle := ih h
        have hlength := congrArg List.length hsplit
        have hgap : (u.takeWhile isBlank).length ≤ u.length := (List.takeWhile_prefix _).length_le
        rw [List.length_drop, List.length_append, ← hspells.length_eq] at hlength
        omega

/-- The search passes over places where the first word does not stand whole. -/
theorem phrasesFrom_walk (y u : Text) :
    ∀ a : Text, (∀ k, byteLength a ≤ k → k < byteLength (a ++ y) →
        ¬ StandsWhole ignoreCase first (a ++ (y ++ u)) k) →
      phrasesFrom ignoreCase first words [] 0 a.length a.getLast? (y ++ u)
        = phrasesFrom ignoreCase first words [] 0 (a ++ y).length (a ++ y).getLast? u := by
  induction y with
  | nil =>
    intro a _
    rw [List.append_nil, List.nil_append]
  | cons c y ih =>
    intro a h
    have hnone : wholeWord? ignoreCase first a.getLast? (c :: (y ++ u)) = none := by
      have hstands := h (byteLength a) (Nat.le_refl _)
        (Nat.lt_of_lt_of_le (byteLength_lt_snoc a c) (byteLength_snoc_le a c y))
      rw [List.cons_append, standsWhole_iff] at hstands
      simpa using hstands
    have hrest := ih (a ++ [c]) fun k hk hlt => by
      have hle := Nat.le_of_lt (byteLength_lt_snoc a c)
      rw [List.append_assoc] at hlt ⊢
      exact h k (by omega) hlt
    rw [List.append_assoc, List.getLast?_concat, List.length_append, List.length_singleton] at hrest
    rw [List.cons_append, phrasesFrom, hnone]
    exact hrest

/-- Where the first word stands whole, the search goes on behind it, or behind the phrase. -/
theorem phrasesFrom_hit {a x b : Text} (hspells : Spells ignoreCase first x)
    (hwhole : wholeWord? ignoreCase first a.getLast? (x ++ b) = some b) :
    phrasesFrom ignoreCase first words [] 0 a.length a.getLast? (x ++ b)
      = match phraseLength? ignoreCase 0 b words with
        | none => phrasesFrom ignoreCase first words [] 0 (a ++ x).length (a ++ x).getLast? b
        | some n => (a.length, (a ++ x ++ b.take n).length)
            :: phrasesFrom ignoreCase first words [] 0 (a ++ x ++ b.take n).length
              (a ++ x ++ b.take n).getLast? (b.drop n) := by
  have hphrase := @phraseLength?_add ignoreCase words first.length 0 b
  rw [Nat.add_zero] at hphrase
  obtain ⟨c, x, rfl⟩ := List.exists_cons_of_ne_nil (hspells.ne_nil (wholeWord?_eq_some_iff.1 hwhole).1)
  rw [List.cons_append] at hwhole
  rw [List.cons_append, phrasesFrom, hwhole]
  simp only [hphrase]
  cases hmore : phraseLength? ignoreCase 0 b words with
  | none =>
    rw [Option.map_none, hspells.length_eq, phrasesFrom_pass, lastOr_getLast?, List.length_append]
  | some n =>
    have hle : n ≤ b.length := by
      have := phraseLength?_le hmore
      omega
    have hpass := @phrasesFrom_pass ignoreCase first words c
      (x ++ b.take n) (b.drop n) a.length a.getLast?
    have hlength : (c :: (x ++ b.take n)).length = first.length + n := by
      rw [hspells.length_eq, ← List.cons_append, List.length_append, List.length_take, Nat.min_eq_left hle]
    rw [List.append_assoc, List.take_append_drop, lastOr_getLast?, hlength, ← hlength] at hpass
    rw [Option.map_some, ← hlength]
    dsimp only
    rw [phrasesFrom_append, hpass]
    simp only [List.length_append, List.cons_append, List.append_assoc]
    rfl

/-- **The search for a phrase in the bytes of a text goes on where the characters go on.** -/
theorem loop_sentenceTurn (first : Text) (words : List Text) (n : Nat) :
    ∀ (a u : Text) (found : List (Nat × Nat)), u.length < n →
      loop (byteLength (a ++ u) + 1) (sentenceTurn ignoreCase first words (a ++ u))
          (fun found _ => return found.reverse) found (byteLength a)
        = .ok (found.reverse ++ (phrasesFrom ignoreCase first words [] 0 a.length a.getLast? u).map
            (byteSpan (a ++ u))) := by
  induction n with
  | zero => exact fun _ _ _ hu => absurd hu (Nat.not_lt_zero _)
  | succ n ih =>
    intro a u found hu
    have hbound : byteLength a < byteLength (a ++ u) + 1 := Nat.lt_succ_of_le (byteLength_le_append a u)
    have hfind := @findWordFrom_eq ignoreCase first _ _ _ (position?_append a u)
    rcases @wordFrom?_cases ignoreCase first _ _ _ (position?_append a u) with
      ⟨hnone, hall⟩ | ⟨j, hsome, ⟨hj, hstands⟩, hleast⟩
    · have hturn : sentenceTurn ignoreCase first words (a ++ u) found (byteLength a)
          = .ok (.done found.reverse) := by
        rw [sentenceTurn, hfind, hnone]
        rfl
      have hwalk := @phrasesFrom_walk ignoreCase first words u [] a fun k hk _ => by
        rw [List.append_nil]
        exact hall k hk
      rw [List.append_nil] at hwalk
      rw [loop_done hbound hturn, hwalk, phrasesFrom, List.reverse_nil, List.map_nil, List.append_nil]
    · rw [hsome, Option.map_some] at hfind
      obtain ⟨hne, a', x, b, hsplit, hlength, hspells, hapart⟩ := hstands
      obtain ⟨y, rfl, rfl⟩ := exists_append_of_le hsplit (hlength ▸ hj)
      have hsource : a ++ (y ++ (x ++ b)) = a ++ y ++ x ++ b := by simp
      have hwhole : wholeWord? ignoreCase first (a ++ y).getLast? (x ++ b) = some b :=
        wholeWord?_eq_some_iff.2 ⟨hne, hapart.before, x, rfl, hspells, hapart.behind⟩
      have hwalk := @phrasesFrom_walk ignoreCase first words y (x ++ b) a fun k hk hlt hstands =>
        absurd (hleast ⟨hk, hstands⟩) (by rw [← hlength]; exact Nat.not_le.2 hlt)
      have hstop := @sentenceEnd_eq ignoreCase words (a ++ y ++ x) b
      rw [← hlength] at hfind
      rw [← hsource, byteLength_append (a ++ y), ← byteLength_eq_of_spells hspells] at hstop
      rw [hwalk, phrasesFrom_hit hspells hwhole]
      -- the search moves on, at least behind the first word
      have hpos : 0 < byteLength x := Nat.pos_of_ne_zero fun h => hspells.ne_nil hne (byteLength_eq_zero.1 h)
      have hmoves : ∀ m : Text, byteLength a < byteLength (a ++ y ++ x ++ m) := by
        intro m
        simp only [byteLength_append]
        omega
      have hlength : 0 < x.length := List.length_pos_of_ne_nil (hspells.ne_nil hne)
      simp only [List.length_append] at hu
      cases hmore : phraseLength? ignoreCase 0 b words with
      | none =>
        have hturn : sentenceTurn ignoreCase first words (a ++ (y ++ (x ++ b))) found (byteLength a)
            = .ok (.next found (byteLength (a ++ y ++ x))) := by
          rw [sentenceTurn, hfind, byteLength_append (a ++ y), ← byteLength_eq_of_spells hspells]
          simp only [bind, Except.bind, hstop, hmore, Option.map_none]
          rfl
        have hlt := hmoves []
        rw [List.append_nil] at hlt
        have hle := byteLength_le_append (a ++ y ++ x) b
        rw [← hsource] at hle
        have hrest := ih (a ++ y ++ x) b found (by omega)
        rw [← hsource] at hrest
        rw [loop_next hturn hlt (Nat.le_succ_of_le hle), hrest]
      | some m =>
        have hturn : sentenceTurn ignoreCase first words (a ++ (y ++ (x ++ b))) found (byteLength a)
            = .ok (.next ((byteLength (a ++ y), byteLength (a ++ y ++ x ++ b.take m)) :: found)
                (byteLength (a ++ y ++ x ++ b.take m))) := by
          rw [sentenceTurn, hfind]
          simp only [bind, Except.bind, hstop, hmore, Option.map_some]
          rfl
        have hend : a ++ (y ++ (x ++ b)) = a ++ y ++ x ++ b.take m ++ b.drop m := by
          rw [hsource, List.append_assoc _ (b.take m), List.take_append_drop]
        have hle := byteLength_le_append (a ++ y ++ x ++ b.take m) (b.drop m)
        rw [← hend] at hle
        have hspan : byteSpan (a ++ (y ++ (x ++ b))) ((a ++ y).length, (a ++ y ++ x ++ b.take m).length)
            = (byteLength (a ++ y), byteLength (a ++ y ++ x ++ b.take m)) := by
          rw [byteSpan]
          refine Prod.ext ?_ ?_
          · rw [← List.append_assoc a, offset_length]
          · rw [hend, offset_length]
        have hrest := ih (a ++ y ++ x ++ b.take m) (b.drop m)
          ((byteLength (a ++ y), byteLength (a ++ y ++ x ++ b.take m)) :: found) (by
            rw [List.length_drop]
            omega)
        rw [← hend] at hrest
        rw [loop_next hturn (hmoves _) (Nat.le_succ_of_le hle), hrest, List.reverse_cons, List.append_assoc,
          List.map_cons, hspan]
        rfl

/-- A phrase does not end in front of its start. -/
theorem le_of_mem_phrasesFrom {t : Text} :
    ∀ {found : List (Nat × Nat)} {skip position : Nat} {before : Option Char}, (∀ r ∈ found, r.1 ≤ r.2) →
      ∀ r ∈ phrasesFrom ignoreCase first words found skip position before t, r.1 ≤ r.2 := by
  induction t with
  | nil => exact fun h r hr => h r (List.mem_reverse.1 hr)
  | cons c t ih =>
    intro found skip position before h
    cases skip with
    | succ skip => exact ih h
    | zero =>
      rw [phrasesFrom]
      split
      · exact ih h
      · split
        · exact ih h
        · exact ih (List.forall_mem_cons.2 ⟨Nat.le_add_right _ _, h⟩)

/-- **A phrase is found in the bytes where it is found in the characters.** -/
theorem findSentence_eq (ignoreCase : Bool) (words : List Text) (t : Text) :
    findSentence ignoreCase words t = .ok ((phrases ignoreCase words t).map (byteSpan t)) := by
  cases words with
  | nil => rfl
  | cons first words => exact loop_sentenceTurn first words (t.length + 1) [] t [] (Nat.lt_succ_self _)

end Phrases

end CanonicalVhdl.Bytewise
