import CanonicalVhdl.Text.Extent
import Mathlib.Data.List.Basic

/-!
# The ends of a text

What trimming, counting bytes and cutting whole words off either end do to a text
that is put together from parts.  A part is *blank* when all its characters are,
and a *run* when all its characters may stand in an identifier.

## Main definitions

* `Text.IsRun w` — `w` is a non-empty run of identifier characters.
* `Text.Trimmed t` — no blank stands at either end of `t`; `Text.Solid t` if `t` is not empty.

## Main statements

* `Text.trim_pad` — blanks around a text do not change what trimming leaves.
* `Text.afterWord?_run` — a leading word is cut off exactly when it is the whole run.
* `Text.beforeEnd?_clause`, `Text.beforeEnd?_named` — what precedes a closing clause.
-/

namespace CanonicalVhdl

/-! ## Characters -/

/-- Whether all characters of a text have a property is decided one character of the text after
the other, not for all characters there are. -/
instance (priority := 2000) Text.decidableForallMem (p : Char → Prop) [DecidablePred p] (t : Text) :
    Decidable (∀ c ∈ t, p c) :=
  List.decidableBAll p t

/-- Letters are those of the Latin alphabet. -/
theorem isAlpha_iff {c : Char} :
    c.isAlpha = true ↔ (65 ≤ c.toNat ∧ c.toNat ≤ 90) ∨ (97 ≤ c.toNat ∧ c.toNat ≤ 122) := by
  change (decide (c.val ≥ 65 ∧ c.val ≤ 90)
    || (decide (c.val ≥ 97) && decide (c.val ≤ 122))) = true ↔ _
  simp only [Bool.or_eq_true, Bool.and_eq_true, decide_eq_true_eq, UInt32.le_iff_toNat_le, ge_iff_le]
  rfl

/-- Identifier characters lie between `0` and `z`. -/
theorem toNat_of_isIdentChar {c : Char} (h : isIdentChar c = true) :
    48 ≤ c.toNat ∧ c.toNat ≤ 122 := by
  simp only [isIdentChar, Char.isAlphanum, Char.isDigit, Bool.or_eq_true, Bool.and_eq_true,
    decide_eq_true_eq, beq_iff_eq, UInt32.le_iff_toNat_le, ge_iff_le, isAlpha_iff] at h
  change (((65 ≤ c.toNat ∧ c.toNat ≤ 90) ∨ (97 ≤ c.toNat ∧ c.toNat ≤ 122))
    ∨ (48 ≤ c.toNat ∧ c.toNat ≤ 57)) ∨ c = '_' at h
  rcases h with ((h | h) | h) | rfl
  · omega
  · omega
  · omega
  · decide

theorem isBlank_eq_false_of_isIdentChar {c : Char} (h : isIdentChar c = true) :
    Text.isBlank c = false := by
  have := toNat_of_isIdentChar h
  simp only [Text.isBlank, Bool.or_eq_false_iff, Bool.and_eq_false_iff, decide_eq_false_iff_not,
    beq_eq_false_iff_ne, ne_eq]
  omega

theorem isAsciiBlank_eq_false_of_isIdentChar {c : Char} (h : isIdentChar c = true) :
    Text.isAsciiBlank c = false := by
  have hne : ∀ d, isIdentChar d = false → c ≠ d := by
    rintro d hd rfl
    rw [h] at hd
    cases hd
  simp [Text.isAsciiBlank, hne ' ' (by decide), hne '\t' (by decide), hne '\n' (by decide),
    hne '\x0c' (by decide), hne '\r' (by decide)]

/-- Folding to lower case changes the 26 capital letters only. -/
theorem toLower_eq_self_or (c : Char) : c.toLower = c ∨ ∃ n : Fin 26, c = Char.ofNat (65 + n) := by
  by_cases h : c.val ≥ 'A'.val ∧ c.val ≤ 'Z'.val
  · have hc : 65 ≤ c.toNat ∧ c.toNat ≤ 90 := by
      simp only [ge_iff_le, UInt32.le_iff_toNat_le] at h
      exact h
    refine .inr ⟨⟨c.toNat - 65, by omega⟩, ?_⟩
    rw [show 65 + (c.toNat - 65) = c.toNat by omega, Char.ofNat_toNat]
  · exact .inl (dif_neg h)

/-- Folding to upper case changes lower-case letters only. -/
theorem toUpper_eq_self_or (c : Char) : c.toUpper = c ∨ ∃ n : Fin 26, c = Char.ofNat (97 + n) := by
  by_cases h : c.val ≥ 'a'.val ∧ c.val ≤ 'z'.val
  · have hc : 97 ≤ c.toNat ∧ c.toNat ≤ 122 := by
      simp only [ge_iff_le, UInt32.le_iff_toNat_le] at h
      exact h
    refine .inr ⟨⟨c.toNat - 97, by omega⟩, ?_⟩
    rw [show 97 + (c.toNat - 97) = c.toNat by omega, Char.ofNat_toNat]
  · exact .inl (dif_neg h)

/-- Folding to lower case neither makes nor loses an identifier character. -/
theorem isIdentChar_toLower (c : Char) : isIdentChar c.toLower = isIdentChar c := by
  have key : ∀ n : Fin 26, isIdentChar (Char.ofNat (65 + n)).toLower
      = isIdentChar (Char.ofNat (65 + n)) := by decide
  rcases toLower_eq_self_or c with h | ⟨n, rfl⟩
  · rw [h]
  · exact key n

theorem isAlpha_toLower (c : Char) : c.toLower.isAlpha = c.isAlpha := by
  have key : ∀ n : Fin 26, (Char.ofNat (65 + n)).toLower.isAlpha
      = (Char.ofNat (65 + n)).isAlpha := by decide
  rcases toLower_eq_self_or c with h | ⟨n, rfl⟩
  · rw [h]
  · exact key n

theorem isDigit_eq_false_of_isAlpha {c : Char} (h : c.isAlpha = true) : c.isDigit = false := by
  rw [isAlpha_iff] at h
  simp only [Char.isDigit, Bool.and_eq_false_iff, decide_eq_false_iff_not, UInt32.le_iff_toNat_le,
    ge_iff_le]
  change ¬48 ≤ c.toNat ∨ ¬c.toNat ≤ 57
  omega

theorem isIdentChar_of_isAlpha {c : Char} (h : c.isAlpha = true) : isIdentChar c = true := by
  simp [isIdentChar, Char.isAlphanum, h]

theorem isIdentChar_of_isDigit {c : Char} (h : c.isDigit = true) : isIdentChar c = true := by
  simp [isIdentChar, Char.isAlphanum, h]

namespace Text

/-! ## Bytes -/

private theorem foldl_utf8Size (n : Nat) (t : Text) :
    t.foldl (fun n c => n + c.utf8Size) n = n + byteLength t := by
  induction t generalizing n with
  | nil => simp [byteLength]
  | cons c t ih => simp only [byteLength, List.foldl_cons]; rw [ih, ih (0 + _)]; omega

@[simp] theorem byteLength_nil : byteLength [] = 0 := rfl

@[simp] theorem byteLength_cons (c : Char) (t : Text) :
    byteLength (c :: t) = c.utf8Size + byteLength t := by
  simp only [byteLength, List.foldl_cons]; rw [foldl_utf8Size]; simp [byteLength]

@[simp] theorem byteLength_append (s t : Text) :
    byteLength (s ++ t) = byteLength s + byteLength t := by
  induction s with
  | nil => simp
  | cons c s ih => simp [ih, Nat.add_assoc]

theorem byteLength_le_of_isInfix {s t : Text} (h : s <:+: t) : byteLength s ≤ byteLength t := by
  obtain ⟨a, b, rfl⟩ := h
  simp only [byteLength_append]; omega

/-- A part of a text that fits fits as well. -/
theorem fits_of_isInfix {limit : Nat} {s t : Text} (ht : fits limit t = true) (h : s <:+: t) :
    fits limit s = true := by
  have := byteLength_le_of_isInfix h
  simp only [fits, decide_eq_true_eq] at ht ⊢
  omega

theorem dropBytes_append (s t : Text) : dropBytes (byteLength s) (s ++ t) = t := by
  induction s with
  | nil => simp [dropBytes]
  | cons c s ih =>
    have hc : 0 < c.utf8Size := c.utf8Size_pos
    obtain ⟨n, hn⟩ : ∃ n, byteLength (c :: s) = n + 1 := ⟨c.utf8Size + byteLength s - 1, by
      rw [byteLength_cons]; omega⟩
    rw [hn, List.cons_append, dropBytes, ← hn, byteLength_cons, Nat.add_sub_cancel_left, ih]

theorem positionFrom_append (s t : Text) (i : Nat) :
    positionFrom i (byteLength s) (s ++ t) = some (i + s.length) := by
  induction s generalizing i with
  | nil => cases t <;> rfl
  | cons c s ih =>
    obtain ⟨n, hn⟩ := Nat.exists_eq_add_of_lt c.utf8Size_pos
    have hsize : c.utf8Size + byteLength s = (n + byteLength s) + 1 := by omega
    have hle : c.utf8Size ≤ n + byteLength s + 1 := by omega
    have hrest : n + byteLength s + 1 - c.utf8Size = byteLength s := by omega
    rw [byteLength_cons, hsize, List.cons_append, positionFrom, if_pos hle, hrest, ih,
      List.length_cons]
    congr 1
    omega

theorem position?_append (s t : Text) : position? (byteLength s) (s ++ t) = some s.length := by
  rw [position?, positionFrom_append, Nat.zero_add]

/-! ## Trimming -/

/-- What is left of a text without the characters at its head that pass a test. -/
theorem any_head?_dropWhile (p : Char → Bool) (t : Text) : (t.dropWhile p).head?.any p = false := by
  have hhead := List.head?_dropWhile_not p t
  cases h : t.dropWhile p with
  | nil => rfl
  | cons c u =>
    rw [h, List.head?_cons] at hhead
    exact hhead

theorem trimStart_append {g : Text} (hg : g.all isBlank = true) (t : Text) :
    trimStart (g ++ t) = trimStart t :=
  List.dropWhile_append_of_pos (List.all_eq_true.1 hg)

theorem trimEnd_append {g : Text} (hg : g.all isBlank = true) (t : Text) :
    trimEnd (t ++ g) = trimEnd t := by
  rw [trimEnd, List.reverse_append, List.dropWhile_append_of_pos (by simpa using hg), trimEnd]

/-- Only the head of a text decides whether trimming its start changes it. -/
theorem trimStart_eq_self {t : Text} (h : t.head?.any isBlank = false) : trimStart t = t := by
  cases t with
  | nil => rfl
  | cons c t =>
    simp only [List.head?_cons, Option.any_some] at h
    simp only [trimStart, List.dropWhile_cons, h, Bool.false_eq_true, if_false]

theorem trimStart_blank {t : Text} (h : t.head?.any isBlank = false) : trimStart (' ' :: t) = t :=
  (trimStart_append (g := [' ']) rfl t).trans (trimStart_eq_self h)

theorem trimEnd_eq_self {t : Text} (h : t.getLast?.any isBlank = false) : trimEnd t = t := by
  have := trimStart_eq_self (t := t.reverse) (by simpa using h)
  rw [trimEnd, ← trimStart, this, List.reverse_reverse]

/-- No blank stands at either end. -/
structure Trimmed (t : Text) : Prop where
  /-- The text does not start with a blank. -/
  head : t.head?.any isBlank = false
  /-- The text does not end with a blank. -/
  last : t.getLast?.any isBlank = false

theorem trim_eq_self {t : Text} (h : Trimmed t) : trim t = t := by
  rw [trim, trimStart_eq_self h.head, trimEnd_eq_self h.last]

theorem trimmed_nil : Trimmed [] := ⟨rfl, rfl⟩

/-- A text that starts and ends with trimmed parts is trimmed. -/
theorem Trimmed.append {s t : Text} (hs : Trimmed s) (ht : Trimmed t) : Trimmed (s ++ t) := by
  constructor
  · cases s with
    | nil => exact ht.head
    | cons c s => simpa using hs.head
  · rw [List.getLast?_append]
    cases h : t.getLast? with
    | none => simpa [h] using hs.last
    | some c => simpa [h] using ht.last

/-- A text that is not empty and has no blank at either end. -/
structure Solid (t : Text) : Prop extends Trimmed t where
  /-- There is a character. -/
  ne_nil : t ≠ []

theorem Solid.head_append {t : Text} (h : Solid t) (u : Text) : (t ++ u).head?.any isBlank = false := by
  rw [List.head?_append_of_ne_nil _ h.ne_nil]
  exact h.head

/-- Only the ends of a text decide whether it is solid. -/
theorem Solid.between {s t : Text} (hs : Solid s) (ht : Solid t) (m : Text) :
    Solid (s ++ (m ++ t)) := by
  refine ⟨⟨?_, ?_⟩, by simp [hs.ne_nil]⟩
  · exact hs.head_append _
  · rw [List.getLast?_append_of_ne_nil _ (by simp [ht.ne_nil]),
      List.getLast?_append_of_ne_nil _ ht.ne_nil]
    exact ht.last

theorem solid_of_forall {t : Text} (hne : t ≠ []) (h : ∀ c ∈ t, isBlank c = false) : Solid t := by
  have key : ∀ o : Option Char, (∀ c ∈ o, c ∈ t) → o.any isBlank = false := by
    intro o ho
    cases o with
    | none => rfl
    | some c => exact h c (ho c rfl)
  exact ⟨⟨key _ fun c hc => List.mem_of_mem_head? hc, key _ fun c hc => List.mem_of_getLast? hc⟩, hne⟩

theorem solid_singleton {c : Char} (h : isBlank c = false) : Solid [c] :=
  solid_of_forall (by simp) (by simpa using h)

/-- What trimming the end of a text takes off. -/
theorem exists_pad_trimEnd (t : Text) : ∃ g, g.all isBlank = true ∧ t = trimEnd t ++ g := by
  refine ⟨(t.reverse.takeWhile isBlank).reverse, ?_, ?_⟩
  · rw [List.all_reverse]
    exact List.all_takeWhile
  · rw [trimEnd, ← List.reverse_append, List.takeWhile_append_dropWhile, List.reverse_reverse]

/-- A text is what trimming leaves with blanks around it. -/
theorem exists_pad_trim (t : Text) :
    ∃ g g', g.all isBlank = true ∧ g'.all isBlank = true ∧ t = g ++ trim t ++ g' := by
  obtain ⟨g', hg', ht⟩ := exists_pad_trimEnd (trimStart t)
  refine ⟨t.takeWhile isBlank, g', List.all_takeWhile, hg', ?_⟩
  rw [trim, List.append_assoc, ← ht, trimStart, List.takeWhile_append_dropWhile]

theorem getLast?_trimEnd (t : Text) : (trimEnd t).getLast?.any isBlank = false := by
  rw [trimEnd, List.getLast?_reverse]
  exact any_head?_dropWhile isBlank t.reverse

theorem trimmed_trim (t : Text) : Trimmed (trim t) := by
  have hstart : (trimStart t).head?.any isBlank = false := any_head?_dropWhile isBlank t
  constructor
  · -- The first character left is that of the text with its start trimmed.
    rw [trim, trimEnd]
    have hpre : ((trimStart t).reverse.dropWhile isBlank).reverse <+: trimStart t := by
      rw [← List.reverse_suffix, List.reverse_reverse]; exact List.dropWhile_suffix _
    obtain ⟨u, hu⟩ := hpre
    cases h : ((trimStart t).reverse.dropWhile isBlank).reverse with
    | nil => rfl
    | cons c v => rw [← hu, h] at hstart; simpa using hstart
  · exact getLast?_trimEnd (trimStart t)

theorem trim_pad_trimmed {g t g' : Text} (hg : g.all isBlank = true) (ht : Trimmed t)
    (hg' : g'.all isBlank = true) : trim (g ++ t ++ g') = t := by
  rw [trim, List.append_assoc, trimStart_append hg]
  cases t with
  | nil =>
    have : trimStart g' = [] := by simpa [trimStart] using trimStart_append hg' []
    rw [List.nil_append, this]; rfl
  | cons c t =>
    have hc := ht.head
    simp only [List.head?_cons, Option.any_some] at hc
    rw [trimStart_eq_self (by simpa using hc), trimEnd_append hg', trimEnd_eq_self ht.last]

/-- Blanks around a text do not change what trimming leaves. -/
theorem trim_pad {g g' : Text} (hg : g.all isBlank = true) (hg' : g'.all isBlank = true)
    (t : Text) : trim (g ++ t ++ g') = trim t := by
  obtain ⟨a, b, ha, hb, ht⟩ := exists_pad_trim t
  have hm := trimmed_trim t
  generalize trim t = m at ht hm ⊢
  subst ht
  have := @trim_pad_trimmed (g ++ a) m (b ++ g') (by simp [hg, ha]) hm (by simp [hg', hb])
  simpa only [List.append_assoc] using this

/-! ## Words at the start -/

/-- A non-empty run of identifier characters. -/
structure IsRun (w : Text) : Prop where
  /-- There is a character. -/
  ne_nil : w ≠ []
  /-- Every character may stand in an identifier. -/
  ident : w.all isIdentChar = true

instance (w : Text) : Decidable (IsRun w) :=
  decidable_of_iff (w ≠ [] ∧ w.all isIdentChar = true) ⟨fun h => ⟨h.1, h.2⟩, fun h => ⟨h.1, h.2⟩⟩

theorem fold_length (t : Text) : (fold t).length = t.length := List.length_map _

theorem all_isIdentChar_fold (t : Text) : (fold t).all isIdentChar = t.all isIdentChar := by
  simp only [fold, List.all_map]
  exact congrArg t.all (funext isIdentChar_toLower)

theorem sameWord_iff {s t : Text} : sameWord s t = true ↔ fold s = fold t := by
  simp [sameWord]

theorem sameWord_self (t : Text) : sameWord t t = true := sameWord_iff.2 rfl

theorem sameWord_comm (s t : Text) : sameWord s t = sameWord t s := by
  rw [Bool.eq_iff_iff, sameWord_iff, sameWord_iff]
  exact eq_comm

theorem length_eq_of_sameWord {s t : Text} (h : sameWord s t = true) : s.length = t.length := by
  rw [← fold_length s, sameWord_iff.1 h, fold_length]

/-- A run has no blanks at its ends. -/
theorem IsRun.solid {w : Text} (h : IsRun w) : Solid w :=
  solid_of_forall h.ne_nil fun c hc =>
    isBlank_eq_false_of_isIdentChar (List.all_eq_true.1 h.ident c hc)

theorem IsRun.trimmed {w : Text} (h : IsRun w) : Trimmed w := h.solid.toTrimmed

theorem IsRun.reverse {w : Text} (h : IsRun w) : IsRun w.reverse :=
  ⟨by simpa using h.ne_nil, by simpa using h.ident⟩

/-- What `dropWord?` drops is the word, up to case. -/
theorem dropWord?_eq_some_iff {w t r : Text} :
    dropWord? w t = some r ↔ ∃ x, t = x ++ r ∧ sameWord w x = true := by
  induction w generalizing t with
  | nil =>
    simp only [dropWord?, Option.some.injEq, sameWord_iff]
    constructor
    · rintro rfl; exact ⟨[], rfl, rfl⟩
    · rintro ⟨x, rfl, hx⟩
      have : x = [] := by simpa [fold] using hx.symm
      simp [this]
  | cons c w ih =>
    cases t with
    | nil => simp [dropWord?, sameWord_iff, fold]
    | cons d t =>
      simp only [dropWord?]
      by_cases h : c.toLower = d.toLower
      · simp only [h, BEq.rfl, if_true, ih]
        constructor
        · rintro ⟨x, rfl, hx⟩
          exact ⟨d :: x, rfl, by simpa [sameWord_iff, fold, h] using hx⟩
        · rintro ⟨x, ht, hx⟩
          cases x with
          | nil => simp [sameWord_iff, fold] at hx
          | cons e x =>
            obtain ⟨rfl, rfl⟩ := List.cons_eq_cons.1 ht
            exact ⟨x, rfl, by simpa [sameWord_iff, fold, h] using hx⟩
      · simp only [beq_iff_eq, h, if_false, reduceCtorEq, false_iff, not_exists, not_and]
        rintro x ht hx
        cases x with
        | nil => simp [sameWord_iff, fold] at hx
        | cons e x =>
          obtain ⟨rfl, rfl⟩ := List.cons_eq_cons.1 ht
          simp [sameWord_iff, fold, h] at hx

/-- Two beginnings made of identifier characters, each followed by none, are equal. -/
theorem run_unique {x y u v : Text} (h : x ++ u = y ++ v) (hx : x.all isIdentChar = true)
    (hy : y.all isIdentChar = true) (hu : u.head?.any isIdentChar = false)
    (hv : v.head?.any isIdentChar = false) : x = y ∧ u = v := by
  have key : ∀ {a b : Text}, a.all isIdentChar = true → b.head?.any isIdentChar = false →
      (a ++ b).takeWhile isIdentChar = a := by
    intro a b ha hb
    rw [List.takeWhile_append_of_pos (List.all_eq_true.1 ha)]
    cases b with
    | nil => simp
    | cons c b =>
      simp only [List.head?_cons, Option.any_some] at hb
      simp [hb]
  have hxy : x = y := by rw [← key hx hu, h, key hy hv]
  subst hxy
  exact ⟨rfl, List.append_cancel_left h⟩

/-- A whole word at the head of a text is the run that stands there. -/
theorem wholeWord?_run {w x u : Text} {before : Option Char} (hw : IsRun w) (hx : IsRun x)
    (hu : u.head?.any isIdentChar = false) (hb : before.any isIdentChar = false) :
    wholeWord? true w before (x ++ u) = if sameWord w x then some u else none := by
  have hne : w.isEmpty = false := by simpa using hw.ne_nil
  simp only [wholeWord?, hne, hb, Bool.or_false, Bool.false_eq_true, if_false, dropWordWith, if_true]
  by_cases h : sameWord w x = true
  · rw [dropWord?_eq_some_iff.2 ⟨x, rfl, h⟩]
    simp [hu, h]
  · cases hd : dropWord? w (x ++ u) with
    | none => simp [h]
    | some r =>
      obtain ⟨y, hy, hwy⟩ := dropWord?_eq_some_iff.1 hd
      by_cases hr : r.head?.any isIdentChar = true
      · simp [hr, h]
      · -- Then the dropped text and `x` are the same run.
        have hyi : y.all isIdentChar = true := by
          rw [← all_isIdentChar_fold, ← sameWord_iff.1 hwy, all_isIdentChar_fold]; exact hw.ident
        obtain ⟨rfl, rfl⟩ := run_unique hy hx.ident hyi hu (by simpa using hr)
        exact absurd hwy h

/-- A leading word is cut off exactly when it is the whole run at the head. -/
theorem afterWord?_run {w g x u : Text} (hg : g.all isBlank = true) (hw : IsRun w) (hx : IsRun x)
    (hu : u.head?.any isIdentChar = false) :
    afterWord? w (g ++ x ++ u) = if sameWord w x then some (trimStart u) else none := by
  have hhead : (x ++ u).head?.any isBlank = false := by
    cases x with
    | nil => exact absurd rfl hx.ne_nil
    | cons c x => simpa using hx.trimmed.head
  rw [afterWord?, List.append_assoc, trimStart_append hg, trimStart_eq_self hhead,
    wholeWord?_run hw hx hu rfl]
  split <;> rfl

/-- Blanks before a leading word are passed over. -/
theorem afterWord?_pad {g : Text} (hg : g.all isBlank = true) (w t : Text) :
    afterWord? w (g ++ t) = afterWord? w t := by
  rw [afterWord?, trimStart_append hg, afterWord?]

/-- A word that starts a text is found there, in either case. -/
theorem afterWord?_first {w x u : Text} (hw : IsRun w) (hx : IsRun x)
    (hu : u.head?.any isIdentChar = false) :
    afterWord? w (x ++ u) = if sameWord w x then some (trimStart u) else none := by
  have := afterWord?_run (g := []) rfl hw hx hu
  rwa [List.nil_append] at this

/-- A run of identifier characters ends where a test fails that all of them pass. -/
theorem IsRun.span {w u : Text} (hw : IsRun w) {p : Char → Bool}
    (hp : ∀ c, isIdentChar c = true → p c = true) (hu : u.head?.any p = false) :
    (w ++ u).takeWhile p = w ∧ (w ++ u).dropWhile p = u := by
  have hall : ∀ c ∈ w, p c = true := fun c hc => hp c (List.all_eq_true.1 hw.ident c hc)
  rw [List.takeWhile_append_of_pos hall, List.dropWhile_append_of_pos hall]
  cases u with
  | nil => exact ⟨List.append_nil w, rfl⟩
  | cons c u =>
    have hc : p c = false := hu
    rw [List.takeWhile_cons_of_neg (by simp [hc]), List.dropWhile_cons_of_neg (by simp [hc]),
      List.append_nil]
    exact ⟨rfl, rfl⟩

theorem startsWith_run {w g x u : Text} (hg : g.all isBlank = true) (hw : IsRun w) (hx : IsRun x)
    (hu : u.head?.any isIdentChar = false) : startsWith w (g ++ x ++ u) = sameWord w x := by
  rw [startsWith, afterWord?_run hg hw hx hu]
  by_cases h : sameWord w x = true <;> simp [h]

/-- A leading word and the blank after it are cut off. -/
theorem afterWord?_blank {w u : Text} (hw : IsRun w) (hu : u.head?.any isBlank = false) :
    afterWord? w (w ++ ' ' :: u) = some u := by
  have h := afterWord?_run (g := []) (u := ' ' :: u) rfl hw hw (by rfl)
  rw [List.nil_append, sameWord_self, if_pos rfl] at h
  rw [h, trimStart_blank hu]

/-- A word is not found inside another one. -/
theorem wordAfter?_ident {w v : Text} (hv : v.all isIdentChar = true) {c d : Char}
    (hc : isIdentChar c = true) (position : Nat) (u : Text) :
    wordAfter? true w position (some c) (v ++ d :: u)
      = wordAfter? true w (position + v.length + 1) (some d) u := by
  have hnone : ∀ {c : Char} (t : Text), isIdentChar c = true → wholeWord? true w (some c) t = none := by
    intro c t hc
    simp [wholeWord?, hc]
  induction v generalizing c position with
  | nil =>
    rw [List.nil_append, wordAfter?, hnone _ hc]
    rfl
  | cons e v ih =>
    obtain ⟨he, hv⟩ := Bool.and_eq_true_iff.1 hv
    rw [List.cons_append, wordAfter?, hnone _ hc, ih hv he, List.length_cons]
    simp only [Option.isSome_none, Bool.false_eq_true, if_false]
    congr 1
    omega

/-- A text is cut at a word behind another one. -/
theorem splitAtWord?_behind {w x u : Text} (hw : IsRun w) (hx : IsRun x) (hne : sameWord w x = false)
    (hu : u.head?.any isIdentChar = false) :
    splitAtWord? w (x ++ ' ' :: (w ++ u)) = some (x ++ [' '], u) := by
  have hfound : wordAfter? true w (x.length + 1) (some ' ') (w ++ u) = some (x.length + 1) := by
    have hword := wholeWord?_run hw hw hu (show (some ' ').any isIdentChar = false from rfl)
    rw [sameWord_self, if_pos rfl] at hword
    obtain ⟨c, v, rfl⟩ := List.exists_cons_of_ne_nil hw.ne_nil
    rw [List.cons_append] at hword ⊢
    rw [wordAfter?, hword]
    rfl
  have hword : word? true w (x ++ ' ' :: (w ++ u)) = some (x.length + 1) := by
    have hnone := wholeWord?_run hw hx (u := ' ' :: (w ++ u)) rfl (show none.any isIdentChar = false from rfl)
    rw [hne] at hnone
    obtain ⟨c, v, rfl⟩ := List.exists_cons_of_ne_nil hx.ne_nil
    obtain ⟨hc, hv⟩ := Bool.and_eq_true_iff.1 hx.ident
    have hlength : 0 + 1 + v.length + 1 = (c :: v).length + 1 := by
      rw [List.length_cons]
      omega
    rw [List.cons_append] at hnone ⊢
    rw [word?, wordFrom?, List.take_zero, List.drop_zero, List.getLast?_nil, wordAfter?, hnone,
      wordAfter?_ident hv hc, hlength, hfound]
    rfl
  have hsplit : x ++ ' ' :: (w ++ u) = (x ++ [' ']) ++ (w ++ u) := by simp
  rw [splitAtWord?, hword, Option.map_some, hsplit, List.take_left' (by simp), ← List.append_assoc,
    List.drop_left' (by simp; omega)]

theorem dropFinal?_append (c : Char) (t : Text) : dropFinal? c (t ++ [c]) = some t := by
  simp [dropFinal?]

theorem eq_of_dropFinal? {c : Char} {t r : Text} (h : dropFinal? c t = some r) : t = r ++ [c] := by
  obtain ⟨hlast, h⟩ := Option.ite_none_right_eq_some.1 h
  obtain ⟨s, rfl⟩ := List.getLast?_eq_some_iff.1 (beq_iff_eq.1 hlast)
  rw [← Option.some.inj h, List.dropLast_concat]

/-! ## Words at the end -/

/-- A trailing run after a character that belongs to no identifier is cut off, with
the blanks before it. -/
theorem beforeWord?_run {w x : Text} (hw : IsRun w) (hx : x.getLast?.any isIdentChar = false) :
    beforeWord? w (x ++ w) = some (trimEnd x) := by
  have hlast : w.reverse.head?.any isBlank = false := by simpa using hw.trimmed.last
  have hdrop : (x ++ w).reverse.dropWhile isBlank = w.reverse ++ x.reverse := by
    rw [List.reverse_append, ← trimStart, trimStart_eq_self]
    cases h : w.reverse with
    | nil => exact absurd (by simpa using h) hw.ne_nil
    | cons c r => rw [h] at hlast; simpa using hlast
  rw [beforeWord?, hdrop, wholeWord?_run hw.reverse hw.reverse (by simpa using hx) rfl,
    sameWord_self, if_pos rfl]
  rfl

/-- Blanks at the end belong to no identifier. -/
theorem getLast?_gap {g : Text} (hg : g.all isBlank = true) (hne : g ≠ []) (x : Text) :
    (x ++ g).getLast?.any isIdentChar = false := by
  rw [List.getLast?_append_of_ne_nil _ hne]
  cases h : g.getLast? with
  | none => rfl
  | some c =>
    have hc := List.all_eq_true.1 hg c (List.mem_of_getLast? h)
    cases hi : isIdentChar c with
    | false => simpa using hi
    | true => rw [isBlank_eq_false_of_isIdentChar hi] at hc; cases hc

/-- The same with blanks between the word and what precedes it. -/
theorem beforeWord?_gap {w x g : Text} (hw : IsRun w) (hg : g.all isBlank = true) (hne : g ≠ []) :
    beforeWord? w (x ++ g ++ w) = some (trimEnd x) := by
  rw [beforeWord?_run hw (getLast?_gap hg hne x), trimEnd_append hg]

private theorem isRun_end : IsRun "end".toList := ⟨by decide, by decide⟩

/-- What precedes the closing clause of a construct without a name. -/
theorem beforeEnd?_clause {x g k : Text} (hk : IsRun k) (hg : g.all isBlank = true)
    (hne : g ≠ []) :
    beforeEnd? [k] true none (x ++ g ++ "end ".toList ++ k ++ [';']) = some (trimEnd x) := by
  have hfinal : ∀ t : Text, trimEnd (t ++ [';']) = t ++ [';'] := fun t =>
    trimEnd_eq_self (by simp; decide)
  have hdrop : ∀ t : Text, dropFinal? ';' (t ++ [';']) = some t := by
    intro t; simp [dropFinal?]
  have hclosed : trimEnd (x ++ g ++ "end ".toList ++ k) = x ++ g ++ "end".toList ++ [' '] ++ k := by
    rw [trimEnd_eq_self]
    · simp
    · rw [List.getLast?_append_of_ne_nil _ hk.ne_nil]; exact hk.trimmed.last
  simp only [beforeEnd?, hfinal, hdrop, Option.bind_eq_bind, Option.bind_some, hclosed,
    Option.bind_none, Option.getD_none, beforeWords?, List.reverse_cons, List.reverse_nil,
    List.nil_append, List.foldlM_cons, List.foldlM_nil]
  rw [beforeWord?_gap hk (by decide) (by simp)]
  have : trimEnd (x ++ g ++ "end".toList) = x ++ g ++ "end".toList :=
    trimEnd_eq_self (by rw [List.getLast?_append_of_ne_nil _ (by decide)]; decide)
  simp only [Option.bind_some, Option.pure_def, this]
  exact beforeWord?_gap isRun_end hg hne

/-- What precedes the closing clause of a construct that repeats its name. -/
theorem beforeEnd?_named {required : Bool} {x k n : Text} (hk : IsRun k) (hn : IsRun n)
    (hx : x.getLast?.any isIdentChar = false) :
    beforeEnd? [k] required (some n) (x ++ ("end".toList ++ ' ' :: (k ++ ' ' :: (n ++ [';']))))
      = some (trimEnd x) := by
  have hsplit : x ++ ("end".toList ++ ' ' :: (k ++ ' ' :: (n ++ [';'])))
      = x ++ "end".toList ++ [' '] ++ k ++ [' '] ++ n ++ [';'] := by
    simp only [List.append_assoc, List.cons_append, List.nil_append]
  have hfinal : ∀ t : Text, trimEnd (t ++ [';']) = t ++ [';'] := fun t =>
    trimEnd_eq_self (by simp; decide)
  have hclosed : ∀ {t w : Text}, IsRun w → trimEnd (t ++ w) = t ++ w := fun hw =>
    trimEnd_eq_self (by rw [List.getLast?_append_of_ne_nil _ hw.ne_nil]; exact hw.trimmed.last)
  rw [hsplit]
  simp only [beforeEnd?, hfinal, dropFinal?_append, Option.bind_eq_bind, Option.bind_some, hclosed hn]
  rw [beforeWord?_gap hn (by decide) (by simp), hclosed hk]
  simp only [Option.getD_some, beforeWords?, List.reverse_cons, List.reverse_nil, List.nil_append,
    List.foldlM_cons, List.foldlM_nil]
  rw [beforeWord?_gap hk (by decide) (by simp), hclosed isRun_end]
  simp only [Option.bind_eq_bind, Option.bind_some, Option.pure_def]
  exact beforeWord?_run isRun_end hx

/-! ## Cutting at a character -/

theorem splitOnce_append {c : Char} {s : Text} (h : c ∉ s) (t : Text) :
    splitOnce c (s ++ c :: t) = some (s, t) := by
  have hne : ∀ d ∈ s, (d != c) = true := fun d hd => by
    rw [bne_iff_ne]; rintro rfl; exact h hd
  rw [splitOnce, List.dropWhile_append_of_pos hne, List.takeWhile_append_of_pos hne]
  simp

theorem splitOnce_eq_none {c : Char} {t : Text} (h : c ∉ t) : splitOnce c t = none := by
  have hne : ∀ d ∈ t, (d != c) = true := fun d hd => by
    rw [bne_iff_ne]; rintro rfl; exact h hd
  have hd : t.dropWhile (· != c) = [] := by
    have := @List.dropWhile_append_of_pos _ (· != c) t [] hne
    simpa using this
  rw [splitOnce, hd]

/-- The parts before and after the first occurrence of a character. -/
theorem eq_of_splitOnce {c : Char} {t a b : Text} (h : splitOnce c t = some (a, b)) :
    t = a ++ c :: b ∧ a = t.takeWhile (· != c) := by
  simp only [splitOnce] at h
  split at h
  · cases h
  · rename_i d after hd
    obtain ⟨rfl, rfl⟩ := Prod.mk.inj (Option.some.inj h)
    have hdc : d = c := by
      have := List.head?_dropWhile_not (· != c) t
      rw [hd] at this
      simpa using this
    refine ⟨?_, rfl⟩
    rw [← hdc, ← hd, hdc, List.takeWhile_append_dropWhile]

theorem exists_splitOnce {c : Char} {t : Text} (h : c ∈ t) :
    ∃ a b, splitOnce c t = some (a, b) := by
  cases hd : t.dropWhile (· != c) with
  | nil =>
    rw [← List.takeWhile_append_dropWhile (p := (· != c)) (l := t), hd, List.append_nil] at h
    exact absurd (List.all_eq_true.1 List.all_takeWhile c h) (by simp)
  | cons d b => exact ⟨_, b, by rw [splitOnce, hd]⟩

/-- The characters of a run are not punctuation. -/
theorem IsRun.not_mem {w : Text} (h : IsRun w) {c : Char} (hc : isIdentChar c = false) : c ∉ w := by
  intro hm
  rw [List.all_eq_true.1 h.ident c hm] at hc
  cases hc

end Text
end CanonicalVhdl
