import CanonicalVhdl.Proofs.Text.Ends
import CanonicalVhdl.Proofs.Text.Lists

/-!
# Texts up to case

What trimming, cutting and the search for words make of a text in lower case.  A function
that takes apart a text commutes with folding it: on the folded text it returns the folded
parts, and the same positions.

## Main statements

* `toLower_eq_iff` — folding neither makes nor loses a character that is no letter.
* `Text.afterWord?_fold`, `Text.beforeEnd?_fold` — words at the ends are found in either case.
* `mapM_map_of_comm` — readers that commute with folding, over a list.
-/

namespace CanonicalVhdl

/-! ## Characters -/

theorem toLower_eq_iff {c k : Char} (hk : k.isAlpha = false) : c.toLower = k ↔ c = k := by
  have halpha : ∀ n : Fin 26, (Char.ofNat (65 + n)).isAlpha = true := by decide
  rcases toLower_eq_self_or c with h | ⟨n, rfl⟩
  · rw [h]
  · constructor
    · rintro rfl
      rw [isAlpha_toLower, halpha n] at hk
      cases hk
    · rintro rfl
      rw [halpha n] at hk
      cases hk

/-- A test that tells no capital letter from the small one holds up to case. -/
theorem test_toLower {α : Type} (test : Char → α)
    (h : ∀ n : Fin 26, test (Char.ofNat (65 + n)).toLower = test (Char.ofNat (65 + n))) (c : Char) :
    test c.toLower = test c := by
  rcases toLower_eq_self_or c with hc | ⟨n, rfl⟩
  · rw [hc]
  · exact h n

@[simp] theorem toLower_toLower (c : Char) : c.toLower.toLower = c.toLower :=
  test_toLower Char.toLower (by decide) c

@[simp] theorem toUpper_toLower (c : Char) : c.toLower.toUpper = c.toUpper :=
  test_toLower Char.toUpper (by decide) c

@[simp] theorem isDigit_toLower (c : Char) : c.toLower.isDigit = c.isDigit :=
  test_toLower Char.isDigit (by decide) c

@[simp] theorem isBlank_toLower (c : Char) : Text.isBlank c.toLower = Text.isBlank c :=
  test_toLower Text.isBlank (by decide) c

@[simp] theorem isAsciiBlank_toLower (c : Char) :
    Text.isAsciiBlank c.toLower = Text.isAsciiBlank c :=
  test_toLower Text.isAsciiBlank (by decide) c

@[simp] theorem isSeparator_toLower (c : Char) : Text.isSeparator c.toLower = Text.isSeparator c :=
  test_toLower Text.isSeparator (by decide) c

@[simp] theorem utf8Size_toLower (c : Char) : c.toLower.utf8Size = c.utf8Size :=
  test_toLower Char.utf8Size (by decide) c

@[simp] theorem isAscii_toLower (c : Char) :
    decide (c.toLower.toNat < 128) = decide (c.toNat < 128) :=
  test_toLower (fun c => decide (c.toNat < 128)) (by decide) c

attribute [simp] isIdentChar_toLower isAlpha_toLower

theorem beq_toLower {k : Char} (hk : k.isAlpha = false) (c : Char) :
    (c.toLower == k) = (c == k) := by
  rw [Bool.eq_iff_iff, beq_iff_eq, beq_iff_eq, toLower_eq_iff hk]

theorem bne_toLower {k : Char} (hk : k.isAlpha = false) (c : Char) :
    (c.toLower != k) = (c != k) := by
  rw [bne, bne, beq_toLower hk]

@[simp] theorem any_isIdentChar_toLower (before : Option Char) :
    (before.map Char.toLower).any isIdentChar = before.any isIdentChar := by
  cases before <;> simp

namespace Text

/-! ## Parts of a folded text -/

@[simp] theorem fold_nil : fold [] = [] := rfl

@[simp] theorem fold_cons (c : Char) (t : Text) : fold (c :: t) = c.toLower :: fold t := rfl

@[simp] theorem fold_append (s t : Text) : fold (s ++ t) = fold s ++ fold t := List.map_append

@[simp] theorem fold_fold (t : Text) : fold (fold t) = fold t := by
  simp [fold]

@[simp] theorem length_fold (t : Text) : (fold t).length = t.length := List.length_map _

@[simp] theorem take_fold (n : Nat) (t : Text) : (fold t).take n = fold (t.take n) :=
  List.map_take.symm

@[simp] theorem drop_fold (n : Nat) (t : Text) : (fold t).drop n = fold (t.drop n) :=
  List.map_drop.symm

@[simp] theorem reverse_fold (t : Text) : (fold t).reverse = fold t.reverse :=
  List.map_reverse.symm

@[simp] theorem isEmpty_fold (t : Text) : (fold t).isEmpty = t.isEmpty := List.isEmpty_map

@[simp] theorem head?_fold (t : Text) : (fold t).head? = t.head?.map Char.toLower :=
  List.head?_map

@[simp] theorem getLast?_fold (t : Text) : (fold t).getLast? = t.getLast?.map Char.toLower :=
  List.getLast?_map

@[simp] theorem dropLast_fold (t : Text) : (fold t).dropLast = fold t.dropLast :=
  List.map_dropLast.symm

theorem takeWhile_fold {p : Char → Bool} (hp : ∀ c, p c.toLower = p c) (t : Text) :
    (fold t).takeWhile p = fold (t.takeWhile p) := by
  rw [fold, List.takeWhile_map]
  exact congrArg fold (congrArg (List.takeWhile · t) (funext hp))

theorem dropWhile_fold {p : Char → Bool} (hp : ∀ c, p c.toLower = p c) (t : Text) :
    (fold t).dropWhile p = fold (t.dropWhile p) := by
  rw [fold, List.dropWhile_map]
  exact congrArg fold (congrArg (List.dropWhile · t) (funext hp))

theorem takeWhile_bne_fold {k : Char} (hk : k.isAlpha = false) (t : Text) :
    (fold t).takeWhile (· != k) = fold (t.takeWhile (· != k)) :=
  takeWhile_fold (bne_toLower hk) t

theorem dropWhile_bne_fold {k : Char} (hk : k.isAlpha = false) (t : Text) :
    (fold t).dropWhile (· != k) = fold (t.dropWhile (· != k)) :=
  dropWhile_fold (bne_toLower hk) t

theorem all_fold {p : Char → Bool} (hp : ∀ c, p c.toLower = p c) (t : Text) :
    (fold t).all p = t.all p := by
  rw [fold, List.all_map]
  exact congrArg t.all (funext hp)

theorem contains_fold {k : Char} (hk : k.isAlpha = false) (t : Text) :
    (fold t).contains k = t.contains k := by
  induction t with
  | nil => rfl
  | cons c t ih => rw [fold_cons, List.contains_cons, List.contains_cons, ih,
      BEq.comm, beq_toLower hk, BEq.comm]

/-- A character that is no letter stands first in both cases. -/
theorem head?_beq_fold {k : Char} (hk : k.isAlpha = false) (t : Text) :
    ((fold t).head? == some k) = (t.head? == some k) := by
  cases t with
  | nil => rfl
  | cons c t => simpa using beq_toLower hk c

theorem getLast?_beq_fold {k : Char} (hk : k.isAlpha = false) (t : Text) :
    ((fold t).getLast? == some k) = (t.getLast? == some k) := by
  have := head?_beq_fold hk t.reverse
  rwa [← reverse_fold, List.head?_reverse, List.head?_reverse] at this

/-- A text of one character that is no letter is that text in both cases. -/
theorem fold_beq_singleton {k : Char} (hk : k.isAlpha = false) (t : Text) :
    (fold t == [k]) = (t == [k]) := by
  rw [Bool.eq_iff_iff, beq_iff_eq, beq_iff_eq]
  rcases t with _ | ⟨c, _ | ⟨d, t⟩⟩ <;> simp [toLower_eq_iff hk]

/-! ## Bytes -/

@[simp] theorem byteLength_fold (t : Text) : byteLength (fold t) = byteLength t := by
  induction t with
  | nil => rfl
  | cons c t ih => rw [fold_cons, byteLength_cons, byteLength_cons, ih, utf8Size_toLower]

@[simp] theorem fits_fold (limit : Nat) (t : Text) : fits limit (fold t) = fits limit t := by
  rw [fits, fits, byteLength_fold]

@[simp] theorem dropBytes_fold (n : Nat) (t : Text) : dropBytes n (fold t) = fold (dropBytes n t) := by
  induction t generalizing n with
  | nil => cases n <;> rfl
  | cons c t ih =>
    cases n with
    | zero => rfl
    | succ n => rw [fold_cons, dropBytes, dropBytes, utf8Size_toLower, ih]

theorem positionFrom_fold (i n : Nat) (t : Text) : positionFrom i n (fold t) = positionFrom i n t := by
  induction t generalizing i n with
  | nil => cases n <;> rfl
  | cons c t ih =>
    cases n with
    | zero => rfl
    | succ n => simp only [fold_cons, positionFrom, utf8Size_toLower, ih]

@[simp] theorem position?_fold (n : Nat) (t : Text) : position? n (fold t) = position? n t :=
  positionFrom_fold ..

/-! ## Blanks and lines -/

@[simp] theorem trimStart_fold (t : Text) : trimStart (fold t) = fold (trimStart t) :=
  dropWhile_fold isBlank_toLower t

@[simp] theorem trimEnd_fold (t : Text) : trimEnd (fold t) = fold (trimEnd t) := by
  rw [trimEnd, reverse_fold, dropWhile_fold isBlank_toLower, reverse_fold, trimEnd]

@[simp] theorem trim_fold (t : Text) : trim (fold t) = fold (trim t) := by
  rw [trim, trimStart_fold, trimEnd_fold, trim]

theorem dropFinal?_fold {k : Char} (hk : k.isAlpha = false) (t : Text) :
    dropFinal? k (fold t) = (dropFinal? k t).map fold := by
  rw [dropFinal?, dropFinal?, getLast?_beq_fold hk, dropLast_fold]
  split <;> rfl

theorem splitOnce_fold {k : Char} (hk : k.isAlpha = false) (t : Text) :
    splitOnce k (fold t) = (splitOnce k t).map (Prod.map fold fold) := by
  rw [splitOnce, splitOnce, dropWhile_bne_fold hk, takeWhile_bne_fold hk]
  cases t.dropWhile (· != k) <;> rfl

theorem splitOnFrom_fold {k : Char} (hk : k.isAlpha = false) (piece : Text) (pieces : List Text)
    (t : Text) :
    splitOnFrom k (fold piece) (pieces.map fold) (fold t) = (splitOnFrom k piece pieces t).map fold := by
  induction t generalizing piece pieces with
  | nil => simp [splitOnFrom]
  | cons c t ih =>
    rw [fold_cons, splitOnFrom, splitOnFrom, beq_toLower hk]
    split
    · rw [← ih]
      simp
    · rw [← ih, fold_cons]

theorem splitOn_fold {k : Char} (hk : k.isAlpha = false) (t : Text) :
    splitOn k (fold t) = (splitOn k t).map fold :=
  splitOnFrom_fold hk [] [] t

theorem fold_join (separator : Text) (parts : List Text) :
    fold (join separator parts) = join (fold separator) (parts.map fold) := by
  induction parts with
  | nil => rfl
  | cons a parts ih =>
    cases parts with
    | nil => simp [join, List.intercalate]
    | cons b parts =>
      simp only [join, List.intercalate, List.intersperse_cons_cons, List.flatten_cons, List.map_cons,
        fold_append] at ih ⊢
      rw [ih]

theorem withoutReturn_fold (t : Text) : withoutReturn (fold t) = fold (withoutReturn t) := by
  rw [withoutReturn, withoutReturn, dropFinal?_fold (by decide)]
  cases dropFinal? '\r' t <;> rfl

theorem lines_fold (t : Text) : lines (fold t) = (lines t).map fold := by
  have hlast : ((splitOn '\n' t).map fold).getLast?.getD []
      = fold ((splitOn '\n' t).getLast?.getD []) := by
    rw [List.getLast?_map]
    cases (splitOn '\n' t).getLast? <;> rfl
  simp only [lines, splitOn_fold (k := '\n') (by decide), hlast, isEmpty_fold, List.map_append,
    ← List.map_dropLast, List.map_map]
  congr 1
  · exact List.map_congr_left fun line _ => withoutReturn_fold line
  · split <;> rfl

/-! ## Words -/

@[simp] theorem sameWord_fold (t w : Text) : sameWord (fold t) w = sameWord t w := by
  rw [sameWord, fold_fold, sameWord]

@[simp] theorem sameWord_fold_right (w t : Text) : sameWord w (fold t) = sameWord w t := by
  rw [sameWord, fold_fold, sameWord]

theorem dropWord?_fold (w t : Text) : dropWord? w (fold t) = (dropWord? w t).map fold := by
  induction w generalizing t with
  | nil => rfl
  | cons d w ih =>
    cases t with
    | nil => rfl
    | cons c t =>
      rw [fold_cons, dropWord?, dropWord?, toLower_toLower, ih]
      split <;> rfl

/-- The case of the word does not matter either. -/
theorem dropWord?_fold_left (w t : Text) : dropWord? (fold w) t = dropWord? w t := by
  induction w generalizing t with
  | nil => rfl
  | cons d w ih =>
    cases t with
    | nil => rfl
    | cons c t => rw [fold_cons, dropWord?, dropWord?, toLower_toLower, ih]

theorem wholeWord?_fold (w : Text) (before : Option Char) (t : Text) :
    wholeWord? true w (before.map Char.toLower) (fold t) = (wholeWord? true w before t).map fold := by
  simp only [wholeWord?, dropWordWith, if_true, any_isIdentChar_toLower, dropWord?_fold]
  split
  · rfl
  · cases dropWord? w t with
    | none => rfl
    | some after =>
      simp only [Option.map_some, Option.bind_some, head?_fold, any_isIdentChar_toLower]
      split <;> rfl

theorem wholeWord?_fold_none (w t : Text) :
    wholeWord? true w none (fold t) = (wholeWord? true w none t).map fold :=
  wholeWord?_fold w none t

theorem wholeWord?_fold_left (w : Text) (before : Option Char) (t : Text) :
    wholeWord? true (fold w) before t = wholeWord? true w before t := by
  simp only [wholeWord?, dropWordWith, if_true, isEmpty_fold, dropWord?_fold_left]

theorem wordAfter?_fold (w : Text) (position : Nat) (before : Option Char) (t : Text) :
    wordAfter? true w position (before.map Char.toLower) (fold t)
      = wordAfter? true w position before t := by
  induction t generalizing position before with
  | nil => rfl
  | cons c t ih =>
    have hhead := wholeWord?_fold w before (c :: t)
    rw [fold_cons] at hhead
    rw [fold_cons, wordAfter?, wordAfter?, hhead, Option.isSome_map]
    split
    · rfl
    · exact ih (position + 1) (some c)

theorem splitAtWord?_fold (w t : Text) :
    splitAtWord? w (fold t) = (splitAtWord? w t).map (Prod.map fold fold) := by
  have hword : word? true w (fold t) = word? true w t := by
    rw [word?, word?, wordFrom?, wordFrom?]
    exact wordAfter?_fold w 0 none t
  rw [splitAtWord?, splitAtWord?, hword]
  cases word? true w t <;> simp

theorem afterWord?_fold (w t : Text) : afterWord? w (fold t) = (afterWord? w t).map fold := by
  rw [afterWord?, afterWord?, trimStart_fold, wholeWord?_fold_none]
  cases wholeWord? true w none (trimStart t) <;> simp

@[simp] theorem startsWith_fold (w t : Text) : startsWith w (fold t) = startsWith w t := by
  rw [startsWith, startsWith, afterWord?_fold, Option.isSome_map]

theorem beforeWord?_fold (w t : Text) : beforeWord? w (fold t) = (beforeWord? w t).map fold := by
  rw [beforeWord?, beforeWord?, reverse_fold, dropWhile_fold isBlank_toLower, wholeWord?_fold_none]
  cases wholeWord? true w.reverse none (t.reverse.dropWhile isBlank) with
  | none => rfl
  | some r =>
    simp only [Option.map_some, Option.some.injEq]
    rw [dropWhile_fold isBlank_toLower, reverse_fold]

theorem beforeWord?_fold_left (w t : Text) : beforeWord? (fold w) t = beforeWord? w t := by
  rw [beforeWord?, beforeWord?, reverse_fold, wholeWord?_fold_left]

/-- A sequence of steps, each of which commutes with folding. -/
theorem foldlM_fold {step : Text → Text → Option Text}
    (h : ∀ w t, step (fold t) w = (step t w).map fold) (words : List Text) (t : Text) :
    words.foldlM step (fold t) = (words.foldlM step t).map fold := by
  induction words generalizing t with
  | nil => rfl
  | cons w words ih =>
    rw [List.foldlM_cons, List.foldlM_cons, h]
    cases step t w with
    | none => rfl
    | some r => exact ih r

theorem afterWords?_fold (words : List Text) (t : Text) :
    afterWords? words (fold t) = (afterWords? words t).map fold :=
  foldlM_fold afterWord?_fold words t

theorem beforeWords?_fold (words : List Text) (t : Text) :
    beforeWords? words (fold t) = (beforeWords? words t).map fold :=
  foldlM_fold beforeWord?_fold words.reverse t

theorem beforeEnd?_fold (keywords : List Text) (required : Bool) (name : Option Text) (t : Text) :
    beforeEnd? keywords required (name.map fold) (fold t)
      = (beforeEnd? keywords required name t).map fold := by
  simp only [beforeEnd?, trimEnd_fold, dropFinal?_fold (k := ';') (by decide)]
  cases dropFinal? ';' (trimEnd t) with
  | none => rfl
  | some body =>
    simp only [Option.map_some, Option.bind_eq_bind, Option.bind_some, trimEnd_fold]
    have hname : ((name.map fold).bind fun n => beforeWord? n (fold (trimEnd body))).getD
        (fold (trimEnd body))
          = fold ((name.bind fun n => beforeWord? n (trimEnd body)).getD (trimEnd body)) := by
      cases name with
      | none => rfl
      | some n =>
        simp only [Option.map_some, Option.bind_some, beforeWord?_fold_left, beforeWord?_fold]
        cases beforeWord? n (trimEnd body) <;> rfl
    rw [hname, beforeWords?_fold]
    generalize ((name.bind fun n => beforeWord? n (trimEnd body)).getD (trimEnd body)) = unnamed
    cases beforeWords? keywords unnamed with
    | none =>
      simp only [Option.map_none]
      split
      · rfl
      · exact beforeWord?_fold _ _
    | some rest => exact beforeWord?_fold _ _

theorem firstWord?_fold (t : Text) : firstWord? (fold t) = (firstWord? t).map fold := by
  rw [firstWord?, firstWord?, dropWhile_fold isSeparator_toLower, takeWhile_fold fun c => by simp]
  cases (t.dropWhile isSeparator).takeWhile (!isSeparator ·) <;> rfl

end Text

end CanonicalVhdl
