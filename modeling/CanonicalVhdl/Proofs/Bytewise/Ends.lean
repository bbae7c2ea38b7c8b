import CanonicalVhdl.Proofs.Bytewise.Lexeme
import CanonicalVhdl.Proofs.Search.Word

/-!
# Words at the ends of the bytes of a text

A word at an end of a text is looked for in a part that has as many bytes as the word.  There is no
such part if it would start or end inside a character, and where the word is found, the text is cut
between characters.

## Main definitions

* `Bytewise.stripWordPrefix`, `Bytewise.stripWordSuffix` — a text without its first or last word.
* `Bytewise.stripEndClause` — a text without its closing clause.
* `Bytewise.firstWord`, `Bytewise.lastWord` — the first and the last loose word.

## Main statements

* `Bytewise.stripWordPrefix_eq`, `Bytewise.stripWordSuffix_eq`, `Bytewise.stripEndClause_eq`,
  `Bytewise.firstWord_eq`, `Bytewise.lastWord_eq` — the bytes answer what the characters answer.
-/

namespace CanonicalVhdl.Bytewise

open Text

/-! ## Whole words -/

/-- A text without a leading whole word and the blanks around it. -/
def stripWordPrefix (word t : Text) : Checked (Option Text) := do
  let u := trimStart t
  match slice? u 0 (byteLength word) with
  | none => return none
  | some head =>
    if word.isEmpty || !sameWord word head then return none
    else if ((bytes u)[byteLength word]?).any isIdentByte then return none
    else return some (trimStart (← part u (byteLength word) (byteLength u)))

/-- A text without a trailing whole word and the blanks around it. -/
def stripWordSuffix (word t : Text) : Checked (Option Text) := do
  let u := trimEnd t
  if byteLength u < byteLength word then return none
  else
    let start ← minus (byteLength u) (byteLength word)
    match slice? u start (byteLength u) with
    | none => return none
    | some last =>
      if word.isEmpty || !sameWord word last then return none
      else if ← isIdentBefore (bytes u) start then return none
      else return some (trimEnd (← part u 0 start))

/-- A text without whole words at an end, one after the other. -/
def stripWords (strip : Text → Text → Checked (Option Text)) : List Text → Text → Checked (Option Text)
  | [], t => return some t
  | word :: words, t => do
    match ← strip word t with
    | some rest => stripWords strip words rest
    | none => return none

/-- Whether a text begins with a whole word, leading blanks aside. -/
def startsWithWord (word t : Text) : Checked Bool := do
  return (← stripWordPrefix word t).isSome

/-- A text without a leading sequence of whole words. -/
def stripSentencePrefix (words : List Text) (t : Text) : Checked (Option Text) :=
  stripWords stripWordPrefix words t

/-- A text without the name at its end, if there is one to look for and it stands there. -/
def stripName (name : Option Text) (t : Text) : Checked Text :=
  match name with
  | some n => do return (← stripWordSuffix n t).getD t
  | none => return t

/-- What precedes the closing clause `end keywords name;` of a construct. -/
def stripEndClause (keywords : List Text) (required : Bool) (name : Option Text) (t : Text) :
    Checked (Option Text) := do
  match dropFinal? ';' (trimEnd t) with
  | none => return none
  | some closed =>
    let unnamed ← stripName name (trimEnd closed)
    match ← stripWords stripWordSuffix keywords.reverse unnamed with
    | some rest => stripWordSuffix "end".toList rest
    | none => if required then return none else stripWordSuffix "end".toList unnamed

section Words

variable {word t r : Text}

/-- **A leading whole word** is the word, and no identifier character follows it. -/
theorem afterWord?_eq_some_iff :
    afterWord? word t = some r ↔ word ≠ [] ∧ ∃ x b, trimStart t = x ++ b ∧ sameWord word x = true ∧
      b.head?.any isIdentChar = false ∧ r = trimStart b := by
  rw [afterWord?, Option.map_eq_some_iff]
  constructor
  · rintro ⟨b, hb, rfl⟩
    obtain ⟨hword, -, x, hx, hspells, hbehind⟩ := wholeWord?_eq_some_iff.1 hb
    exact ⟨hword, x, b, hx, hspells, hbehind, rfl⟩
  · rintro ⟨hword, x, b, hx, hspells, hbehind, rfl⟩
    exact ⟨b, wholeWord?_eq_some_iff.2 ⟨hword, rfl, x, hx, hspells, hbehind⟩, rfl⟩

theorem sameWord_reverse (s t : Text) : sameWord s.reverse t.reverse = sameWord s t := by
  rw [Bool.eq_iff_iff, sameWord_iff, sameWord_iff, fold, fold, List.map_reverse, List.map_reverse,
    List.reverse_inj]
  rfl

/-- **A trailing whole word** is the word, and no identifier character precedes it. -/
theorem beforeWord?_eq_some_iff :
    beforeWord? word t = some r ↔ word ≠ [] ∧ ∃ a x, trimEnd t = a ++ x ∧ sameWord word x = true ∧
      a.getLast?.any isIdentChar = false ∧ r = trimEnd a := by
  have htrim : t.reverse.dropWhile isBlank = (trimEnd t).reverse := by rw [trimEnd, List.reverse_reverse]
  rw [beforeWord?, htrim, Option.map_eq_some_iff]
  constructor
  · rintro ⟨b, hb, rfl⟩
    obtain ⟨hword, -, x, hx, hspells, hbehind⟩ := wholeWord?_eq_some_iff.1 hb
    refine ⟨fun h => hword (by rw [h, List.reverse_nil]), b.reverse, x.reverse, ?_, ?_, ?_, ?_⟩
    · rw [← List.reverse_append, ← hx, List.reverse_reverse]
    · rw [← sameWord_reverse, List.reverse_reverse]
      exact hspells
    · rw [List.getLast?_reverse, hbehind]
    · rw [trimEnd, List.reverse_reverse]
  · rintro ⟨hword, a, x, hx, hspells, hbefore, rfl⟩
    refine ⟨a.reverse, wholeWord?_eq_some_iff.2 ⟨fun h => hword (List.reverse_eq_nil_iff.1 h), rfl,
      x.reverse, ?_, ?_, ?_⟩, rfl⟩
    · rw [hx, List.reverse_append]
    · exact (sameWord_reverse word x).trans hspells
    · rw [List.head?_reverse, hbefore]

/-- What two tests and a cut answer, when the answer is known. -/
theorem ok_of_iff {o : Option Text} {x : Text} {touched : Bool}
    (h : ∀ r, o = some r ↔ word ≠ [] ∧ sameWord word x = true ∧ touched = false ∧ r = t) :
    (if (word.isEmpty || !sameWord word x) = true then Except.ok none
      else if touched = true then .ok none else .ok (some t) : Checked (Option Text)) = .ok o := by
  by_cases hword : (word.isEmpty || !sameWord word x) = true
  · have hnone : o = none := by
      apply Option.eq_none_iff_forall_ne_some.2
      intro r hr
      obtain ⟨hne, hspells, -⟩ := (h r).1 hr
      simp [hne, hspells] at hword
    rw [if_pos hword, hnone]
  · rw [if_neg hword]
    cases htouched : touched with
    | true =>
      have hnone : o = none := by
        apply Option.eq_none_iff_forall_ne_some.2
        intro r hr
        obtain ⟨-, -, hclean, -⟩ := (h r).1 hr
        rw [htouched] at hclean
        cases hclean
      rw [if_pos rfl, hnone]
    | false =>
      have hclean : word ≠ [] ∧ sameWord word x = true := by simpa using hword
      rw [if_neg Bool.false_ne_true, (h t).2 ⟨hclean.1, hclean.2, htouched, rfl⟩]

/-- **A leading word is taken off the bytes as off the characters.** -/
theorem stripWordPrefix_eq (word t : Text) : stripWordPrefix word t = .ok (afterWord? word t) := by
  rw [stripWordPrefix]
  cases hslice : slice? (trimStart t) 0 (byteLength word) with
  | none =>
    cases hafter : afterWord? word t with
    | none => rfl
    | some r =>
      obtain ⟨-, x, b, hx, hspells, -⟩ := afterWord?_eq_some_iff.1 hafter
      have hslice' : slice? (trimStart t) 0 (byteLength word) = some x :=
        slice?_eq_some_iff.2 ⟨[], b, hx, rfl, byteLength_sameWord hspells⟩
      rw [hslice] at hslice'
      cases hslice'
  | some head =>
    obtain ⟨a, b, hsplit, ha, hlength⟩ := slice?_eq_some_iff.1 hslice
    obtain rfl := byteLength_eq_zero.1 ha
    rw [List.nil_append] at hsplit hlength
    have hnext := getElem?_place head b
    rw [← hsplit, hlength] at hnext
    have hrest := part_back head b
    rw [← hsplit, hlength] at hrest
    -- the word can only be the part that has as many bytes
    have hiff : ∀ r, afterWord? word t = some r ↔ word ≠ [] ∧ sameWord word head = true ∧
        b.head?.any isIdentChar = false ∧ r = trimStart b := by
      intro r
      rw [afterWord?_eq_some_iff, hsplit]
      constructor
      · rintro ⟨hword, x, b', hx, hspells, hbehind, rfl⟩
        obtain ⟨rfl, rfl⟩ := eq_of_byteLength_eq hx (hlength.trans (byteLength_sameWord hspells).symm)
        exact ⟨hword, hspells, hbehind, rfl⟩
      · rintro ⟨hword, hspells, hbehind, rfl⟩
        exact ⟨hword, head, b, rfl, hspells, hbehind, rfl⟩
    simp only [hnext, any_lead, bind, Except.bind, hrest]
    exact ok_of_iff hiff

/-- **A trailing word is taken off the bytes as off the characters.** -/
theorem stripWordSuffix_eq (word t : Text) : stripWordSuffix word t = .ok (beforeWord? word t) := by
  rw [stripWordSuffix]
  by_cases hlt : byteLength (trimEnd t) < byteLength word
  · rw [if_pos hlt]
    cases hbefore : beforeWord? word t with
    | none => rfl
    | some r =>
      obtain ⟨-, a, x, hx, hspells, -⟩ := beforeWord?_eq_some_iff.1 hbefore
      rw [hx, byteLength_append, ← byteLength_sameWord hspells] at hlt
      omega
  · rw [if_neg hlt, minus_eq (Nat.le_of_not_lt hlt)]
    simp only [bind, Except.bind]
    cases hslice : slice? (trimEnd t) (byteLength (trimEnd t) - byteLength word) (byteLength (trimEnd t)) with
    | none =>
      cases hbefore : beforeWord? word t with
      | none => rfl
      | some r =>
        obtain ⟨-, a, x, hx, hspells, -⟩ := beforeWord?_eq_some_iff.1 hbefore
        have hstart : byteLength a = byteLength (trimEnd t) - byteLength word := by
          rw [hx, byteLength_append, ← byteLength_sameWord hspells]
          omega
        have hslice' : slice? (trimEnd t) (byteLength (trimEnd t) - byteLength word) (byteLength (trimEnd t))
            = some x :=
          slice?_eq_some_iff.2 ⟨a, [], by rw [List.append_nil, hx], hstart, congrArg byteLength hx.symm⟩
        rw [hslice] at hslice'
        cases hslice'
    | some last =>
      obtain ⟨a, b, hsplit, ha, hlength⟩ := slice?_eq_some_iff.1 hslice
      have hend : b = [] := by
        rw [hsplit, ← List.append_assoc, byteLength_append _ b] at hlength
        exact byteLength_eq_zero.1 (by omega)
      rw [hend, List.append_nil] at hsplit
      have hbytes := isIdentBefore_eq a last
      have hfront := part_front a last
      rw [← hsplit, ha] at hbytes hfront
      -- the word can only be the part that has as many bytes
      have hiff : ∀ r, beforeWord? word t = some r ↔ word ≠ [] ∧ sameWord word last = true ∧
          a.getLast?.any isIdentChar = false ∧ r = trimEnd a := by
        intro r
        rw [beforeWord?_eq_some_iff, hsplit]
        constructor
        · rintro ⟨hword, a', x, hx, hspells, hbefore, rfl⟩
          have hsame : byteLength a = byteLength a' := by
            rw [ha, hsplit, hx, byteLength_append, ← byteLength_sameWord hspells]
            omega
          obtain ⟨rfl, rfl⟩ := eq_of_byteLength_eq hx hsame
          exact ⟨hword, hspells, hbefore, rfl⟩
        · rintro ⟨hword, hspells, hbefore, rfl⟩
          exact ⟨hword, a, last, rfl, hspells, hbefore, rfl⟩
      simp only [hbytes, hfront]
      exact ok_of_iff hiff
theorem stripWords_eq {strip : Text → Text → Checked (Option Text)} {f : Text → Text → Option Text}
    (h : ∀ word t, strip word t = .ok (f word t)) (words : List Text) :
    ∀ t : Text, stripWords strip words t = .ok (words.foldlM (fun rest word => f word rest) t) := by
  induction words with
  | nil => exact fun _ => rfl
  | cons word words ih =>
    intro t
    rw [stripWords, h, List.foldlM_cons]
    cases f word t with
    | none => rfl
    | some rest => exact ih rest

theorem startsWithWord_eq (word t : Text) : startsWithWord word t = .ok (startsWith word t) := by
  rw [startsWithWord, stripWordPrefix_eq]
  rfl

theorem stripSentencePrefix_eq (words : List Text) (t : Text) :
    stripSentencePrefix words t = .ok (afterWords? words t) :=
  stripWords_eq stripWordPrefix_eq words t

theorem stripName_eq (name : Option Text) (t : Text) :
    stripName name t = .ok ((name.bind fun n => beforeWord? n t).getD t) := by
  cases name with
  | none => rfl
  | some n =>
    rw [stripName, stripWordSuffix_eq]
    rfl

/-- **A closing clause is taken off the bytes as off the characters.** -/
theorem stripEndClause_eq (keywords : List Text) (required : Bool) (name : Option Text) (t : Text) :
    stripEndClause keywords required name t = .ok (beforeEnd? keywords required name t) := by
  rw [stripEndClause, beforeEnd?]
  cases dropFinal? ';' (trimEnd t) with
  | none => rfl
  | some closed =>
    simp only [bind, Except.bind, Option.bind_some, stripName_eq, stripWords_eq stripWordSuffix_eq]
    rw [← beforeWords?]
    cases beforeWords? keywords ((name.bind fun n => beforeWord? n (trimEnd closed)).getD (trimEnd closed)) with
    | some rest => exact stripWordSuffix_eq _ rest
    | none =>
      cases required with
      | true => rfl
      | false => exact stripWordSuffix_eq _ _

end Words

/-! ## Loose words -/

/-- The offset of the first character that passes a test. -/
def findChar? (p : Char → Bool) : Text → Option Nat
  | [] => none
  | c :: t => if p c then some 0 else (findChar? p t).map (c.utf8Size + ·)

/-- The offset of the last character that passes a test. -/
def rfindChar? (p : Char → Bool) : Text → Option Nat
  | [] => none
  | c :: t => ((rfindChar? p t).map (c.utf8Size + ·)).or (if p c then some 0 else none)

/-- The first run of characters that are no separators. -/
def firstWord (t : Text) : Checked (Option Text) := do
  match findChar? (!isSeparator ·) t with
  | none => return none
  | some start =>
    let rest ← part t start (byteLength t)
    return some (← part rest 0 ((findChar? isSeparator rest).getD (byteLength rest)))

/-- A text without the separators at its end. -/
def trimSeparators (t : Text) : Text :=
  (t.reverse.dropWhile isSeparator).reverse

/-- The last run of characters that are no separators. -/
def lastWord (t : Text) : Checked (Option Text) := do
  let u := trimSeparators t
  if u.isEmpty then return none
  else
    match rfindChar? isSeparator u with
    | none => return some (← part u 0 (byteLength u))
    | some i =>
      let rest ← part u i (byteLength u)
      return some (← part u (i + rest.head?.elim 1 Char.utf8Size) (byteLength u))

section LooseWords

variable {p : Char → Bool}

theorem findChar?_eq (t : Text) :
    findChar? p t = if t.any p then some (byteLength (t.takeWhile (!p ·))) else none := by
  induction t with
  | nil => rfl
  | cons c t ih =>
    rw [findChar?, ih, List.any_cons, List.takeWhile_cons]
    cases hc : p c with
    | true => rfl
    | false =>
      simp only [Bool.false_or, Bool.not_false, if_true, byteLength_cons]
      cases t.any p <;> rfl

/-- A text up to the first character that passes a test. -/
theorem part_findChar (t : Text) :
    part t 0 ((findChar? p t).getD (byteLength t)) = .ok (t.takeWhile (!p ·)) := by
  have hfront := part_front (t.takeWhile (!p ·)) (t.dropWhile (!p ·))
  rw [List.takeWhile_append_dropWhile] at hfront
  rw [findChar?_eq]
  cases hany : t.any p with
  | true => exact hfront
  | false =>
    have hall : t.takeWhile (!p ·) = t := List.takeWhile_eq_self_iff.2 fun c hc => by
      rw [List.any_eq_false] at hany
      simpa using hany c hc
    rw [hall] at hfront ⊢
    exact hfront

/-- The first loose word starts with the first character that is no separator. -/
theorem firstWord?_eq {t : Text} {c : Char} {u : Text} (h : t.dropWhile isSeparator = c :: u) :
    firstWord? t = some ((c :: u).takeWhile (!isSeparator ·)) := by
  have hhead := List.head?_dropWhile_not isSeparator t
  rw [h, List.head?_cons] at hhead
  rw [firstWord?, h, List.takeWhile_cons_of_pos (by simpa using hhead)]

theorem firstWord_eq (t : Text) : firstWord t = .ok (firstWord? t) := by
  have hback := part_back (t.takeWhile isSeparator) (t.dropWhile isSeparator)
  rw [List.takeWhile_append_dropWhile] at hback
  rw [firstWord, findChar?_eq]
  cases hany : t.any (!isSeparator ·) with
  | false =>
    have hnil : t.dropWhile isSeparator = [] := List.dropWhile_eq_nil_iff.2 fun c hc => by
      rw [List.any_eq_false] at hany
      simpa using hany c hc
    rw [firstWord?, hnil]
    rfl
  | true =>
    simp only [if_true, Bool.not_not, bind, Except.bind, hback, part_findChar]
    have hne : t.dropWhile isSeparator ≠ [] := by
      intro hnil
      obtain ⟨c, hc, hsep⟩ := List.any_eq_true.1 hany
      rw [List.dropWhile_eq_nil_iff.1 hnil c hc] at hsep
      cases hsep
    obtain ⟨c, u, hu⟩ := List.exists_cons_of_ne_nil hne
    rw [firstWord?_eq hu, hu]
    rfl

theorem rfindChar?_eq_none {t : Text} (h : t.any p = false) : rfindChar? p t = none := by
  induction t with
  | nil => rfl
  | cons c t ih =>
    rw [List.any_cons, Bool.or_eq_false_iff] at h
    rw [rfindChar?, ih h.2, h.1]
    rfl

/-- The last character that passes a test, and what follows it. -/
theorem rfindChar?_append {b : Text} (hb : b.any p = false) (a : Text) {c : Char} (hc : p c = true) :
    rfindChar? p (a ++ c :: b) = some (byteLength a) := by
  induction a with
  | nil =>
    rw [List.nil_append, rfindChar?, rfindChar?_eq_none hb, hc]
    rfl
  | cons d a ih =>
    rw [List.cons_append, rfindChar?, ih, byteLength_cons]
    rfl

theorem lastWord_eq (t : Text) : lastWord t = .ok (lastWord? t) := by
  rw [lastWord, trimSeparators, lastWord?]
  cases hv : t.reverse.dropWhile isSeparator with
  | nil =>
    rw [firstWord?, hv]
    rfl
  | cons d v =>
    -- the word stands behind the last separator, if there is one
    have hsplit := List.takeWhile_append_dropWhile (p := (!isSeparator ·)) (l := d :: v)
    have hclean : ((d :: v).takeWhile (!isSeparator ·)).reverse.any isSeparator = false := by
      rw [List.any_reverse, List.any_eq_false]
      intro c hc
      simpa using List.all_eq_true.1 List.all_takeWhile c hc
    have hne : (d :: v).reverse.isEmpty = false := by simp
    rw [hne, if_neg Bool.false_ne_true, firstWord?_eq hv, Option.map_some]
    have hstop := List.head?_dropWhile_not (!isSeparator ·) (d :: v)
    generalize (d :: v).takeWhile (!isSeparator ·) = w at hsplit hclean ⊢
    generalize (d :: v).dropWhile (!isSeparator ·) = r at hsplit hstop
    cases r with
    | nil =>
      rw [List.append_nil] at hsplit
      rw [← hsplit, rfindChar?_eq_none hclean]
      have hwhole := part_back [] w.reverse
      simp only [bind, Except.bind]
      exact congrArg (Except.map some) hwhole
    | cons c r =>
      have hc : isSeparator c = true := by simpa using hstop
      have hu : (d :: v).reverse = r.reverse ++ c :: w.reverse := by simp [← hsplit]
      have hrest := part_back r.reverse (c :: w.reverse)
      have hlast := part_back (r.reverse ++ [c]) w.reverse
      rw [List.append_assoc, List.singleton_append, byteLength_append r.reverse [c]] at hlast
      rw [hu, rfindChar?_append hclean r.reverse hc]
      simp only [bind, Except.bind, hrest, List.head?_cons, Option.elim_some]
      rw [show c.utf8Size = byteLength [c] from (Nat.zero_add _).symm, hlast]
      rfl

end LooseWords

end CanonicalVhdl.Bytewise
