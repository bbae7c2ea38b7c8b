import CanonicalVhdl.Proofs.Bytewise.Loop
import CanonicalVhdl.Proofs.Comment.Segments

/-!
# Lexemes in the bytes of a text

The lexeme at a byte offset is found by looking at the byte before the offset and at up to three
bytes behind it.  At the start of a character the bytes tell the same lexeme as the characters, and
at any other byte they tell a byte of code.

## Main definitions

* `Bytewise.lexemeAt` — the lexeme at a byte offset, with its length in bytes.
* `Bytewise.wordEnd`, `Bytewise.startsWordAt` — where words end and start.
* `Bytewise.points` — the code points of a text, byte by byte.

## Main statements

* `Bytewise.lexemeAt_eq` — the bytes tell the lexeme of the characters.
* `Bytewise.points_eq` — the code points of the bytes are the bytes of the code points.
-/

namespace CanonicalVhdl.Bytewise

open Text Token

/-! ## The lexeme at an offset -/

/-- One turn of the search for the end of a string. -/
def quotedTurn (bs : List UInt8) (_ : Unit) (j : Nat) : Checked (Turn Unit Nat) := do
  let b ← byteAt bs j
  if b == '"'.toUInt8 then
    if bs[j + 1]? == some '"'.toUInt8 then return .next () (j + 2) else return .done (j + 1)
  else if b == '\n'.toUInt8 then return .done j
  else return .next () (j + 1)

/-- Where the string ends whose opening quotation mark stands before `j`. -/
def quotedEnd (bs : List UInt8) (j : Nat) : Checked Nat :=
  loop bs.length (quotedTurn bs) (fun _ j => return j) () j

/-- Whether the byte before an index binds a tick. -/
def bindsTickAt (bs : List UInt8) (i : Nat) : Checked Bool := do
  if 0 < i then
    let b ← byteAt bs (← minus i 1)
    return isIdentByte b || b == ')'.toUInt8
  else return false

/-- The byte at an index, and the lexeme that starts there with its length in bytes. -/
def lexemeAt (bs : List UInt8) (i : Nat) : Checked (UInt8 × Lexeme) := do
  let b ← byteAt bs i
  if b == '-'.toUInt8 && bs[i + 1]? == some '-'.toUInt8 then
    let line ← bytesFrom bs i
    let rest ← minus bs.length i
    return (b, .comment ((line.findIdx? (· == '\n'.toUInt8)).getD rest))
  else if b == '"'.toUInt8 then
    let stop ← quotedEnd bs (i + 1)
    return (b, .literal (← minus stop i))
  else if b == '\''.toUInt8 && bs[i + 2]? == some '\''.toUInt8
      && (bs[i + 1]?).any fun d => decide (d.toNat < 128) && d != '\n'.toUInt8 then
    return (b, if ← bindsTickAt bs i then .code else .literal 3)
  else return (b, .code)

/-- A lexeme at the head of a text, with its length in bytes. -/
def measured (t : Text) : Lexeme → Lexeme
  | .code => .code
  | .literal n => .literal (byteLength (t.take n))
  | .comment n => .comment (byteLength (t.take n))

section Lexemes

variable {a u : Text} {c d : Char}

/-- The byte behind a character of ASCII. -/
theorem getElem?_next (a u : Text) (hc : c.toNat < 128) :
    (bytes (a ++ c :: u))[byteLength a + 1]? = u.head?.map lead := by
  rw [← byteLength_snoc hc, ← getElem?_place (a ++ [c]) u, List.append_assoc, List.singleton_append]

/-- The byte behind a place tells whether the character there is some character of ASCII. -/
theorem map_lead_beq (u : Text) (hd : d.toNat < 128) :
    (u.head?.map lead == some d.toUInt8) = (u.head? == some d) := by
  cases u with
  | nil => rfl
  | cons c u => exact beq_of_mem hd (lead_mem c)

theorem not_mem_of_mem_bytes {x : Text} (hd : d.toNat < 128) (hx : d ∉ x) {b : UInt8} (hb : b ∈ bytes x) :
    (b == d.toUInt8) = false := by
  obtain ⟨c, hc, hb⟩ := List.mem_flatMap.1 hb
  rw [beq_of_mem hd hb]
  exact beq_false_of_ne fun h => hx (h ▸ hc)

/-- The bytes of a line. -/
theorem findIdx?_line {x r : Text} (hx : '\n' ∉ x) (hr : AtLineEnd r) :
    ((bytes (x ++ r)).findIdx? (· == '\n'.toUInt8)).getD (byteLength (x ++ r)) = byteLength x := by
  have hline : (bytes x).findIdx? (· == '\n'.toUInt8) = none :=
    List.findIdx?_eq_none_iff.2 fun b hb => not_mem_of_mem_bytes (by decide) hx hb
  rw [bytes_append, List.findIdx?_append, hline, Option.none_or]
  rcases hr.cases with rfl | ⟨r, rfl⟩
  · rw [List.append_nil]
    rfl
  · rw [bytes_cons, utf8EncodeChar_ascii (by decide), List.singleton_append, List.findIdx?_cons,
      if_pos (beq_self_eq_true _), Option.map_some, Option.getD_some, length_bytes, Nat.zero_add]

/-- The search for the end of a string goes on. -/
theorem quotedEnd_next {x : Text} (hx : x ≠ []) (h : quotedTurn (bytes (a ++ (x ++ u))) () (byteLength a)
    = .ok (.next () (byteLength (a ++ x)))) :
    quotedEnd (bytes (a ++ (x ++ u))) (byteLength a)
      = quotedEnd (bytes ((a ++ x) ++ u)) (byteLength (a ++ x)) := by
  rw [quotedEnd, quotedEnd, length_bytes, length_bytes, loop_place u hx h, List.append_assoc]

/-- **A string ends at the same place** for the bytes as for the characters. -/
theorem quotedEnd_eq (n : Nat) (u : Text) :
    ∀ a : Text, quotedEnd (bytes (a ++ u)) (byteLength a)
      = .ok (byteLength (a ++ u.take (Lexeme.quotedLength n u - n))) := by
  fun_induction Lexeme.quotedLength n u with
  | case1 n rest ih =>
    intro a
    have hturn : quotedTurn (bytes (a ++ (['"', '"'] ++ rest))) () (byteLength a)
        = .ok (.next () (byteLength (a ++ ['"', '"']))) := by
      have hlength : byteLength (a ++ ['"', '"']) = byteLength a + 2 := byteLength_append _ _
      rw [quotedTurn, byteAt_eq (getElem?_place a _), List.cons_append, getElem?_next a _ (by decide), hlength]
      rfl
    have hle := le_quotedLength (n + 2) rest
    have hlength : Lexeme.quotedLength (n + 2) rest - n = Lexeme.quotedLength (n + 2) rest - (n + 2) + 2 := by
      omega
    rw [show '"' :: '"' :: rest = ['"', '"'] ++ rest from rfl, quotedEnd_next (by simp) hturn, ih, hlength,
      List.append_assoc]
    rfl
  | case2 n rest hrest =>
    intro a
    have hturn : quotedTurn (bytes (a ++ '"' :: rest)) () (byteLength a)
        = .ok (.done (byteLength (a ++ ['"']))) := by
      have hhead : rest.head? ≠ some '"' := by
        intro h
        obtain ⟨v, rfl⟩ := List.head?_eq_some_iff.1 h
        exact hrest v rfl
      have hnext := map_lead_beq (d := '"') rest (by decide)
      rw [beq_false_of_ne hhead] at hnext
      rw [quotedTurn, byteAt_eq (getElem?_place a _), getElem?_next a _ (by decide), hnext,
        byteLength_snoc (by decide)]
      rfl
    rw [quotedEnd, length_bytes, loop_answer rest hturn, Nat.add_sub_cancel_left]
    rfl
  | case3 n rest =>
    intro a
    have hturn : quotedTurn (bytes (a ++ '\n' :: rest)) () (byteLength a) = .ok (.done (byteLength a)) := by
      rw [quotedTurn, byteAt_eq (getElem?_place a _)]
      rfl
    rw [quotedEnd, length_bytes, loop_answer rest hturn, Nat.sub_self, List.take_zero, List.append_nil]
  | case4 n c rest h1 h2 h3 ih =>
    intro a
    have hquote : c ≠ '"' := h2
    have hline : c ≠ '\n' := h3
    have hturn : ∀ k < c.utf8Size, quotedTurn (bytes (a ++ c :: rest)) () (byteLength a + k)
        = .ok (.next () (byteLength a + k + 1)) := by
      intro k hk
      obtain ⟨b, hb, hbyte⟩ := exists_byte a c rest hk
      have hq := beq_of_mem (d := '"') (by decide) hb
      have hn := beq_of_mem (d := '\n') (by decide) hb
      rw [beq_false_of_ne hquote] at hq
      rw [beq_false_of_ne hline] at hn
      rw [quotedTurn, byteAt_eq hbyte]
      simp only [bind, Except.bind, hq, hn, Bool.false_eq_true, if_false]
      rfl
    have hle := le_quotedLength (n + 1) rest
    have hlength : Lexeme.quotedLength (n + 1) rest - n = Lexeme.quotedLength (n + 1) rest - (n + 1) + 1 := by
      omega
    have hrest := ih (a ++ [c])
    rw [quotedEnd, length_bytes, List.append_assoc, List.singleton_append] at hrest
    rw [quotedEnd, length_bytes, loop_char a c rest hturn, hrest, hlength, List.take_succ_cons, List.append_assoc]
    rfl
  | case5 n =>
    intro a
    rw [quotedEnd, length_bytes, loop_end (by rw [List.append_nil]), List.take_nil, List.append_nil]
    rfl

/-- The character before a place binds a tick if its last byte does. -/
theorem bindsTickAt_eq (a u : Text) :
    bindsTickAt (bytes (a ++ u)) (byteLength a) = .ok (Lexeme.bindsTick a.getLast?) := by
  rcases List.eq_nil_or_concat' a with rfl | ⟨a, d, rfl⟩
  · rfl
  · have hpos : 0 < byteLength (a ++ [d]) := Nat.lt_of_le_of_lt (Nat.zero_le _) (byteLength_lt_snoc a d)
    have hbyte := byteAt_eq (getElem?_before a d u)
    rw [bindsTickAt, if_pos hpos, minus_eq hpos, List.append_assoc, List.singleton_append,
      List.getLast?_concat, Lexeme.bindsTick, Option.any_some, ← isIdentByte_of_mem (trail_mem d),
      ← beq_of_mem (by decide) (trail_mem d)]
    simp only [bind, Except.bind, hbyte]
    rfl

/-- A comment, by its bytes. -/
theorem lexemeAt_hyphens (a u : Text) :
    lexemeAt (bytes (a ++ '-' :: '-' :: u)) (byteLength a)
      = .ok ('-'.toUInt8, measured ('-' :: '-' :: u) (.comment (Lexeme.lineLength 2 u))) := by
  obtain ⟨x, r, rfl, hlength, hx, hr⟩ := lineLength_split 2 u
  have hline := findIdx?_line (x := '-' :: '-' :: x) (by simpa using hx) hr
  have hrest : (bytes (a ++ '-' :: '-' :: (x ++ r))).length - byteLength a
      = byteLength ('-' :: '-' :: x ++ r) := by
    rw [length_bytes, byteLength_append, Nat.add_sub_cancel_left]
    rfl
  have hle : byteLength a ≤ (bytes (a ++ '-' :: '-' :: (x ++ r))).length := by
    rw [length_bytes]
    exact byteLength_le_append _ _
  have htake : ('-' :: '-' :: (x ++ r)).take (2 + x.length) = '-' :: '-' :: x := by
    rw [Nat.add_comm, List.take_succ_cons, List.take_succ_cons, List.take_left]
  rw [lexemeAt, byteAt_eq (getElem?_place a _), getElem?_next a _ (by decide), bytesFrom_eq, minus_eq hle,
    hrest, measured, hlength, htake, ← hline]
  rfl

/-- A string, by its bytes. -/
theorem lexemeAt_quote (a u : Text) :
    lexemeAt (bytes (a ++ '"' :: u)) (byteLength a)
      = .ok ('"'.toUInt8, measured ('"' :: u) (.literal (Lexeme.quotedLength 1 u))) := by
  have hstop := quotedEnd_eq 1 u (a ++ ['"'])
  rw [List.append_assoc, List.singleton_append, byteLength_snoc (by decide)] at hstop
  have hle := le_quotedLength 1 u
  have hlength : Lexeme.quotedLength 1 u = Lexeme.quotedLength 1 u - 1 + 1 := by omega
  have hminus : byteLength (a ++ ['"'] ++ u.take (Lexeme.quotedLength 1 u - 1)) - byteLength a
      = byteLength (('"' :: u).take (Lexeme.quotedLength 1 u)) := by
    rw [List.append_assoc, byteLength_append, Nat.add_sub_cancel_left, hlength, List.take_succ_cons,
      Nat.add_sub_cancel]
    rfl
  have hbefore : byteLength a ≤ byteLength (a ++ ['"'] ++ u.take (Lexeme.quotedLength 1 u - 1)) := by
    rw [List.append_assoc]
    exact byteLength_le_append _ _
  rw [lexemeAt, byteAt_eq (getElem?_place a _), measured, ← hminus]
  simp only [bind, Except.bind, hstop, minus_eq hbefore]
  rfl

/-- Whether the bytes behind a tick are those of a character of ASCII and another tick. -/
theorem ticks_eq (a u : Text) :
    ((bytes (a ++ '\'' :: u))[byteLength a + 2]? == some '\''.toUInt8
        && ((bytes (a ++ '\'' :: u))[byteLength a + 1]?).any
          fun d => decide (d.toNat < 128) && d != '\n'.toUInt8)
      = (u.tail.head? == some '\'' && u.head?.any fun d => decide (d.toNat < 128) && d != '\n') := by
  rw [getElem?_next a u (by decide)]
  cases u with
  | nil =>
    rw [List.head?_nil, Option.map_none, Option.any_none, Option.any_none, Bool.and_false, Bool.and_false]
  | cons d u =>
    rw [List.head?_cons, Option.map_some, Option.any_some, Option.any_some, List.tail_cons]
    by_cases hd : d.toNat < 128
    · have hnext := getElem?_next (a ++ ['\'']) u hd
      rw [List.append_assoc, List.singleton_append, byteLength_snoc (by decide), Nat.add_assoc] at hnext
      rw [hnext, map_lead_beq u (by decide), bne, bne, beq_of_mem (by decide) (lead_mem d), lead_ascii hd,
        toNat_toUInt8 hd]
    · have hbyte := le_of_mem_utf8EncodeChar hd (lead_mem d)
      rw [decide_eq_false (Nat.not_lt.2 hbyte), decide_eq_false hd, Bool.false_and, Bool.false_and,
        Bool.and_false, Bool.and_false]

/-- Neither a comment nor a string, by the bytes. -/
theorem lexemeAt_other (a : Text) (hhyphens : ¬ (c = '-' ∧ u.head? = some '-')) (hquote : c ≠ '"') :
    lexemeAt (bytes (a ++ c :: u)) (byteLength a)
      = .ok (lead c, if c = '\'' ∧ (u.tail.head? == some '\''
          && u.head?.any fun d => decide (d.toNat < 128) && d != '\n') = true
          ∧ Lexeme.bindsTick a.getLast? = false then .literal 3 else .code) := by
  have hcomment : (lead c == '-'.toUInt8
      && (bytes (a ++ c :: u))[byteLength a + 1]? == some '-'.toUInt8) = false := by
    rw [beq_of_mem (by decide) (lead_mem c)]
    by_cases hc : c = '-'
    · subst hc
      have hhead : u.head? ≠ some '-' := fun h => hhyphens ⟨rfl, h⟩
      rw [getElem?_next a u (by decide), map_lead_beq u (by decide), beq_false_of_ne hhead, Bool.and_false]
    · rw [beq_false_of_ne hc, Bool.false_and]
  have hstring : (lead c == '"'.toUInt8) = false := by
    rw [beq_of_mem (by decide) (lead_mem c), beq_false_of_ne hquote]
  rw [lexemeAt, byteAt_eq (getElem?_place a _)]
  simp only [bind, Except.bind, hcomment, hstring, Bool.false_eq_true, if_false]
  rw [beq_of_mem (by decide) (lead_mem c), Bool.and_assoc]
  by_cases hc : c = '\''
  · subst hc
    rw [ticks_eq, beq_self_eq_true, Bool.true_and, bindsTickAt_eq]
    by_cases hticks : (u.tail.head? == some '\''
        && u.head?.any fun d => decide (d.toNat < 128) && d != '\n') = true
    · rw [if_pos hticks]
      cases hbinds : Lexeme.bindsTick a.getLast? with
      | true =>
        rw [if_neg (by simp)]
        rfl
      | false =>
        rw [if_pos ⟨rfl, hticks, rfl⟩]
        rfl
    · rw [if_neg hticks, if_neg fun h => hticks h.2.1]
      rfl
  · rw [beq_false_of_ne hc, Bool.false_and, if_neg Bool.false_ne_true, if_neg fun h => hc h.1]
    rfl

/-- **The bytes tell the lexeme of the characters.** -/
theorem lexemeAt_eq (a : Text) (c : Char) (u : Text) :
    lexemeAt (bytes (a ++ c :: u)) (byteLength a)
      = .ok (lead c, measured (c :: u) (Lexeme.at a.getLast? (c :: u))) := by
  rw [Lexeme.at_cons]
  by_cases hhyphens : c = '-' ∧ u.head? = some '-'
  · obtain ⟨rfl, hhead⟩ := hhyphens
    obtain ⟨u, rfl⟩ := List.head?_eq_some_iff.1 hhead
    exact lexemeAt_hyphens a u
  · by_cases hquote : c = '"'
    · subst hquote
      exact lexemeAt_quote a u
    · rw [lexemeAt_other a hhyphens hquote, if_neg hhyphens, if_neg hquote]
      by_cases htick : c = '\'' ∧ u.head?.any (fun d => decide (d.toNat < 128) && d != '\n') = true
          ∧ u.tail.head? = some '\'' ∧ Lexeme.bindsTick a.getLast? = false
      · rw [if_pos htick, if_pos (by simp [htick])]
        obtain ⟨rfl, hhead, hlast, -⟩ := htick
        obtain ⟨d, u, rfl⟩ := List.exists_cons_of_ne_nil
          (show u ≠ [] by
            rintro rfl
            cases hlast)
        obtain ⟨u, rfl⟩ := List.head?_eq_some_iff.1 hlast
        rw [List.head?_cons, Option.any_some, Bool.and_eq_true, decide_eq_true_eq] at hhead
        rw [measured, List.take_succ_cons, List.take_succ_cons, List.take_succ_cons, List.take_zero,
          byteLength_cons, byteLength_cons, utf8Size_eq_one hhead.1]
        rfl
      · rw [if_neg htick, if_neg (by
          rintro ⟨hc, hticks, hbinds⟩
          rw [Bool.and_eq_true, beq_iff_eq] at hticks
          exact htick ⟨hc, hticks.2, hticks.1, hbinds⟩)]
        rfl

/-- A byte of no character of ASCII is code. -/
theorem lexemeAt_byte {bs : List UInt8} {i : Nat} {b : UInt8} (hb : 128 ≤ b.toNat) (h : bs[i]? = some b) :
    lexemeAt bs i = .ok (b, .code) := by
  have hne : ∀ d : Char, d.toNat < 128 → (b == d.toUInt8) = false := by
    intro d hd
    apply beq_false_of_ne
    rintro rfl
    rw [toNat_toUInt8 hd] at hb
    omega
  rw [lexemeAt, byteAt_eq h]
  simp only [bind, Except.bind, hne '-' (by decide), hne '"' (by decide), hne '\'' (by decide),
    Bool.false_and, Bool.false_eq_true, if_false]
  rfl

section Kinds

variable {x : Text}

/-- Each byte of a character of code is a byte of code. -/
theorem lexemeAt_code (hat : Lexeme.at a.getLast? (c :: u) = .code) {k : Nat} (hk : k < c.utf8Size) :
    ∃ b ∈ String.utf8EncodeChar c, (bytes (a ++ c :: u))[byteLength a + k]? = some b ∧
      lexemeAt (bytes (a ++ c :: u)) (byteLength a + k) = .ok (b, .code) := by
  obtain ⟨b, hb, hbyte⟩ := exists_byte a c u hk
  refine ⟨b, hb, hbyte, ?_⟩
  by_cases hc : c.toNat < 128
  · rw [utf8Size_eq_one hc] at hk
    obtain rfl : k = 0 := by omega
    have hlead : (bytes (a ++ c :: u))[byteLength a]? = some (lead c) := getElem?_place a _
    obtain rfl := Option.some.inj (hlead.symm.trans hbyte)
    rw [Nat.add_zero, lexemeAt_eq, hat]
    rfl
  · exact lexemeAt_byte (le_of_mem_utf8EncodeChar hc hb) hbyte

theorem lexemeAt_literal (hat : Lexeme.at a.getLast? (c :: (x ++ u)) = .literal (x.length + 1)) :
    lexemeAt (bytes (a ++ (c :: x ++ u))) (byteLength a)
      = .ok (lead c, .literal (byteLength (c :: x))) := by
  rw [List.cons_append, lexemeAt_eq, hat, measured, List.take_succ_cons, List.take_left]

theorem lexemeAt_comment (hat : Lexeme.at a.getLast? (c :: (x ++ u)) = .comment (x.length + 1)) :
    lexemeAt (bytes (a ++ (c :: x ++ u))) (byteLength a)
      = .ok (lead c, .comment (byteLength (c :: x))) := by
  rw [List.cons_append, lexemeAt_eq, hat, measured, List.take_succ_cons, List.take_left]

end Kinds

end Lexemes

/-! ## Words -/

/-- Where the bytes of an identifier end that go on at an index. -/
def wordEnd (bs : List UInt8) (start : Nat) : Checked Nat := do
  let rest ← bytesFrom bs start
  return start + rest.findIdx fun b => !isIdentByte b

/-- Whether the byte before an index is one of an identifier. -/
def isIdentBefore (bs : List UInt8) (i : Nat) : Checked Bool := do
  if 0 < i then return isIdentByte (← byteAt bs (← minus i 1)) else return false

/-- Whether the byte at an index is the first one of an identifier. -/
def startsWordAt (bs : List UInt8) (i : Nat) : Checked Bool := do
  if (bs[i]?).any isIdentByte then return !(← isIdentBefore bs i) else return false

section Words

variable {a u : Text} {c : Char}

theorem findIdx_bytes (u : Text) :
    (bytes u).findIdx (fun b => !isIdentByte b) = byteLength (u.takeWhile isIdentChar) := by
  induction u with
  | nil => rfl
  | cons c u ih =>
    rw [bytes_cons, List.findIdx_append]
    by_cases hc : isIdentChar c = true
    · have hbytes : (String.utf8EncodeChar c).findIdx (fun b => !isIdentByte b) = c.utf8Size := by
        rw [← String.length_utf8EncodeChar, List.findIdx_eq_length]
        intro b hb
        rw [isIdentByte_of_mem hb, hc]
        rfl
      rw [hbytes, String.length_utf8EncodeChar, if_neg (Nat.lt_irrefl _), ih, List.takeWhile_cons_of_pos hc,
        byteLength_cons, Nat.add_comm]
    · have hbytes : (String.utf8EncodeChar c).findIdx (fun b => !isIdentByte b) = 0 := by
        obtain ⟨b, x, hx⟩ := List.exists_cons_of_ne_nil (String.utf8EncodeChar_ne_nil (c := c))
        have hb : isIdentByte b = false := by
          rw [isIdentByte_of_mem (c := c) (by rw [hx]; exact List.mem_cons_self)]
          exact eq_false_of_ne_true hc
        rw [hx, List.findIdx_cons, hb]
        rfl
      have hpos := c.utf8Size_pos
      rw [hbytes, String.length_utf8EncodeChar, if_pos hpos, List.takeWhile_cons_of_neg hc]
      rfl

/-- A word ends at the same place for the bytes as for the characters. -/
theorem wordEnd_eq (a u : Text) :
    wordEnd (bytes (a ++ u)) (byteLength a) = .ok (byteLength (a ++ u.takeWhile isIdentChar)) := by
  rw [wordEnd, bytesFrom_eq, byteLength_append, ← findIdx_bytes]
  rfl

theorem any_lead (u : Text) : (u.head?.map lead).any isIdentByte = u.head?.any isIdentChar := by
  cases u with
  | nil => rfl
  | cons c u => exact isIdentByte_of_mem (lead_mem c)

theorem isIdentBefore_eq (a u : Text) :
    isIdentBefore (bytes (a ++ u)) (byteLength a) = .ok (a.getLast?.any isIdentChar) := by
  rcases List.eq_nil_or_concat' a with rfl | ⟨a, d, rfl⟩
  · rfl
  · have hpos : 0 < byteLength (a ++ [d]) := Nat.lt_of_le_of_lt (Nat.zero_le _) (byteLength_lt_snoc a d)
    rw [isIdentBefore, if_pos hpos, minus_eq hpos, List.append_assoc, List.singleton_append,
      List.getLast?_concat, Option.any_some, ← isIdentByte_of_mem (trail_mem d)]
    simp only [bind, Except.bind, byteAt_eq (getElem?_before a d u)]
    rfl

/-- A word starts at the same places for the bytes as for the characters. -/
theorem startsWordAt_eq (a : Text) (c : Char) (u : Text) :
    startsWordAt (bytes (a ++ c :: u)) (byteLength a)
      = .ok (isIdentChar c && !a.getLast?.any isIdentChar) := by
  rw [startsWordAt, getElem?_place a (c :: u), any_lead, List.head?_cons, Option.any_some, isIdentBefore_eq]
  by_cases hc : isIdentChar c = true
  · rw [if_pos hc, hc, Bool.true_and]
    rfl
  · rw [if_neg hc, eq_false_of_ne_true hc, Bool.false_and]
    rfl

/-- No word starts at a byte of another character than those of identifiers. -/
theorem startsWordAt_byte {bs : List UInt8} {i : Nat} {b : UInt8} (h : bs[i]? = some b)
    (hb : isIdentByte b = false) : startsWordAt bs i = .ok false := by
  rw [startsWordAt, h, Option.any_some, hb]
  rfl

end Words

/-! ## Code points -/

/-- A byte of code, or the first byte of a literal. -/
structure Point where
  /-- Its offset. -/
  offset : Nat
  /-- The byte. -/
  byte : UInt8
  /-- The depth of parentheses it stands at. -/
  depth : Nat
deriving DecidableEq, Repr

/-- One turn of the walk through the code points; the state holds those already found, newest first,
and the depth of parentheses. -/
def pointTurn (bs : List UInt8) (state : List Point × Nat) (i : Nat) :
    Checked (Turn (List Point × Nat) (List Point)) := do
  let (b, lexeme) ← lexemeAt bs i
  match lexeme with
  | .comment n => return .next state (i + n)
  | .literal n => return .next (⟨i, b, state.2⟩ :: state.1, state.2) (i + n)
  | .code =>
    let outer := if b == ')'.toUInt8 then state.2 - 1 else state.2
    let inner := if b == '('.toUInt8 then state.2 + 1 else outer
    return .next (⟨i, b, outer⟩ :: state.1, inner) (i + 1)

/-- The code points of a text, byte by byte. -/
def points (t : Text) : Checked (List Point) :=
  loop (byteLength t) (pointTurn (bytes t)) (fun state _ => return state.1.reverse) ([], 0) 0

/-- The bytes of a code point of a text. -/
def spread (t : Text) (p : CodePoint) : List Point :=
  (String.utf8EncodeChar p.char).mapIdx fun k b => ⟨offset t p.position + k, b, p.depth⟩

section Points

variable {before : Option Char} {ps : List Segment}

theorem spread_ascii {t : Text} {p : CodePoint} (hc : p.char.toNat < 128) :
    spread t p = [⟨offset t p.position, p.char.toUInt8, p.depth⟩] := by
  rw [spread, utf8EncodeChar_ascii hc]
  rfl

/-- The bytes of a code point. -/
theorem byte_mem_of_mem_spread {t : Text} {p : CodePoint} {q : Point} (hq : q ∈ spread t p) :
    q.byte ∈ String.utf8EncodeChar p.char := by
  obtain ⟨k, hk, rfl⟩ := List.mem_mapIdx.1 hq
  exact List.getElem_mem hk

/-- The bytes of a code point stand in the text, behind whatever else. -/
theorem getElem?_of_mem_spread {t : Text} {p : CodePoint} {q : Point} (hp : p ∈ codePoints t)
    (hq : q ∈ spread t p) (a : Text) : (bytes (a ++ t))[byteLength a + q.offset]? = some q.byte := by
  obtain ⟨s, hsplit, hposition, -⟩ := mem_codePoints hp
  obtain ⟨k, hk, rfl⟩ := List.mem_mapIdx.1 hq
  have hk' : k < p.char.utf8Size := by rwa [String.length_utf8EncodeChar] at hk
  have hbyte := getElem?_bytes (a ++ s) p.char p.after hk'
  rw [List.append_assoc, show p.char :: p.after = p.rest from rfl, ← hsplit, byteLength_append, Nat.add_assoc,
    List.getElem?_eq_getElem hk] at hbyte
  have hoffset : offset t p.position = byteLength s := by rw [hposition, hsplit, offset_length]
  rw [hoffset]
  exact hbyte

/-- The walk passes over a character of code. -/
theorem points_code {finish : List Point × Nat → Nat → Checked (List Point)} {a u : Text} {c : Char}
    (hat : Lexeme.at a.getLast? (c :: u) = .code) (found : List Point) (depth : Nat) :
    loop (byteLength (a ++ c :: u)) (pointTurn (bytes (a ++ c :: u))) finish (found, depth) (byteLength a)
      = loop (byteLength (a ++ c :: u)) (pointTurn (bytes (a ++ c :: u))) finish
        ((spread (a ++ c :: u) ⟨a.length, a.getLast?, c, u, if c == ')' then depth - 1 else depth⟩).reverse
            ++ found,
          if c == '(' then depth + 1 else if c == ')' then depth - 1 else depth)
        (byteLength (a ++ [c])) := by
  have hturn : ∀ k < c.utf8Size, ∀ found' : List Point, ∃ b ∈ String.utf8EncodeChar c,
      (String.utf8EncodeChar c)[k]? = some b ∧
      pointTurn (bytes (a ++ c :: u)) (found', depth) (byteLength a + k)
        = .ok (.next (⟨byteLength a + k, b, if c == ')' then depth - 1 else depth⟩ :: found',
          if c == '(' then depth + 1 else if c == ')' then depth - 1 else depth) (byteLength a + k + 1)) := by
    intro k hk found'
    obtain ⟨b, hb, hbyte, hlexeme⟩ := lexemeAt_code hat hk
    refine ⟨b, hb, by rw [← getElem?_bytes a c u hk, hbyte], ?_⟩
    rw [pointTurn, hlexeme]
    simp only [bind, Except.bind, beq_of_mem (d := ')') (by decide) hb, beq_of_mem (d := '(') (by decide) hb]
    rfl
  by_cases hc : c.toNat < 128
  · obtain ⟨b, -, hb, hnext⟩ := hturn 0 c.utf8Size_pos found
    rw [utf8EncodeChar_ascii hc] at hb
    obtain rfl := Option.some.inj hb
    rw [Nat.add_zero] at hnext
    rw [spread_ascii hc, offset_length]
    rw [← byteLength_snoc hc] at hnext
    exact loop_next hnext (byteLength_lt_snoc a c) (byteLength_snoc_le a c u)
  · -- all bytes of another character stand at the same depth
    have hopen : (c == '(') = false := beq_false_of_ne fun h => hc (by rw [h]; decide)
    have hclose : (c == ')') = false := beq_false_of_ne fun h => hc (by rw [h]; decide)
    simp only [hopen, hclose, Bool.false_eq_true, if_false] at hturn ⊢
    have hpass := @loop_pass _ _ (byteLength (a ++ c :: u)) (pointTurn (bytes (a ++ c :: u))) finish
      (byteLength a) (fun k => ((((String.utf8EncodeChar c).take k).mapIdx fun k b =>
        (⟨byteLength a + k, b, depth⟩ : Point)).reverse ++ found, depth)) c.utf8Size ?_ ?_
    · have hlength : byteLength (a ++ [c]) = byteLength a + c.utf8Size := by
        rw [byteLength_append, byteLength_cons, byteLength_nil, Nat.add_zero]
      rw [← String.length_utf8EncodeChar, List.take_length, String.length_utf8EncodeChar, ← hlength] at hpass
      rw [spread, offset_length]
      exact hpass
    · intro k hk
      obtain ⟨b, -, hb, hnext⟩ := hturn k hk _
      rw [hnext, List.take_add_one, hb, Option.toList_some, List.mapIdx_append, List.reverse_append,
        List.length_take, Nat.min_eq_left (by rw [String.length_utf8EncodeChar]; omega)]
      simp
    · rw [byteLength_append, byteLength_cons]
      omega

/-- The walk passes through a text as its characters are read. -/
theorem points_lexes (h : Lexes before ps) :
    ∀ (a : Text) (found : List Point) (depth : Nat), a.getLast? = before →
      loop (byteLength (a ++ source ps)) (pointTurn (bytes (a ++ source ps)))
          (fun state _ => return state.1.reverse) (found, depth) (byteLength a)
        = .ok (found.reverse ++ (codePointsFrom [] 0 a.length depth before (source ps)).flatMap
            (spread (a ++ source ps))) := by
  induction h with
  | nil =>
    intro a found depth _
    rw [source_nil, List.append_nil, loop_end (Nat.le_refl _)]
    simp [codePointsFrom]
    rfl
  | @code before c ps hat h ih =>
    rintro a found depth rfl
    rw [source_cons, List.singleton_append, points_code hat, codePointsFrom_code _ _ hat]
    have hrest := ih (a ++ [c]) ((spread (a ++ c :: source ps) ⟨a.length, a.getLast?, c, source ps,
      if c == ')' then depth - 1 else depth⟩).reverse ++ found)
      (if c == '(' then depth + 1 else if c == ')' then depth - 1 else depth) List.getLast?_concat
    rw [List.append_assoc, List.singleton_append, List.length_append, List.length_singleton] at hrest
    rw [hrest, List.reverse_append, List.reverse_reverse, List.append_assoc, List.flatMap_cons]
  | @literal before c x ps hat h ih =>
    rintro a found depth rfl
    have hturn : pointTurn (bytes (a ++ (c :: x ++ source ps))) (found, depth) (byteLength a)
        = .ok (.next (⟨byteLength a, lead c, depth⟩ :: found, depth) (byteLength (a ++ c :: x))) := by
      rw [pointTurn, lexemeAt_literal hat, byteLength_append]
      rfl
    have hc : c.toNat < 128 := by
      rcases eq_of_at_literal hat with rfl | rfl <;> decide
    have hrest := ih (a ++ c :: x) (⟨byteLength a, lead c, depth⟩ :: found) depth
      (by rw [← lastOr_getLast?, lastOr_cons])
    rw [List.append_assoc, List.length_append, List.length_cons, ← Nat.add_assoc] at hrest
    rw [source_cons, loop_place _ (List.cons_ne_nil c x) hturn, hrest, List.cons_append,
      codePointsFrom_literal _ _ hat, List.flatMap_cons, spread_ascii hc, offset_length, lead_ascii hc,
      List.reverse_cons, List.append_assoc, Nat.add_right_comm]
  | @comment before c x ps hat h ih =>
    rintro a found depth rfl
    have hturn : pointTurn (bytes (a ++ (c :: x ++ source ps))) (found, depth) (byteLength a)
        = .ok (.next (found, depth) (byteLength (a ++ c :: x))) := by
      rw [pointTurn, lexemeAt_comment hat, byteLength_append]
      rfl
    have hrest := ih (a ++ c :: x) found depth (by rw [← lastOr_getLast?, lastOr_cons])
    rw [List.append_assoc, List.length_append, List.length_cons, ← Nat.add_assoc] at hrest
    rw [source_cons, loop_place _ (List.cons_ne_nil c x) hturn, hrest, List.cons_append,
      codePointsFrom_comment _ _ hat, Nat.add_right_comm]

/-- **The code points of the bytes are the bytes of the code points.** -/
theorem points_eq (t : Text) : points t = .ok ((codePoints t).flatMap (spread t)) := by
  obtain ⟨ps, h, rfl⟩ := exists_lexes t.length t none (Nat.le_refl _)
  exact points_lexes h [] [] 0 rfl

end Points

end CanonicalVhdl.Bytewise
