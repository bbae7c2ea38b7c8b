import CanonicalVhdl.Proofs.Bytewise.Lexeme
import CanonicalVhdl.Proofs.Search.Word

/-!
# Tokens in the bytes of a text

Blanks and comments are passed over from a byte offset on, and the word, literal or character behind
them is the next token.  What a word opens is decided by the tokens behind it, or by what stands
before the next semicolon.

## Main definitions

* `Bytewise.skipTrivia` — past blanks and comments.
* `Bytewise.nextToken` — the next token and where it ends.
* `Bytewise.opensConstruct` — whether a word opens a construct.

## Main statements

* `Bytewise.skipTrivia_eq`, `Bytewise.nextToken_cases`, `Bytewise.opensConstruct_eq` — the bytes
  answer what the characters answer.
-/

namespace CanonicalVhdl.Bytewise

open Text Token

/-! ## Blanks and comments -/

/-- One turn of the walk through blanks and comments. -/
def triviaTurn (bs : List UInt8) (_ : Unit) (i : Nat) : Checked (Turn Unit Nat) := do
  if isBlankByte (← byteAt bs i) then return .next () (i + 1)
  else
    match (← lexemeAt bs i).2 with
    | .comment n => return .next () (i + n)
    | .literal _ => return .done i
    | .code => return .done i

/-- The offset behind the blanks and comments that follow an offset. -/
def skipTrivia (t : Text) (start : Nat) : Checked Nat :=
  loop (byteLength t) (triviaTurn (bytes t)) (fun _ i => return i) () start

/-- The place behind some characters of a text. -/
def placeBehind (a u : Text) : Place :=
  ⟨a.length, a.getLast?, u⟩

/-- Whether a place is one of a text. -/
def IsPlace (t : Text) (p : Place) : Prop :=
  ∃ a u, t = a ++ u ∧ p = placeBehind a u

section Trivia

/-- A blank is passed over. -/
theorem skipTrivia_blank {c : Char} (hc : isAsciiBlank c = true) (a u : Text) :
    Text.skipTrivia (placeBehind a (c :: u)) = Text.skipTrivia (placeBehind (a ++ [c]) u) := by
  rw [Text.skipTrivia, placeBehind, triviaEnd, if_neg Bool.false_ne_true, if_pos hc, Text.skipTrivia, placeBehind,
    List.getLast?_concat, List.length_append, List.length_singleton]

theorem isAscii_of_isAsciiBlank {c : Char} (h : isAsciiBlank c = true) : c.toNat < 128 := by
  simp only [isAsciiBlank, Bool.or_eq_true, beq_iff_eq] at h
  rcases h with (((rfl | rfl) | rfl) | rfl) | rfl <;> decide

/-- **The bytes pass over the blanks and comments that the characters pass over.** -/
theorem skipTrivia_cases (n : Nat) :
    ∀ a u : Text, u.length < n → ∃ g v, u = g ++ v ∧
      Text.skipTrivia (placeBehind a u) = placeBehind (a ++ g) v ∧
      skipTrivia (a ++ u) (byteLength a) = .ok (byteLength (a ++ g)) := by
  induction n with
  | zero => exact fun _ _ hu => absurd hu (Nat.not_lt_zero _)
  | succ n ih =>
    intro a u hu
    -- the walk goes on behind a blank or a comment
    have onward : ∀ x r : Text, u = x ++ r → x ≠ [] →
        triviaTurn (bytes (a ++ (x ++ r))) () (byteLength a) = .ok (.next () (byteLength (a ++ x))) →
        Text.skipTrivia (placeBehind a (x ++ r)) = Text.skipTrivia (placeBehind (a ++ x) r) →
        ∃ g v, u = g ++ v ∧ Text.skipTrivia (placeBehind a u) = placeBehind (a ++ g) v ∧
          skipTrivia (a ++ u) (byteLength a) = .ok (byteLength (a ++ g)) := by
      rintro x r rfl hx hturn hplace
      have hlength := List.length_pos_of_ne_nil hx
      rw [List.length_append] at hu
      obtain ⟨g, v, rfl, hskip, hloop⟩ := ih (a ++ x) r (by omega)
      rw [List.append_assoc] at hskip hloop
      rw [List.append_assoc, skipTrivia, ← loop_place _ hx hturn] at hloop
      exact ⟨x ++ g, v, (List.append_assoc x g v).symm, hplace.trans hskip, hloop⟩
    cases u with
    | nil =>
      refine ⟨[], [], rfl, by rw [List.append_nil]; rfl, ?_⟩
      rw [List.append_nil, skipTrivia, loop_end (Nat.le_refl _)]
      rfl
    | cons c u =>
      have hbyte : byteAt (bytes (a ++ c :: u)) (byteLength a) = .ok (lead c) := byteAt_eq (getElem?_place a _)
      by_cases hblank : isAsciiBlank c = true
      · refine onward [c] u rfl (List.cons_ne_nil c []) ?_ (skipTrivia_blank hblank a u)
        rw [List.singleton_append, triviaTurn, hbyte, byteLength_snoc (isAscii_of_isAsciiBlank hblank)]
        simp only [bind, Except.bind, isBlankByte_of_mem (lead_mem c), hblank, if_true]
        rfl
      · have hstay : ∀ l, lexemeAt (bytes (a ++ c :: u)) (byteLength a) = .ok (lead c, l) →
            (∀ m, l ≠ .comment m) →
            triviaTurn (bytes (a ++ c :: u)) () (byteLength a) = .ok (.done (byteLength a)) := by
          intro l hl hcomment
          rw [triviaTurn, hbyte, hl]
          simp only [bind, Except.bind, isBlankByte_of_mem (lead_mem c), hblank, Bool.false_eq_true, if_false]
          cases l with
          | comment m => exact absurd rfl (hcomment m)
          | literal m => rfl
          | code => rfl
        have hlexeme := lexemeAt_eq a c u
        have here : Text.skipTrivia (placeBehind a (c :: u)) = placeBehind a (c :: u) →
            triviaTurn (bytes (a ++ c :: u)) () (byteLength a) = .ok (.done (byteLength a)) →
            ∃ g v, c :: u = g ++ v ∧ Text.skipTrivia (placeBehind a (c :: u)) = placeBehind (a ++ g) v ∧
              skipTrivia (a ++ c :: u) (byteLength a) = .ok (byteLength (a ++ g)) := by
          intro hplace hturn
          refine ⟨[], c :: u, rfl, by rwa [List.append_nil], ?_⟩
          rw [List.append_nil, skipTrivia, loop_answer u hturn]
        obtain hat | ⟨x, r, rfl, hat | hat⟩ := at_split a.getLast? c u
        · rw [hat] at hlexeme
          exact here (skipTrivia_code (eq_false_of_ne_true hblank) hat _) (hstay _ hlexeme (by simp [measured]))
        · refine onward (c :: x) r rfl (List.cons_ne_nil c x) ?_ ?_
          · rw [triviaTurn, List.cons_append, hbyte, ← List.cons_append, lexemeAt_comment hat,
              byteLength_append a]
            simp only [bind, Except.bind, isBlankByte_of_mem (lead_mem c), hblank, Bool.false_eq_true, if_false]
            rfl
          · rw [placeBehind, List.cons_append, skipTrivia_of_comment hat, placeBehind, List.length_append,
              List.length_cons, ← lastOr_getLast?, lastOr_cons, Nat.add_assoc, Nat.add_comm 1]
        · rw [hat] at hlexeme
          refine here ?_ (hstay _ hlexeme (by simp [measured]))
          rcases eq_of_at_literal hat with rfl | rfl <;> rfl

/-- The bytes pass over the blanks and comments behind a place. -/
theorem skipTrivia_eq {t : Text} {p : Place} (h : IsPlace t p) :
    skipTrivia t (offset t p.passed) = .ok (offset t (Text.skipTrivia p).passed) ∧
      IsPlace t (Text.skipTrivia p) := by
  obtain ⟨a, u, rfl, rfl⟩ := h
  obtain ⟨g, v, rfl, hplace, hskip⟩ := skipTrivia_cases (u.length + 1) a u (Nat.lt_succ_self _)
  rw [hplace, show (placeBehind a (g ++ v)).passed = a.length from rfl, offset_length, hskip,
    ← List.append_assoc, show (placeBehind (a ++ g) v).passed = (a ++ g).length from rfl, offset_length]
  exact ⟨rfl, a ++ g, v, rfl, rfl⟩

end Trivia

/-! ## Tokens -/

/-- Where the character at an offset ends. -/
def charEnd (t : Text) (start : Nat) : Checked Nat := do
  let rest ← part t start (byteLength t)
  return start + rest.head?.elim 1 Char.utf8Size

/-- Where the token ends that starts at an offset. -/
def tokenEnd (t : Text) (start : Nat) : Checked Nat := do
  let (b, lexeme) ← lexemeAt (bytes t) start
  match lexeme with
  | .literal n => return start + n
  | .code => if isIdentByte b then wordEnd (bytes t) start else charEnd t start
  | .comment _ => charEnd t start

/-- The next token after blanks and comments, and the offset where it ends. -/
def nextToken (t : Text) (start : Nat) : Checked (Option (Text × Nat)) := do
  let start ← skipTrivia t start
  if byteLength t ≤ start then return none
  else
    let stop ← tokenEnd t start
    return (slice? t start stop).map fun token => (token, stop)

/-- The token after another one. -/
def tokenBehind (t : Text) : Option (Text × Nat) → Checked (Option (Text × Nat))
  | none => return none
  | some (_, stop) => nextToken t stop

/-- Whether there is a token and it is a word, in either case. -/
def tokenIs (word : String) (token : Option (Text × Nat)) : Bool :=
  token.any fun p => sameWord word.toList p.1

section Tokens

variable {t : Text} {p q : Place} {token : Text}

/-- A token, and the offset where it ends. -/
def marked (t : Text) (token : Text × Place) : Text × Nat :=
  (token.1, offset t token.2.passed)

theorem advance_append (a x v : Text) :
    advance x.length (placeBehind a (x ++ v)) = placeBehind (a ++ x) v := by
  rw [advance, placeBehind, placeBehind, List.take_left, List.drop_left, List.length_append, List.getLast?_append]

theorem charEnd_eq (a : Text) (c : Char) (u : Text) :
    charEnd (a ++ c :: u) (byteLength a) = .ok (byteLength (a ++ [c])) := by
  rw [charEnd, part_back, byteLength_append]
  exact congrArg (fun n => Except.ok (byteLength a + n)) (Nat.zero_add _).symm

/-- **A token ends at the same place** for the bytes as for the characters. -/
theorem tokenEnd_eq (a : Text) (c : Char) (u : Text) :
    tokenEnd (a ++ c :: u) (byteLength a)
      = .ok (byteLength (a ++ (c :: u).take (tokenLength a.getLast? c u))) := by
  rw [tokenEnd, lexemeAt_eq, tokenLength]
  simp only [bind, Except.bind]
  cases hat : Lexeme.at a.getLast? (c :: u) with
  | literal n => exact congrArg Except.ok (byteLength_append a _).symm
  | comment n =>
    obtain ⟨y, r, heq, -⟩ := exists_comment hat
    obtain ⟨rfl, -⟩ := List.cons.inj heq
    exact charEnd_eq a '-' u
  | code =>
    simp only [measured, isIdentByte_of_mem (lead_mem c)]
    by_cases hc : isIdentChar c = true
    · have htake : (c :: u).take ((c :: u).takeWhile isIdentChar).length = (c :: u).takeWhile isIdentChar :=
        (List.prefix_iff_eq_take.1 (List.takeWhile_prefix isIdentChar)).symm
      rw [if_pos hc, if_pos hc, wordEnd_eq, htake]
    · rw [if_neg hc, if_neg hc, charEnd_eq]
      rfl

/-- **The bytes tell the next token** of the characters, and where it ends. -/
theorem nextToken_eq (h : IsPlace t p) :
    nextToken t (offset t p.passed) = .ok ((nextToken? p).map (marked t)) ∧
      ∀ token q, nextToken? p = some (token, q) → IsPlace t q := by
  obtain ⟨hskip, a, u, rfl, hplace⟩ := skipTrivia_eq h
  rw [nextToken, hskip, hplace, show (placeBehind a u).passed = a.length from rfl, offset_length]
  simp only [bind, Except.bind]
  cases u with
  | nil =>
    have hnone : nextToken? p = none := by
      rw [nextToken?, hplace]
      rfl
    rw [hnone, if_pos (by rw [List.append_nil])]
    exact ⟨rfl, by simp⟩
  | cons c u =>
    have hle : ¬ byteLength (a ++ c :: u) ≤ byteLength a := by
      have := byteLength_lt_snoc a c
      have := byteLength_snoc_le a c u
      omega
    rw [if_neg hle, tokenEnd_eq, nextToken?_of_skipTrivia hplace]
    obtain ⟨x, v, hsplit, hn⟩ : ∃ x v, c :: u = x ++ v ∧ x.length = tokenLength a.getLast? c u := by
      refine ⟨_, _, (List.take_append_drop (tokenLength a.getLast? c u) (c :: u)).symm, ?_⟩
      rw [List.length_take, List.length_cons, Nat.min_eq_left (tokenLength_le _ c u)]
    have hslice : slice? (a ++ (x ++ v)) (byteLength a) (byteLength (a ++ x)) = some x :=
      slice?_eq_some_iff.2 ⟨a, v, rfl, rfl, rfl⟩
    rw [← hn, hsplit, List.take_left, show Place.mk a.length a.getLast? (x ++ v) = placeBehind a (x ++ v)
      from rfl, advance_append]
    simp only [hslice]
    refine ⟨?_, ?_⟩
    · rw [Option.map_some, Option.map_some, marked, ← List.append_assoc,
        show (placeBehind (a ++ x) v).passed = (a ++ x).length from rfl, offset_length]
      rfl
    · rintro token q hq
      obtain ⟨rfl, rfl⟩ := Prod.mk.inj (Option.some.inj hq)
      exact ⟨a ++ x, v, (List.append_assoc a x v).symm, rfl⟩

/-- The token after another one. -/
theorem tokenBehind_eq (h : IsPlace t p) :
    tokenBehind t ((nextToken? p).map (marked t))
      = .ok (((nextToken? p).bind fun token => nextToken? token.2).map (marked t)) := by
  cases hnext : nextToken? p with
  | none => rfl
  | some token => exact (nextToken_eq ((nextToken_eq h).2 token.1 token.2 hnext)).1

theorem tokenIs_marked (word : String) (t : Text) (token : Option (Text × Place)) :
    tokenIs word (token.map (marked t)) = token.any fun token => sameWord word.toList token.1 := by
  cases token <;> rfl

/-- Whether the first of some tokens is a word. -/
theorem headed_nextTokens (word : String) (n : Nat) (p : Place) :
    headed [word] (nextTokens (n + 1) p) = (nextToken? p).any fun token => sameWord word.toList token.1 := by
  rw [nextTokens]
  cases nextToken? p with
  | none => rfl
  | some token => simp [headed]

/-- The tokens behind the first one. -/
theorem drop_nextTokens (n : Nat) (p : Place) :
    (nextTokens (n + 1) p).drop 1 = ((nextToken? p).map fun token => nextTokens n token.2).getD [] := by
  rw [nextTokens]
  cases nextToken? p <;> rfl

/-- Whether the second of some tokens is a word. -/
theorem headed_drop_nextTokens (word : String) (n : Nat) (p : Place) :
    headed [word] ((nextTokens (n + 2) p).drop 1)
      = ((nextToken? p).bind fun token => nextToken? token.2).any fun token => sameWord word.toList token.1 := by
  rw [drop_nextTokens]
  cases nextToken? p with
  | none => rfl
  | some token => exact headed_nextTokens word n token.2

end Tokens

/-! ## Words that open a construct -/

/-- Whether the word `is` stands at an offset of the rest of a text. -/
def isIsAt (t : Text) (start : Nat) (rest : Text) (i : Nat) : Checked Bool := do
  if ← startsWordAt (bytes t) (start + i) then
    if (← wordEnd (bytes t) (start + i)) == start + i + 2 then
      return sameWord "is".toList (← part rest i (i + 2))
    else return false
  else return false

/-- Whether the word `is` stands outside parentheses at one of some points, before any semicolon. -/
def isAmong (t : Text) (start : Nat) (rest : Text) : List Point → Checked Bool
  | [] => return false
  | p :: ps => do
    if p.depth != 0 then isAmong t start rest ps
    else if p.byte == ';'.toUInt8 then return false
    else if ← isIsAt t start rest p.offset then return true
    else isAmong t start rest ps

/-- Whether the word `is` stands outside parentheses before the next semicolon. -/
def isBeforeSemicolon (t : Text) (start : Nat) : Checked Bool := do
  match slice? t start (byteLength t) with
  | none => return false
  | some rest => isAmong t start rest (← points rest)

/-- Whether what follows the word `component` is the declaration of one. -/
def opensComponent (t : Text) (after : Nat) : Checked Bool := do
  match ← nextToken t after with
  | none => return false
  | some (_, stop) =>
    let first ← nextToken t stop
    let next ← if tokenIs "is" first then tokenBehind t first else pure first
    if tokenIs "port" next || tokenIs "generic" next then return !tokenIs "map" (← tokenBehind t next)
    else return tokenIs "end" next

/-- Whether a word opens a construct that a clause with `end` closes. -/
def opensConstruct (t word : Text) (after : Nat) : Checked Bool := do
  if constructWords.any (sameWord word) then return true
  else if sameWord word "component".toList then opensComponent t after
  else if sameWord word "function".toList || sameWord word "procedure".toList then isBeforeSemicolon t after
  else if sameWord word "entity".toList then
    return tokenIs "is" (← tokenBehind t (← nextToken t after))
  else if sameWord word "package".toList then
    let first ← nextToken t after
    let second ← tokenBehind t first
    if tokenIs "body" first then return tokenIs "is" (← tokenBehind t second) else return tokenIs "is" second
  else return false

section Constructs

variable {t : Text} {p : Place}

/-- The token after the next one. -/
theorem tokenBehind_second (h : IsPlace t p) :
    tokenBehind t (((nextToken? p).bind fun token => nextToken? token.2).map (marked t))
      = .ok ((((nextToken? p).bind fun token => nextToken? token.2).bind fun token =>
          nextToken? token.2).map (marked t)) := by
  cases hnext : nextToken? p with
  | none => rfl
  | some token => exact tokenBehind_eq ((nextToken_eq h).2 token.1 token.2 hnext)

/-- What some tokens behind a component's name open, by the first two of them. -/
theorem opensComponent_nextTokens (n : Nat) (p : Place) :
    Text.opensComponent (nextTokens (n + 2) p)
      = if ((nextToken? p).any fun token => sameWord "port".toList token.1)
          || (nextToken? p).any fun token => sameWord "generic".toList token.1 then
          !((nextToken? p).bind fun token => nextToken? token.2).any fun token => sameWord "map".toList token.1
        else (nextToken? p).any fun token => sameWord "end".toList token.1 := by
  rw [Text.opensComponent, headed_nextTokens, headed_nextTokens, headed_nextTokens, headed_drop_nextTokens]
  cases hnext : nextToken? p with
  | none => rfl
  | some token =>
    simp only [Option.any_some]
    -- no token is two words
    by_cases hword : (sameWord "port".toList token.1 || sameWord "generic".toList token.1) = true
    · have hend : sameWord "end".toList token.1 = false := by
        rw [Bool.eq_false_iff, Ne, sameWord_iff]
        intro hend
        rw [Bool.or_eq_true, sameWord_iff, sameWord_iff, ← hend] at hword
        exact absurd hword (by decide)
      rw [if_pos hword, hword, hend, Bool.true_and, Bool.false_or]
    · rw [if_neg hword, eq_false_of_ne_true hword, Bool.false_and, Bool.or_false]

/-- **A component is declared** for the bytes where it is for the characters. -/
theorem opensComponent_eq (h : IsPlace t p) :
    opensComponent t (offset t p.passed)
      = .ok (match nextTokens 4 p with
        | [] => false
        | _ :: body => Text.opensComponent (if headed ["is"] body then body.drop 1 else body)) := by
  rw [opensComponent, (nextToken_eq h).1, nextTokens]
  cases hname : nextToken? p with
  | none => rfl
  | some name =>
    obtain ⟨x, q⟩ := name
    have hq := (nextToken_eq h).2 x q hname
    simp only [Option.map_some, marked, bind, Except.bind, (nextToken_eq hq).1, tokenIs_marked]
    rw [headed_nextTokens "is" 2 q]
    by_cases his : ((nextToken? q).any fun token => sameWord "is".toList token.1) = true
    · obtain ⟨⟨y, r⟩, hnext, -⟩ := (Option.any_eq_true _ _).1 his
      have hr := (nextToken_eq hq).2 y r hnext
      have hbehind := tokenBehind_eq hq
      rw [hnext, Option.map_some, Option.bind_some] at hbehind
      rw [if_pos his, if_pos his, drop_nextTokens, hnext]
      simp only [hbehind, tokenIs_marked, tokenBehind_eq hr, Option.map_some, Option.getD_some,
        opensComponent_nextTokens 0 r]
      split <;> rfl
    · rw [if_neg his, if_neg his]
      simp only [tokenIs_marked, tokenBehind_eq hq, pure, Except.pure, opensComponent_nextTokens 1 q]
      split <;> rfl

/-- Identifier characters take one byte each. -/
theorem byteLength_eq_length {w : Text} (hw : w.all isIdentChar = true) : byteLength w = w.length := by
  induction w with
  | nil => rfl
  | cons c w ih =>
    rw [List.all_cons, Bool.and_eq_true] at hw
    rw [byteLength_cons, utf8Size_eq_one (toNat_lt_of_isIdentChar hw.1), ih hw.2, List.length_cons, Nat.add_comm]

/-- Where a word of identifier characters stands whole, it is all of them that stand there. -/
theorem isSome_wholeWord?_run {w : Text} (hw : IsRun w) {before : Option Char} {u : Text} :
    (wholeWord? true w before u).isSome = true
      ↔ before.any isIdentChar = false ∧ sameWord w (u.takeWhile isIdentChar) = true := by
  rw [Option.isSome_iff_exists]
  constructor
  · rintro ⟨b, hb⟩
    obtain ⟨-, hbefore, x, rfl, hspells, hbehind⟩ := wholeWord?_eq_some_iff.1 hb
    rw [takeWhile_isIdentChar (hspells.all_isIdentChar hw.ident) hbehind]
    exact ⟨hbefore, hspells⟩
  · rintro ⟨hbefore, hspells⟩
    exact ⟨u.dropWhile isIdentChar, wholeWord?_eq_some_iff.2 ⟨hw.ne_nil, hbefore, u.takeWhile isIdentChar,
      (List.takeWhile_append_dropWhile).symm, hspells, any_head?_dropWhile isIdentChar u⟩⟩

/-- The word `is` stands at a place if the identifier characters there are that word, and none precedes
them. -/
theorem isIsAt_place (a s : Text) (c : Char) (u : Text) :
    isIsAt (a ++ (s ++ c :: u)) (byteLength a) (s ++ c :: u) (byteLength s)
      = .ok (!(a ++ s).getLast?.any isIdentChar && sameWord "is".toList ((c :: u).takeWhile isIdentChar)) := by
  have hstarts := startsWordAt_eq (a ++ s) c u
  have hend := wordEnd_eq (a ++ s) (c :: u)
  have hall : ((c :: u).takeWhile isIdentChar).all isIdentChar = true := List.all_takeWhile
  have hpart := part_between s ((c :: u).takeWhile isIdentChar) ((c :: u).dropWhile isIdentChar)
  rw [List.append_assoc] at hstarts hend
  rw [List.takeWhile_append_dropWhile, byteLength_append, byteLength_eq_length hall] at hpart
  rw [byteLength_append (a ++ s), byteLength_eq_length hall] at hend
  rw [isIsAt, ← byteLength_append, hstarts]
  cases (a ++ s).getLast?.any isIdentChar with
  | true =>
    rw [Bool.not_true, Bool.and_false, Bool.false_and]
    rfl
  | false =>
    by_cases hc : isIdentChar c = true
    · simp only [bind, Except.bind, hc, Bool.not_false, Bool.and_self, if_true, hend, Bool.true_and]
      by_cases htwo : ((c :: u).takeWhile isIdentChar).length = 2
      · rw [htwo] at hpart ⊢
        rw [beq_self_eq_true, if_pos rfl, hpart]
        rfl
      · have hother : sameWord "is".toList ((c :: u).takeWhile isIdentChar) = false :=
          eq_false_of_ne_true fun h => htwo (length_eq_of_sameWord h).symm
        rw [beq_false_of_ne (by omega), hother]
        rfl
    · rw [eq_false_of_ne_true hc, List.takeWhile_cons_of_neg hc]
      rfl

/-- **The word `is` stands** for the bytes where it stands for the characters of the rest of a text
that does not start inside a word. -/
theorem isIsAt_eq {a rest : Text} (hrest : rest.head?.any isIdentChar = false) {p : CodePoint}
    (hp : p ∈ codePoints rest) :
    isIsAt (a ++ rest) (byteLength a) rest (offset rest p.position) = .ok (matchesAt "is".toList p) := by
  obtain ⟨s, hsplit, hposition, hbefore, -⟩ := mem_codePoints hp
  have hoffset : offset rest p.position = byteLength s := by rw [hposition, hsplit, offset_length]
  have hplace := isIsAt_place a s p.char p.after
  rw [show p.char :: p.after = p.rest from rfl, ← hsplit, ← hoffset] at hplace
  have hmatches : matchesAt "is".toList p
      = (!p.before.any isIdentChar && sameWord "is".toList (p.rest.takeWhile isIdentChar)) := by
    rw [matchesAt_eq_standsAt, standsAt_alpha rfl, Bool.eq_iff_iff, isSome_wholeWord?_run (by decide),
      Bool.and_eq_true, Bool.not_eq_true']
  rw [hplace, hmatches, hbefore]
  cases s with
  | nil =>
    -- a text that starts with another character does not start with the word
    have hnone : p.rest.takeWhile isIdentChar = [] := by
      rw [hsplit, List.nil_append, CodePoint.rest, List.head?_cons, Option.any_some] at hrest
      rw [CodePoint.rest, List.takeWhile_cons_of_neg (by simp [hrest])]
    rw [hnone, show sameWord "is".toList [] = false from rfl, Bool.and_false, Bool.and_false]
  | cons d s =>
    rw [lastOr_of_ne_nil (List.cons_ne_nil d s), List.getLast?_append_of_ne_nil _ (List.cons_ne_nil d s)]

/-- Points that are no semicolon and start no word are passed over. -/
theorem isAmong_append {t rest : Text} {start : Nat} {qs : List Point}
    (h : ∀ q ∈ qs, (q.byte == ';'.toUInt8) = false ∧ isIsAt t start rest q.offset = .ok false)
    (ps : List Point) : isAmong t start rest (qs ++ ps) = isAmong t start rest ps := by
  induction qs with
  | nil => rfl
  | cons q qs ih =>
    obtain ⟨⟨hsemi, hword⟩, hqs⟩ := List.forall_mem_cons.1 h
    rw [List.cons_append, isAmong, hsemi, hword]
    simp only [bind, Except.bind, Bool.false_eq_true, if_false, ite_self]
    exact ih hqs

/-- **The word `is` stands among the bytes** before a semicolon where it stands so among the
characters. -/
theorem isAmong_eq {a rest : Text} (hrest : rest.head?.any isIdentChar = false) {ps : List CodePoint}
    (hps : ∀ p ∈ ps, p ∈ codePoints rest) :
    isAmong (a ++ rest) (byteLength a) rest (ps.flatMap (spread rest))
      = .ok ((ps.find? fun p => p.depth == 0 && (p.char == ';' || matchesAt "is".toList p)).any
          fun p => p.char != ';') := by
  induction ps with
  | nil => rfl
  | cons p ps ih =>
    obtain ⟨hp, hps⟩ := List.forall_mem_cons.1 hps
    have hmatches := isIsAt_eq (a := a) hrest hp
    rw [List.flatMap_cons, find?_cons_ite]
    by_cases hascii : p.char.toNat < 128
    · rw [spread_ascii hascii, List.singleton_append, isAmong, toUInt8_beq hascii (by decide), hmatches]
      by_cases hdepth : p.depth = 0
      · simp only [hdepth, bne_self_eq_false, Bool.false_eq_true, if_false, beq_self_eq_true, Bool.true_and]
        by_cases hsemi : p.char = ';'
        · rw [hsemi, beq_self_eq_true, Bool.true_or, if_pos rfl, if_pos rfl, Option.any_some, hsemi]
          rfl
        · rw [beq_false_of_ne hsemi, if_neg Bool.false_ne_true, Bool.false_or]
          cases hword : matchesAt "is".toList p with
          | true =>
            rw [if_pos rfl, Option.any_some, bne_iff_ne.2 hsemi]
            rfl
          | false =>
            simp only [bind, Except.bind, Bool.false_eq_true, if_false]
            exact ih hps
      · rw [bne_iff_ne.2 hdepth, if_pos rfl, beq_false_of_ne hdepth, Bool.false_and, if_neg Bool.false_ne_true]
        exact ih hps
    · -- no byte of another character is a semicolon or starts a word
      have hident : isIdentChar p.char = false :=
        eq_false_of_ne_true fun h => hascii (toNat_lt_of_isIdentChar h)
      have hsemi : p.char ≠ ';' := fun h => hascii (by rw [h]; decide)
      have hpass : ∀ q ∈ spread rest p, (q.byte == ';'.toUInt8) = false ∧
          isIsAt (a ++ rest) (byteLength a) rest q.offset = .ok false := by
        intro q hq
        have hmem := byte_mem_of_mem_spread hq
        have hbyte := startsWordAt_byte (getElem?_of_mem_spread hp hq a) ((isIdentByte_of_mem hmem).trans hident)
        refine ⟨(beq_of_mem (by decide) hmem).trans (beq_false_of_ne hsemi), ?_⟩
        rw [isIsAt, hbyte]
        rfl
      have hnone : matchesAt "is".toList p = false := by
        obtain ⟨b, x, hx⟩ := List.exists_cons_of_ne_nil (String.utf8EncodeChar_ne_nil (c := p.char))
        have hfirst : (⟨offset rest p.position + 0, b, p.depth⟩ : Point) ∈ spread rest p := by
          rw [spread, hx, List.mapIdx_cons]
          exact List.mem_cons_self
        exact (Except.ok.inj ((hpass _ hfirst).2.symm.trans hmatches)).symm
      rw [isAmong_append hpass, hnone, beq_false_of_ne hsemi, Bool.or_false, Bool.and_false,
        if_neg Bool.false_ne_true]
      exact ih hps

/-- The word `is` stands before the next semicolon for the bytes where it does for the characters. -/
theorem isBeforeSemicolon_eq (a : Text) {rest : Text} (hrest : rest.head?.any isIdentChar = false) :
    isBeforeSemicolon (a ++ rest) (byteLength a) = .ok (Text.isBeforeSemicolon rest) := by
  have hslice : slice? (a ++ rest) (byteLength a) (byteLength (a ++ rest)) = some rest :=
    slice?_eq_some_iff.2 ⟨a, [], by rw [List.append_nil], rfl, rfl⟩
  rw [isBeforeSemicolon, hslice, Text.isBeforeSemicolon, findPoint?_eq_find?]
  simp only [points_eq, bind, Except.bind]
  exact isAmong_eq hrest fun _ hp => hp

/-- **A word opens a construct** for the bytes where it does for the characters. -/
theorem opensConstruct_eq (word a : Text) {rest : Text} (hrest : rest.head?.any isIdentChar = false) :
    opensConstruct (a ++ rest) word (byteLength a)
      = .ok (Text.opensConstruct word (placeBehind a rest)) := by
  have hplace : IsPlace (a ++ rest) (placeBehind a rest) := ⟨a, rest, rfl, rfl⟩
  have hoffset : byteLength a = offset (a ++ rest) (placeBehind a rest).passed := (offset_length a rest).symm
  rw [opensConstruct, Text.opensConstruct, isBeforeSemicolon_eq a hrest, hoffset]
  split
  · rfl
  split
  · exact opensComponent_eq hplace
  split
  · rfl
  simp only [(nextToken_eq hplace).1, bind, Except.bind, tokenBehind_eq hplace, tokenBehind_second hplace,
    tokenIs_marked]
  split
  · rw [headed_drop_nextTokens "is" 0]
    rfl
  split
  · have hthird : headed ["is"] ((nextTokens 3 (placeBehind a rest)).drop 2)
        = (((nextToken? (placeBehind a rest)).bind fun token => nextToken? token.2).bind fun token =>
            nextToken? token.2).any fun token => sameWord "is".toList token.1 := by
      rw [← List.drop_drop (j := 1) (i := 1), drop_nextTokens]
      cases nextToken? (placeBehind a rest) with
      | none => rfl
      | some token => exact headed_drop_nextTokens "is" 0 token.2
    rw [headed_nextTokens "body" 2, headed_drop_nextTokens "is" 1, hthird]
    split <;> rfl
  · rfl

/-! ### Places inside a word

A search for the word that starts inside a word is not what reads a construct, but it answers as well. -/

theorem exists_isIsAt (a : Text) {rest : Text} {c : CodePoint} (hc : c ∈ codePoints rest) {q : Point}
    (hq : q ∈ spread rest c) : ∃ b, isIsAt (a ++ rest) (byteLength a) rest q.offset = .ok b := by
  by_cases hident : isIdentChar c.char = true
  · obtain ⟨s, hsplit, hposition, -⟩ := mem_codePoints hc
    have hoffset : offset rest c.position = byteLength s := by rw [hposition, hsplit, offset_length]
    have hplace := isIsAt_place a s c.char c.after
    rw [show c.char :: c.after = c.rest from rfl, ← hsplit, ← hoffset] at hplace
    rw [spread_ascii (toNat_lt_of_isIdentChar hident), List.mem_singleton] at hq
    rw [hq]
    exact ⟨_, hplace⟩
  · have hbyte := startsWordAt_byte (getElem?_of_mem_spread hc hq a)
      ((isIdentByte_of_mem (byte_mem_of_mem_spread hq)).trans (eq_false_of_ne_true hident))
    refine ⟨false, ?_⟩
    rw [isIsAt, hbyte]
    rfl

theorem exists_isAmong {t rest : Text} {start : Nat} {qs : List Point}
    (h : ∀ q ∈ qs, ∃ b, isIsAt t start rest q.offset = .ok b) : ∃ b, isAmong t start rest qs = .ok b := by
  induction qs with
  | nil => exact ⟨false, rfl⟩
  | cons q qs ih =>
    obtain ⟨⟨b, hb⟩, hqs⟩ := List.forall_mem_cons.1 h
    obtain ⟨b', hb'⟩ := ih hqs
    rw [isAmong, hb, hb']
    split
    · exact ⟨b', rfl⟩
    · split
      · exact ⟨false, rfl⟩
      · cases b with
        | true => exact ⟨true, rfl⟩
        | false => exact ⟨b', rfl⟩

/-- Whether the word `is` stands before the next semicolon is answered at every place. -/
theorem exists_isBeforeSemicolon (a rest : Text) :
    ∃ b, isBeforeSemicolon (a ++ rest) (byteLength a) = .ok b := by
  have hslice : slice? (a ++ rest) (byteLength a) (byteLength (a ++ rest)) = some rest :=
    slice?_eq_some_iff.2 ⟨a, [], by rw [List.append_nil], rfl, rfl⟩
  rw [isBeforeSemicolon, hslice]
  simp only [points_eq, bind, Except.bind]
  apply exists_isAmong
  intro q hq
  obtain ⟨c, hc, hq⟩ := List.mem_flatMap.1 hq
  exact exists_isIsAt a hc hq

/-- Whether a word opens a construct is answered at every place. -/
theorem exists_opensConstruct (word a rest : Text) :
    ∃ b, opensConstruct (a ++ rest) word (byteLength a) = .ok b := by
  have hplace : IsPlace (a ++ rest) (placeBehind a rest) := ⟨a, rest, rfl, rfl⟩
  have hoffset : byteLength a = offset (a ++ rest) (placeBehind a rest).passed := (offset_length a rest).symm
  rw [opensConstruct]
  split
  · exact ⟨true, rfl⟩
  split
  · rw [hoffset]
    exact ⟨_, opensComponent_eq hplace⟩
  split
  · exact exists_isBeforeSemicolon a rest
  rw [hoffset]
  simp only [(nextToken_eq hplace).1, bind, Except.bind, tokenBehind_eq hplace, tokenBehind_second hplace]
  split
  · exact ⟨_, rfl⟩
  split
  · split <;> exact ⟨_, rfl⟩
  · exact ⟨false, rfl⟩

end Constructs

end CanonicalVhdl.Bytewise
