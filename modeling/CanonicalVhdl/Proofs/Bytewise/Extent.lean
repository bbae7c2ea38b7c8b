import CanonicalVhdl.Proofs.Bytewise.Ends
import CanonicalVhdl.Proofs.Bytewise.Token

/-!
# Extents in the bytes of a text

A statement ends at a semicolon, and what is stepped over in front of it are whole literals,
comments and words, or single bytes.  The offset behind the semicolon lies between characters, so a
region can be cut there and read on.

## Main definitions

* `Bytewise.constructEnd` — where the statement or construct at the head of a text ends.
* `Bytewise.findClause` — the first statement that begins with one of some words.
* `Bytewise.splitPieces` — the pieces of a region.

## Main statements

* `Bytewise.constructEnd_eq`, `Bytewise.findClause_eq`, `Bytewise.splitPieces_eq` — the bytes answer
  what the characters answer.
-/

namespace CanonicalVhdl.Bytewise

open Text Token

/-! ## The end of a construct -/

/-- The state after a word outside parentheses; `none` for an `end` too many. -/
def wordStep (t word : Text) (after : Nat) (s : Nesting) : Checked (Option Nesting) := do
  let eq (k : String) := sameWord word k.toList
  if s.afterEnd then return some { s with afterEnd := false }
  else if eq "end" then
    if s.depth == 0 then return none
    else return some { s with depth := ← minus s.depth 1, afterEnd := true }
  else if eq "then" || eq "is" then return some { s with inHeader := false }
  else if eq "elsif" || eq "else" then return some { s with inHeader := true }
  else if eq "generate" && s.inHeader then return some { s with inHeader := false }
  else if ← opensConstruct t word after then
    return some { s with depth := s.depth + 1, inHeader := eq "if" || eq "case" }
  else return some s

/-- What becomes of the state at a word that ends at some offset. -/
def wordTo (t : Text) (parens : Nat) (s : Nesting) (start stop : Nat) :
    Checked (Turn (Nat × Nesting) (Option Nat)) := do
  if parens == 0 then
    match ← wordStep t (← part t start stop) stop s with
    | none => return .done none
    | some next => return .next (parens, next) stop
  else return .next (parens, s) stop

/-- What becomes of the state at a byte that starts no word. -/
def byteTo (parens : Nat) (s : Nesting) (b : UInt8) (i : Nat) :
    Checked (Turn (Nat × Nesting) (Option Nat)) := do
  if b == '('.toUInt8 then return .next (parens + 1, s) (i + 1)
  else if b == ')'.toUInt8 then
    if parens == 0 then return .done none else return .next (← minus parens 1, s) (i + 1)
  else if b == ';'.toUInt8 && parens == 0 then
    if s.depth == 0 then return .done (some (i + 1)) else return .next (parens, s.semicolon) (i + 1)
  else return .next (parens, s) (i + 1)

/-- One turn of the walk to the end of a construct; the state holds the number of open parentheses
and what has been opened. -/
def constructTurn (t : Text) (state : Nat × Nesting) (i : Nat) :
    Checked (Turn (Nat × Nesting) (Option Nat)) := do
  let (b, lexeme) ← lexemeAt (bytes t) i
  match lexeme with
  | .comment n => return .next state (i + n)
  | .literal n => return .next state (i + n)
  | .code =>
    if ← startsWordAt (bytes t) i then wordTo t state.1 state.2 i (← wordEnd (bytes t) i)
    else byteTo state.1 state.2 b i

/-- The offset behind the statement or construct at the head of a text. -/
def constructEnd (t : Text) : Checked (Option Nat) :=
  loop (byteLength t) (constructTurn t) (fun _ _ => return none) (0, .start) 0

section Constructs

variable {parens : Nat} {s : Nesting}

/-- **A word makes the same of a state** for the bytes as for the characters. -/
theorem wordStep_eq (word a : Text) {rest : Text} (hrest : rest.head?.any isIdentChar = false) (s : Nesting) :
    wordStep (a ++ rest) word (byteLength a) s = .ok (s.word word (placeBehind a rest)) := by
  rw [wordStep, Nesting.word, opensConstruct_eq word a hrest]
  split
  · rfl
  split
  · by_cases hdepth : s.depth = 0
    · rw [if_pos (beq_iff_eq.2 hdepth), if_pos (beq_iff_eq.2 hdepth)]
      rfl
    · have hnot : ¬ (s.depth == 0) = true := fun h => hdepth (beq_iff_eq.1 h)
      rw [if_neg hnot, if_neg hnot, minus_eq (by omega)]
      rfl
  split
  · rfl
  split
  · rfl
  split
  · rfl
  cases Text.opensConstruct word (placeBehind a rest) <;> rfl

/-- A character that starts no word and is no mark of structure is passed over byte by byte. -/
theorem constructTurn_code (parens : Nat) (s : Nesting) {a u : Text} {c : Char} (hat : Lexeme.at a.getLast? (c :: u) = .code)
    (hstart : (isIdentChar c && !a.getLast?.any isIdentChar) = false) {k : Nat} (hk : k < c.utf8Size) :
    ∃ b ∈ String.utf8EncodeChar c, constructTurn (a ++ c :: u) (parens, s) (byteLength a + k)
      = byteTo parens s b (byteLength a + k) := by
  obtain ⟨b, hb, hbyte, hlexeme⟩ := lexemeAt_code hat hk
  refine ⟨b, hb, ?_⟩
  have hword : startsWordAt (bytes (a ++ c :: u)) (byteLength a + k) = .ok false := by
    by_cases hident : isIdentChar c = true
    · rw [utf8Size_eq_one (toNat_lt_of_isIdentChar hident)] at hk
      obtain rfl : k = 0 := by omega
      rw [Nat.add_zero, startsWordAt_eq, hstart]
    · exact startsWordAt_byte hbyte ((isIdentByte_of_mem hb).trans (eq_false_of_ne_true hident))
  rw [constructTurn, hlexeme]
  simp only [bind, Except.bind, hword, Bool.false_eq_true, if_false]

/-- A character of ASCII that starts no word is looked at by its byte. -/
theorem constructTurn_ascii (parens : Nat) (s : Nesting) {a u : Text} {c : Char} (hat : Lexeme.at a.getLast? (c :: u) = .code)
    (hstart : (isIdentChar c && !a.getLast?.any isIdentChar) = false) (hc : c.toNat < 128) :
    constructTurn (a ++ c :: u) (parens, s) (byteLength a) = byteTo parens s c.toUInt8 (byteLength a) := by
  obtain ⟨b, hb, hturn⟩ := constructTurn_code parens s hat hstart c.utf8Size_pos
  rw [utf8EncodeChar_ascii hc, List.mem_singleton] at hb
  rwa [hb, Nat.add_zero] at hturn

/-- What becomes of the state at a word. -/
theorem constructTurn_word (parens : Nat) (s : Nesting) {a u : Text} {c : Char} (hat : Lexeme.at a.getLast? (c :: u) = .code)
    (hstart : (isIdentChar c && !a.getLast?.any isIdentChar) = true) :
    constructTurn (a ++ c :: u) (parens, s) (byteLength a)
      = wordTo (a ++ c :: u) parens s (byteLength a) (byteLength (a ++ (c :: u).takeWhile isIdentChar)) := by
  rw [constructTurn, lexemeAt_eq, hat]
  simp only [bind, Except.bind, measured, startsWordAt_eq, hstart, if_true, wordEnd_eq]

/-- The walk through the bytes of a text from a place on. -/
def walk (a u : Text) (parens : Nat) (s : Nesting) : Checked (Option Nat) :=
  loop (byteLength (a ++ u)) (constructTurn (a ++ u)) (fun _ _ => return none) (parens, s) (byteLength a)

/-- Whether the walk through the bytes answers at a place what the characters answer, or both go on from
the same state behind the same part of the text. -/
inductive Keeps (a u : Text) (parens : Nat) (s : Nesting) : Prop where
  /-- Both answer. -/
  | answer (o : Option Nat) (hwalk : walk a u parens s = .ok (o.map (offset (a ++ u))))
      (hextent : extentFrom parens s 0 a.length a.getLast? u = o)
  /-- Both go on. -/
  | next (x r : Text) (parens' : Nat) (s' : Nesting) (hu : u = x ++ r) (hx : x ≠ [])
      (hwalk : walk a u parens s = walk (a ++ x) r parens' s')
      (hextent : extentFrom parens s 0 a.length a.getLast? u
        = extentFrom parens' s' 0 (a ++ x).length (a ++ x).getLast? r)

section Steps

variable {a u : Text} {c : Char}

/-- The walk goes on behind a part of the text. -/
theorem walk_next {x r : Text} (hx : x ≠ []) {parens' : Nat} {s' : Nesting}
    (hturn : constructTurn (a ++ (x ++ r)) (parens, s) (byteLength a)
      = .ok (.next (parens', s') (byteLength (a ++ x)))) :
    walk a (x ++ r) parens s = walk (a ++ x) r parens' s' := by
  rw [walk, walk, loop_place r hx hturn, List.append_assoc]

/-- A comment or a literal is passed over. -/
theorem keeps_lexeme {x r : Text}
    (hat : Lexeme.at a.getLast? (c :: (x ++ r)) = .comment (x.length + 1)
      ∨ Lexeme.at a.getLast? (c :: (x ++ r)) = .literal (x.length + 1)) :
    Keeps a (c :: x ++ r) parens s := by
  have hplace : a.length + 1 + x.length = (a ++ c :: x).length ∧ lastOr (some c) x = (a ++ c :: x).getLast? := by
    rw [List.length_append, List.length_cons, ← lastOr_getLast?, lastOr_cons]
    exact ⟨by omega, rfl⟩
  refine .next (c :: x) r parens s rfl (List.cons_ne_nil c x) (walk_next (List.cons_ne_nil c x) ?_) ?_
  · rcases hat with hat | hat
    · rw [constructTurn, lexemeAt_comment hat, byteLength_append a]
      rfl
    · rw [constructTurn, lexemeAt_literal hat, byteLength_append a]
      rfl
  · rw [← hplace.1, ← hplace.2]
    rcases hat with hat | hat
    · exact extentFrom_comment hat
    · exact extentFrom_literal hat

/-- A word changes the state, outside parentheses. -/
theorem keeps_word (hat : Lexeme.at a.getLast? (c :: u) = .code)
    (hstart : (isIdentChar c && !a.getLast?.any isIdentChar) = true) : Keeps a (c :: u) parens s := by
  have hturn := constructTurn_word parens s hat hstart
  obtain ⟨hc, hbefore⟩ := Bool.and_eq_true_iff.1 hstart
  rw [Bool.not_eq_true'] at hbefore
  obtain ⟨w, v, hsplit, hrun, hrest, -⟩ := exists_run hc u
  have hv := hrest [] atLineEnd_nil
  rw [List.append_nil] at hv
  rw [hsplit, takeWhile_isIdentChar hrun.ident hv] at hturn
  have hlength : a.length + w.length = (a ++ w).length := List.length_append.symm
  rw [hsplit]
  cases parens with
  | zero =>
    have hstep := wordStep_eq w (a ++ w) hv s
    have hextent : extentFrom 0 s 0 a.length a.getLast? (w ++ v)
        = (s.word w (placeBehind (a ++ w) v)).bind fun next =>
            extentFrom 0 next 0 (a ++ w).length (a ++ w).getLast? v := by
      rw [extentFrom_word hrun hbefore hv, hlength, lastOr_getLast?]
      rfl
    rw [List.append_assoc] at hstep
    rw [wordTo, if_pos (beq_self_eq_true 0), part_between] at hturn
    simp only [bind, Except.bind, hstep] at hturn
    cases hword : s.word w (placeBehind (a ++ w) v) with
    | none =>
      rw [hword] at hturn hextent
      refine .answer none ?_ hextent
      rw [← hsplit] at hturn ⊢
      exact loop_answer u hturn
    | some next =>
      rw [hword] at hturn hextent
      exact .next w v 0 next rfl hrun.ne_nil (walk_next hrun.ne_nil hturn) hextent
  | succ parens =>
    refine .next w v (parens + 1) s rfl hrun.ne_nil (walk_next hrun.ne_nil hturn) ?_
    rw [extentFrom_word_inner hrun hbefore hv, hlength, lastOr_getLast?]

/-- A mark of structure changes the state. -/
theorem keeps_mark (hascii : c.toNat < 128)
    (hturn : constructTurn (a ++ c :: u) (parens, s) (byteLength a) = byteTo parens s c.toUInt8 (byteLength a))
    {parens' : Nat} {s' : Nesting}
    (hbyte : byteTo parens s c.toUInt8 (byteLength a) = .ok (.next (parens', s') (byteLength a + 1)))
    (hextent : extentFrom parens s 0 a.length a.getLast? (c :: u)
      = extentFrom parens' s' 0 (a.length + 1) (some c) u) : Keeps a (c :: u) parens s := by
  refine .next [c] u parens' s' rfl (List.cons_ne_nil c []) (walk_next (List.cons_ne_nil c []) ?_) ?_
  · rw [List.singleton_append, hturn, hbyte, byteLength_snoc hascii]
  · rw [hextent, List.length_append, List.length_singleton, List.getLast?_concat]

/-- A semicolon outside parentheses ends a construct, or what has been opened goes on. -/
theorem keeps_semicolon (hturn : constructTurn (a ++ ';' :: u) (0, s) (byteLength a)
    = byteTo 0 s ';'.toUInt8 (byteLength a)) : Keeps a (';' :: u) 0 s := by
  have hextent : extentFrom 0 s 0 a.length a.getLast? (';' :: u)
      = if s.depth == 0 then some (a.length + 1)
        else extentFrom 0 s.semicolon 0 (a.length + 1) (some ';') u := by
    rw [extentFrom]
    rfl
  by_cases hdepth : (s.depth == 0) = true
  · have hdone : byteTo 0 s ';'.toUInt8 (byteLength a) = .ok (.done (some (byteLength a + 1))) := by
      rw [byteTo, hdepth]
      rfl
    have hstop : offset (a ++ ';' :: u) (a.length + 1) = byteLength a + 1 := offset_length_succ a ';' u
    refine .answer (some (a.length + 1)) ?_ (by rw [hextent, if_pos hdepth])
    rw [Option.map_some, hstop]
    exact loop_answer u (hturn.trans hdone)
  · have hnext : byteTo 0 s ';'.toUInt8 (byteLength a) = .ok (.next (0, s.semicolon) (byteLength a + 1)) := by
      rw [byteTo, eq_false_of_ne_true hdepth]
      rfl
    exact keeps_mark (by decide) hturn hnext (by rw [hextent, if_neg hdepth])

/-- Other characters are passed over. -/
theorem keeps_other (hat : Lexeme.at a.getLast? (c :: u) = .code)
    (hstart : (isIdentChar c && !a.getLast?.any isIdentChar) = false) (hopen : c ≠ '(') (hclose : c ≠ ')')
    (hsemi : (c == ';' && parens == 0) = false) : Keeps a (c :: u) parens s := by
  refine .next [c] u parens s rfl (List.cons_ne_nil c []) ?_ ?_
  · rw [walk, walk, List.append_assoc, List.singleton_append]
    apply loop_char
    intro k hk
    obtain ⟨b, hb, hturn⟩ := constructTurn_code parens s hat hstart hk
    rw [hturn, byteTo, beq_of_mem (by decide) hb, beq_of_mem (by decide) hb, beq_of_mem (by decide) hb,
      beq_false_of_ne hopen, beq_false_of_ne hclose, hsemi]
    rfl
  · rw [extentFrom_code hat hstart hopen hclose hsemi, List.length_append, List.length_singleton,
      List.getLast?_concat]

/-- **One step of the walk does what the characters do.** -/
theorem keeps (a : Text) (c : Char) (u : Text) (parens : Nat) (s : Nesting) : Keeps a (c :: u) parens s := by
  obtain hat | ⟨x, r, rfl, hat⟩ := at_split a.getLast? c u
  · by_cases hstart : (isIdentChar c && !a.getLast?.any isIdentChar) = true
    · exact keeps_word hat hstart
    · have hstart := eq_false_of_ne_true hstart
      have hturn := fun hascii => constructTurn_ascii parens s hat hstart hascii
      by_cases hopen : c = '('
      · subst hopen
        exact keeps_mark (by decide) (hturn (by decide)) rfl (extentFrom_open u)
      by_cases hclose : c = ')'
      · subst hclose
        cases parens with
        | zero => exact .answer none (loop_answer u (hturn (by decide))) rfl
        | succ parens => exact keeps_mark (by decide) (hturn (by decide)) rfl (extentFrom_close u)
      by_cases hsemi : c = ';' ∧ parens = 0
      · obtain ⟨rfl, rfl⟩ := hsemi
        exact keeps_semicolon (hturn (by decide))
      · apply keeps_other hat hstart hopen hclose
        rw [Bool.eq_false_iff, Ne, Bool.and_eq_true, beq_iff_eq, beq_iff_eq]
        exact hsemi
  · exact keeps_lexeme hat

end Steps

/-- **The bytes end a construct where the characters end it**, from any place and any state on. -/
theorem walk_eq (n : Nat) :
    ∀ (a u : Text) (parens : Nat) (s : Nesting), u.length < n →
      walk a u parens s = .ok ((extentFrom parens s 0 a.length a.getLast? u).map (offset (a ++ u))) := by
  induction n with
  | zero => exact fun _ _ _ _ hu => absurd hu (Nat.not_lt_zero _)
  | succ n ih =>
    intro a u parens s hu
    cases u with
    | nil =>
      rw [walk, List.append_nil, loop_end (Nat.le_refl _), extentFrom]
      rfl
    | cons c u =>
      cases keeps a c u parens s with
      | answer o hwalk hextent => rw [hwalk, hextent]
      | next x r parens' s' hsplit hx hwalk hextent =>
        have hlength := congrArg List.length hsplit
        have hpos := List.length_pos_of_ne_nil hx
        rw [List.length_append] at hlength
        rw [hwalk, ih (a ++ x) r parens' s' (by omega), hextent, hsplit, List.append_assoc]

/-- The bytes end a construct where the characters end it. -/
theorem constructEnd_eq (t : Text) : constructEnd t = .ok ((extent? t).map (offset t)) :=
  walk_eq (t.length + 1) [] t 0 .start (Nat.lt_succ_self _)

end Constructs

/-! ## Clauses -/

/-- The index of the first of some words that a text begins with. -/
def firstIndex (t : Text) : List Text → Checked (Option Nat)
  | [] => return none
  | w :: words => do
    if ← startsWithWord w t then return some 0
    else return (← firstIndex t words).map (· + 1)

/-- One turn of the search for a clause. -/
def clauseTurn (words : List Text) (t : Text) (_ : Unit) (i : Nat) :
    Checked (Turn Unit (Option (Nat × Nat))) := do
  let start ← skipTrivia t i
  match slice? t start (byteLength t) with
  | none => return .done none
  | some rest =>
    if rest.isEmpty then return .done none
    else
      match ← firstIndex rest words with
      | some k => return .done (some (start, k))
      | none =>
        match ← constructEnd rest with
        | some n => return .next () (start + n)
        | none => return .done none

/-- The offset of the first statement that begins with one of some words, and the index of the word. -/
def findClause (words : List Text) (t : Text) : Checked (Option (Nat × Nat)) :=
  loop (byteLength t + 1) (clauseTurn words t) (fun _ _ => return none) () 0

section Clauses

variable {words : List Text}

theorem firstIndex_eq (t : Text) (words : List Text) :
    firstIndex t words = .ok (words.findIdx? fun w => startsWith w t) := by
  induction words with
  | nil => rfl
  | cons w words ih =>
    rw [firstIndex, startsWithWord_eq, ih, List.findIdx?_cons]
    cases startsWith w t <;> rfl

/-- An extent is not empty and stays inside the text. -/
theorem exists_of_extent? {t : Text} {n : Nat} (h : extent? t = some n) :
    ∃ x r, t = x ++ r ∧ x ≠ [] ∧ x.length = n := by
  obtain ⟨s, u, rfl, rfl, -⟩ := exists_of_extentFrom h
  exact ⟨s ++ [';'], u, by simp, by simp, by simp⟩

/-- **The bytes find a clause where the characters find it.** -/
theorem loop_clauseTurn (fuel : Nat) :
    ∀ a u : Text, u.length < fuel →
      loop (byteLength (a ++ u) + 1) (clauseTurn words (a ++ u)) (fun _ _ => return none) () (byteLength a)
        = .ok ((clauseFrom? words fuel (placeBehind a u)).map fun found => (offset (a ++ u) found.1, found.2)) := by
  induction fuel with
  | zero => exact fun _ _ hu => absurd hu (Nat.not_lt_zero _)
  | succ fuel ih =>
    intro a u hu
    have hbound : byteLength a < byteLength (a ++ u) + 1 := Nat.lt_succ_of_le (byteLength_le_append a u)
    obtain ⟨g, v, rfl, hplace, hskip⟩ := skipTrivia_cases (u.length + 1) a u (Nat.lt_succ_self _)
    have hslice : slice? (a ++ (g ++ v)) (byteLength (a ++ g)) (byteLength (a ++ (g ++ v))) = some v :=
      slice?_eq_some_iff.2 ⟨a ++ g, [], by simp, rfl, by rw [List.append_assoc]⟩
    rw [clauseFrom?, hplace, show (placeBehind (a ++ g) v).rest = v from rfl,
      show (placeBehind (a ++ g) v).passed = (a ++ g).length from rfl]
    have hturn : clauseTurn words (a ++ (g ++ v)) () (byteLength a)
        = if v.isEmpty then .ok (.done none)
          else match words.findIdx? fun w => startsWith w v with
            | some k => .ok (.done (some (byteLength (a ++ g), k)))
            | none => match (extent? v).map (offset v) with
              | some n => .ok (.next () (byteLength (a ++ g) + n))
              | none => .ok (.done none) := by
      rw [clauseTurn, hskip]
      simp only [bind, Except.bind, hslice, firstIndex_eq, constructEnd_eq]
      rfl
    by_cases hempty : v.isEmpty = true
    · rw [if_pos hempty] at hturn ⊢
      exact loop_done hbound hturn
    · rw [if_neg hempty] at hturn ⊢
      cases hfirst : words.findIdx? fun w => startsWith w v with
      | some k =>
        have hoffset := offset_length (a ++ g) v
        rw [List.append_assoc] at hoffset
        rw [hfirst] at hturn
        rw [loop_done hbound hturn, Option.map_some, hoffset]
      | none =>
        rw [hfirst] at hturn
        cases hextent : extent? v with
        | none =>
          rw [hextent] at hturn
          exact loop_done hbound hturn
        | some n =>
          obtain ⟨x, r, rfl, hx, rfl⟩ := exists_of_extent? hextent
          have hpos := List.length_pos_of_ne_nil hx
          have hsource : a ++ (g ++ (x ++ r)) = a ++ g ++ x ++ r := by simp
          have hlt : byteLength a < byteLength (a ++ g ++ x) := by
            have := mt byteLength_eq_zero.1 hx
            simp only [byteLength_append]
            omega
          have hle := byteLength_le_append (a ++ g ++ x) r
          simp only [List.length_append] at hu
          have hrest := ih (a ++ g ++ x) r (by omega)
          rw [hextent, Option.map_some, offset_length] at hturn
          dsimp only at hturn
          rw [← byteLength_append, hsource] at hturn
          rw [Option.bind_some, advance_append, hsource, loop_next hturn hlt (Nat.le_succ_of_le hle)]
          exact hrest

/-- The bytes find a clause where the characters find it. -/
theorem findClause_eq (words : List Text) (t : Text) :
    findClause words t = .ok ((clause? words t).map fun found => (offset t found.1, found.2)) :=
  loop_clauseTurn (t.length + 1) [] t (Nat.lt_succ_self _)

end Clauses

end CanonicalVhdl.Bytewise
