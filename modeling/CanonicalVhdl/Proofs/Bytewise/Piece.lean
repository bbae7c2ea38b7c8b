import CanonicalVhdl.Proofs.Bytewise.Extent
import CanonicalVhdl.Proofs.Region.Cuts

/-!
# The pieces of a region in the bytes of a text

A region is cut behind its blanks, behind its comments, behind its statements and, where a comment
follows a statement, at the end of the line.

## Main definitions

* `Bytewise.splitPieces` — the pieces of a region.

## Main statements

* `Bytewise.splitPieces_eq` — the bytes answer what the characters answer.
-/

namespace CanonicalVhdl.Bytewise

open Text Token

/-- One turn of the walk through blanks of ASCII. -/
def blankTurn (bs : List UInt8) (_ : Unit) (i : Nat) : Checked (Turn Unit Nat) := do
  if isBlankByte (← byteAt bs i) then return .next () (i + 1) else return .done i

/-- The offset behind the blanks of ASCII that follow an offset. -/
def skipBlanks (t : Text) (start : Nat) : Checked Nat :=
  loop (byteLength t) (blankTurn (bytes t)) (fun _ i => return i) () start

/-- What becomes of the pieces found, newest first, at a comment of some length. -/
def commentPiece (t : Text) (found : List Piece) (start length : Nat) :
    Checked (Turn (List Piece) (Option (List Piece))) := do
  let comment ← part t (start + 2) (start + length)
  return .next (.comment (trimEnd comment) :: found) (start + length)

/-- What becomes of the pieces found, newest first, at a statement. -/
def codePiece (t : Text) (found : List Piece) (start : Nat) :
    Checked (Turn (List Piece) (Option (List Piece))) := do
  match ← constructEnd (← part t start (byteLength t)) with
  | none => return .done none
  | some n =>
    let stop := start + n
    let lineEnd := (findChar? (· == '\n') (← part t stop (byteLength t))).elim (byteLength t) (stop + ·)
    let line ← part t stop lineEnd
    let code ← part t start stop
    match dropLead? "--".toList (trimStart line) with
    | some comment => return .next (.code code (some (trimEnd comment)) :: found) lineEnd
    | none => return .next (.code code none :: found) stop

/-- One turn of the search for pieces; the state holds those found, newest first. -/
def pieceTurn (t : Text) (found : List Piece) (i : Nat) :
    Checked (Turn (List Piece) (Option (List Piece))) := do
  let start ← skipBlanks t i
  if byteLength t ≤ start then return .done (some found.reverse)
  else
    match (← lexemeAt (bytes t) start).2 with
    | .comment n => commentPiece t found start n
    | .literal _ => codePiece t found start
    | .code => codePiece t found start

/-- The pieces of a statement region; `none` when its last statement does not end. -/
def splitPieces (t : Text) : Checked (Option (List Piece)) :=
  loop (byteLength t + 1) (pieceTurn t) (fun _ _ => return none) [] 0

section Pieces

/-- Blanks are passed over. -/
theorem skipBlanks_eq (u : Text) :
    ∀ a : Text, skipBlanks (a ++ u) (byteLength a) = .ok (byteLength (a ++ u.takeWhile isAsciiBlank)) := by
  induction u with
  | nil =>
    intro a
    rw [List.append_nil, skipBlanks, loop_end (Nat.le_refl _), List.takeWhile_nil, List.append_nil]
    rfl
  | cons c u ih =>
    intro a
    have hbyte : byteAt (bytes (a ++ c :: u)) (byteLength a) = .ok (lead c) := byteAt_eq (getElem?_place a _)
    by_cases hblank : isAsciiBlank c = true
    · have hturn : blankTurn (bytes (a ++ ([c] ++ u))) () (byteLength a)
          = .ok (.next () (byteLength (a ++ [c]))) := by
        rw [List.singleton_append, blankTurn, hbyte, byteLength_snoc (isAscii_of_isAsciiBlank hblank)]
        simp only [bind, Except.bind, isBlankByte_of_mem (lead_mem c), hblank, if_true]
        rfl
      have hrest := ih (a ++ [c])
      rw [List.append_assoc, skipBlanks, ← loop_place u (List.cons_ne_nil c []) hturn] at hrest
      rw [List.takeWhile_cons_of_pos hblank, skipBlanks]
      rw [List.append_assoc] at hrest
      exact hrest
    · have hturn : blankTurn (bytes (a ++ c :: u)) () (byteLength a) = .ok (.done (byteLength a)) := by
        rw [blankTurn, hbyte]
        simp only [bind, Except.bind, isBlankByte_of_mem (lead_mem c), hblank, Bool.false_eq_true, if_false]
        rfl
      rw [skipBlanks, loop_answer u hturn, List.takeWhile_cons_of_neg hblank, List.append_nil]

/-- The offset of the end of a line. -/
theorem findChar?_line {x r : Text} (hx : '\n' ∉ x) (hr : AtLineEnd r) (n : Nat) :
    (findChar? (· == '\n') (x ++ r)).elim (n + byteLength (x ++ r)) (n + ·) = n + byteLength x := by
  have htake : (x ++ r).takeWhile (fun c => !c == '\n') = x := (span_line hx hr).1
  rw [findChar?_eq, htake]
  cases hany : (x ++ r).any (· == '\n') with
  | true => rfl
  | false =>
    obtain rfl | ⟨v, rfl⟩ := hr.cases
    · rw [List.append_nil]
      rfl
    · simp at hany

/-- Two hyphens stand at the head of a text or of its first line. -/
theorem dropLead?_line (y : Text) {r : Text} (hr : AtLineEnd r) :
    dropLead? "--".toList (y ++ r) = (dropLead? "--".toList y).map (· ++ r) := by
  rcases y with _ | ⟨c, _ | ⟨d, y⟩⟩
  · rcases hr.cases with rfl | ⟨v, rfl⟩ <;> rfl
  · rcases hr.cases with rfl | ⟨v, rfl⟩ <;> simp [dropLead?]
  · by_cases hhyphens : c = '-' ∧ d = '-'
    · obtain ⟨rfl, rfl⟩ := hhyphens
      simp [dropLead?]
    · have hnot : ∀ z : Text, dropLead? "--".toList (c :: d :: z) = none := by
        intro z
        refine if_neg fun hprefix => hhyphens ?_
        obtain ⟨w, hw⟩ := List.isPrefixOf_iff_prefix.1 hprefix
        obtain ⟨hc, hrest⟩ := List.cons.inj hw
        exact ⟨hc.symm, (List.cons.inj hrest).1.symm⟩
      rw [List.cons_append, List.cons_append, hnot, hnot]
      rfl

/-- **What follows a statement on its line** is a comment if it starts as one, blanks aside. -/
theorem trailer?_line {x r : Text} (hx : '\n' ∉ x) (hr : AtLineEnd r) :
    trailer? (x ++ r) = (dropLead? "--".toList (trimStart x)).map fun comment => (trimEnd comment, r) := by
  have hsplit : x = x.takeWhile isBlank ++ trimStart x := (List.takeWhile_append_dropWhile).symm
  have hblanks : ∀ c ∈ x.takeWhile isBlank, (c != '\n' && isBlank c) = true := by
    intro c hc
    rw [List.all_eq_true.1 List.all_takeWhile c hc, Bool.and_true, bne_iff_ne]
    rintro rfl
    exact hx ((List.takeWhile_prefix isBlank).subset hc)
  have hdrop : (x ++ r).dropWhile (fun c => c != '\n' && isBlank c) = trimStart x ++ r := by
    have hhead := any_head?_dropWhile isBlank x
    conv_lhs => rw [hsplit, List.append_assoc, List.dropWhile_append_of_pos hblanks]
    rw [← trimStart] at hhead
    cases hy : trimStart x with
    | nil => rcases hr.cases with rfl | ⟨v, rfl⟩ <;> rfl
    | cons c y =>
      rw [hy, List.head?_cons, Option.any_some] at hhead
      rw [List.cons_append, List.dropWhile_cons_of_neg (by simp [hhead])]
  rw [trailer?, hdrop, dropLead?_line _ hr, Option.map_map]
  cases hlead : dropLead? "--".toList (trimStart x) with
  | none => rfl
  | some comment =>
    have hline : '\n' ∉ comment := by
      intro hmem
      rw [dropLead?] at hlead
      obtain ⟨-, hlead⟩ := Option.ite_none_right_eq_some.1 hlead
      rw [← Option.some.inj hlead] at hmem
      rw [hsplit] at hx
      exact hx (List.mem_append_right _ (List.mem_of_mem_drop hmem))
    obtain ⟨htake, hdrop⟩ := span_line hline hr
    rw [Option.map_some, Option.map_some, Function.comp_apply, htake, hdrop]

/-- **A statement is cut off** behind its comment, or behind itself. -/
theorem codePiece_eq {a x line r : Text} (hend : extent? (x ++ (line ++ r)) = some x.length)
    (hline : '\n' ∉ line) (hr : AtLineEnd r) (found : List Piece) :
    codePiece (a ++ (x ++ (line ++ r))) found (byteLength a)
      = .ok (match trailer? (line ++ r) with
        | some (comment, _) => .next (.code x (some comment) :: found) (byteLength (a ++ x ++ line))
        | none => .next (.code x none :: found) (byteLength (a ++ x))) := by
  have hbehind := part_back (a ++ x) (line ++ r)
  have hlast := part_between (a ++ x) line r
  have hstop := findChar?_line hline hr (byteLength (a ++ x))
  have hend' : byteLength (a ++ (x ++ (line ++ r))) = byteLength (a ++ x) + byteLength (line ++ r) := by
    rw [← List.append_assoc, byteLength_append]
  rw [List.append_assoc] at hbehind hlast
  rw [codePiece, part_back]
  simp only [bind, Except.bind, constructEnd_eq, hend, Option.map_some, offset_length]
  rw [← byteLength_append, hbehind]
  simp only [hend', hstop]
  rw [← byteLength_append, hlast, part_between, trailer?_line hline hr]
  dsimp only
  cases dropLead? "--".toList (trimStart line) <;> rfl

/-- Where a region does not go on with a comment, it goes on with a statement. -/
theorem pieceTurn_code (found : List Piece) {a g v : Text} {c : Char}
    (hskip : skipBlanks (a ++ (g ++ c :: v)) (byteLength a) = .ok (byteLength (a ++ g)))
    (hcode : ∀ s, c :: v ≠ '-' :: '-' :: s) :
    pieceTurn (a ++ (g ++ c :: v)) found (byteLength a)
      = codePiece (a ++ (g ++ c :: v)) found (byteLength (a ++ g)) := by
  have hlexeme := lexemeAt_eq (a ++ g) c v
  have hle : ¬ byteLength (a ++ (g ++ c :: v)) ≤ byteLength (a ++ g) := by
    have := byteLength_lt_snoc (a ++ g) c
    have := byteLength_snoc_le (a ++ g) c v
    rw [← List.append_assoc]
    omega
  rw [List.append_assoc] at hlexeme
  rw [pieceTurn, hskip]
  simp only [bind, Except.bind, hle, if_false, hlexeme]
  cases hat : Lexeme.at (a ++ g).getLast? (c :: v) with
  | comment n =>
    obtain ⟨y, r, heq, -⟩ := exists_comment hat
    exact absurd heq (hcode (y ++ r))
  | literal n => rfl
  | code => rfl

/-- Where a region goes on with a comment, it goes on behind the line. -/
theorem pieceTurn_comment (found : List Piece) {a g x r : Text}
    (hskip : skipBlanks (a ++ (g ++ '-' :: '-' :: (x ++ r))) (byteLength a) = .ok (byteLength (a ++ g)))
    (hlength : Lexeme.lineLength 2 (x ++ r) = 2 + x.length) :
    pieceTurn (a ++ (g ++ '-' :: '-' :: (x ++ r))) found (byteLength a)
      = .ok (.next (.comment (trimEnd x) :: found) (byteLength (a ++ g ++ '-' :: '-' :: x))) := by
  have hlexeme := lexemeAt_hyphens (a ++ g) (x ++ r)
  have htake : ('-' :: '-' :: (x ++ r)).take (2 + x.length) = '-' :: '-' :: x := by
    rw [Nat.add_comm, List.take_succ_cons, List.take_succ_cons, List.take_left]
  rw [measured, hlength, htake, List.append_assoc] at hlexeme
  have hle : ¬ byteLength (a ++ (g ++ '-' :: '-' :: (x ++ r))) ≤ byteLength (a ++ g) := by
    have := byteLength_lt_snoc (a ++ g) '-'
    have := byteLength_snoc_le (a ++ g) '-' ('-' :: (x ++ r))
    rw [← List.append_assoc]
    omega
  have hpart := part_between (a ++ g ++ ['-', '-']) x r
  have hsource : a ++ g ++ ['-', '-'] ++ (x ++ r) = a ++ (g ++ '-' :: '-' :: (x ++ r)) := by simp
  have hstart : byteLength (a ++ g ++ ['-', '-']) = byteLength (a ++ g) + 2 := byteLength_append _ _
  have hstop : byteLength (a ++ g) + byteLength ('-' :: '-' :: x) = byteLength (a ++ g ++ '-' :: '-' :: x) :=
    (byteLength_append _ _).symm
  have hend : a ++ g ++ ['-', '-'] ++ x = a ++ g ++ '-' :: '-' :: x := by simp
  rw [hsource, hstart, hend] at hpart
  rw [pieceTurn, hskip]
  simp only [bind, Except.bind, hle, if_false, hlexeme]
  rw [commentPiece, hstop, hpart]
  rfl

/-- **The bytes cut a region where the characters cut it.** -/
theorem loop_pieceTurn (fuel : Nat) :
    ∀ (a u : Text) (found : List Piece), u.length < fuel →
      loop (byteLength (a ++ u) + 1) (pieceTurn (a ++ u)) (fun _ _ => return none) found (byteLength a)
        = .ok (piecesFrom? found fuel u) := by
  induction fuel with
  | zero => exact fun _ _ _ hu => absurd hu (Nat.not_lt_zero _)
  | succ fuel ih =>
    intro a u found hu
    have hbound : byteLength a < byteLength (a ++ u) + 1 := Nat.lt_succ_of_le (byteLength_le_append a u)
    have hsplit : u.takeWhile isAsciiBlank ++ u.dropWhile isAsciiBlank = u := List.takeWhile_append_dropWhile
    have hskip := skipBlanks_eq u a
    generalize u.takeWhile isAsciiBlank = g at hsplit hskip
    -- the search goes on behind a part of the region
    have onward : ∀ (y r : Text) (found' : List Piece), u = g ++ (y ++ r) → y ≠ [] →
        pieceTurn (a ++ u) found (byteLength a) = .ok (.next found' (byteLength (a ++ g ++ y))) →
        piecesFrom? found (fuel + 1) u = piecesFrom? found' fuel r →
        loop (byteLength (a ++ u) + 1) (pieceTurn (a ++ u)) (fun _ _ => return none) found (byteLength a)
          = .ok (piecesFrom? found (fuel + 1) u) := by
      rintro y r found' rfl hy hturn hpieces
      have hpos := List.length_pos_of_ne_nil hy
      have hsource : a ++ (g ++ (y ++ r)) = a ++ g ++ y ++ r := by simp
      have hlt : byteLength a < byteLength (a ++ g ++ y) := by
        have := mt byteLength_eq_zero.1 hy
        simp only [byteLength_append]
        omega
      have hle := byteLength_le_append (a ++ g ++ y) r
      simp only [List.length_append] at hu
      have hrest := ih (a ++ g ++ y) r found' (by omega)
      rw [hpieces, ← hrest, ← hsource]
      exact loop_next hturn hlt (Nat.le_succ_of_le (hsource ▸ hle))
    cases hv : u.dropWhile isAsciiBlank with
    | nil =>
      have hturn : pieceTurn (a ++ u) found (byteLength a) = .ok (.done (some found.reverse)) := by
        rw [hv, List.append_nil] at hsplit
        rw [pieceTurn, hskip, hsplit]
        simp only [bind, Except.bind, Nat.le_refl, if_true]
        rfl
      rw [loop_done hbound hturn, piecesFrom?, hv]
    | cons c v =>
      rw [hv] at hsplit
      by_cases hcomment : ∃ s, c :: v = '-' :: '-' :: s
      · obtain ⟨s, hs⟩ := hcomment
        obtain ⟨x, r, rfl, hlength, hx, hr⟩ := lineLength_split 2 s
        rw [hs] at hsplit hv
        have hturn := pieceTurn_comment found (a := a) (g := g) (by rw [hsplit, hskip]) hlength
        rw [hsplit] at hturn
        refine onward _ r _ hsplit.symm (List.cons_ne_nil '-' _) hturn ?_
        obtain ⟨htake, hdrop⟩ := span_line hx hr
        rw [piecesFrom?, hv]
        simp only [htake, hdrop]
      · have hcode : ∀ s, c :: v ≠ '-' :: '-' :: s := fun s hs => hcomment ⟨s, hs⟩
        have hturn := pieceTurn_code found (a := a) (g := g) (by rw [hsplit, hskip]) hcode
        have hpieces := piecesFrom?_code found fuel hv hcode
        rw [hsplit] at hturn
        cases hextent : extent? (c :: v) with
        | none =>
          have hwhole := part_back (a ++ g) (c :: v)
          rw [List.append_assoc, hsplit] at hwhole
          rw [codePiece, hwhole] at hturn
          simp only [bind, Except.bind, constructEnd_eq, hextent] at hturn
          rw [loop_done hbound hturn, hpieces, hextent]
          rfl
        | some n =>
          obtain ⟨x, rest, hx, hne, rfl⟩ := exists_of_extent? hextent
          obtain ⟨line, r, rfl, -, hline, hr⟩ := lineLength_split 0 rest
          rw [hx] at hextent hsplit hpieces
          have hcut := codePiece_eq (a := a ++ g) hextent hline hr found
          rw [List.append_assoc, hsplit] at hcut
          rw [hcut] at hturn
          rw [hextent, Option.bind_some, List.take_left, List.drop_left] at hpieces
          rw [trailer?_line hline hr] at hturn hpieces
          cases hlead : dropLead? "--".toList (trimStart line) with
          | none =>
            rw [hlead] at hturn hpieces
            exact onward x (line ++ r) _ hsplit.symm hne hturn hpieces
          | some comment =>
            rw [hlead] at hturn hpieces
            refine onward (x ++ line) r _ ?_ (by simp [hne]) ?_ hpieces
            · rw [List.append_assoc, hsplit]
            · rw [hturn, List.append_assoc (a ++ g)]
              rfl

/-- The bytes cut a region where the characters cut it. -/
theorem splitPieces_eq (t : Text) : splitPieces t = .ok (pieces? t) :=
  loop_pieceTurn (t.length + 1) [] t [] (Nat.lt_succ_self _)

end Pieces

end CanonicalVhdl.Bytewise
