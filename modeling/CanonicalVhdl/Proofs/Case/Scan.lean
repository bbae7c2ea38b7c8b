import CanonicalVhdl.Proofs.Case.Text
import CanonicalVhdl.Proofs.Text.Continuation
import CanonicalVhdl.Text.Piece

/-!
# Scans up to case

A scan for lexemes, groups, words outside parentheses, comments, constructs or pieces takes
the same steps in a text and in its folded form: positions and lengths stay the same, and
every part that is cut out is folded.

## Main definitions

* `CodePoint.fold`, `Place.fold`, `Piece.fold` — the results of scans with their texts folded.
* `Text.IsKey` — what a search for a pattern in either case looks for.

## Main statements

* `Lexeme.at_fold` — the same lexemes stand at the same places.
* `Text.outerMatches_fold`, `Text.splitOuter_fold`, `Text.parenthesised?_fold` — searches
  outside parentheses.
* `Text.extent?_fold`, `Text.clause?_fold`, `Text.pieces?_fold` — extents, clauses and pieces.
-/

namespace CanonicalVhdl

/-! ## Lexemes -/

namespace Lexeme

theorem lineLength_fold (n : Nat) (t : Text) : lineLength n (Text.fold t) = lineLength n t := by
  induction t generalizing n with
  | nil => rfl
  | cons c t ih =>
    rw [Text.fold_cons, lineLength, lineLength, beq_toLower (by decide), ih]

theorem quotedLength_fold (n : Nat) (t : Text) : quotedLength n (Text.fold t) = quotedLength n t := by
  fun_induction quotedLength n t with
  | case1 n rest ih => simpa [quotedLength] using ih
  | case2 n rest hrest =>
    have hquote : ∀ r, Text.fold rest = '"' :: r → False := by
      intro r hr
      cases rest with
      | nil => cases hr
      | cons c rest =>
        rw [Text.fold_cons, List.cons.injEq, toLower_eq_iff (by decide)] at hr
        exact hrest rest (by rw [hr.1])
    rw [Text.fold_cons, show ('"' : Char).toLower = '"' from rfl, quotedLength]
    exact hquote
  | case3 n rest => rfl
  | case4 n c rest hdouble hquote hline ih =>
    have hc : c ≠ '"' := fun h => hquote h
    have hn : c ≠ '\n' := fun h => hline h
    rw [Text.fold_cons, quotedLength, ih]
    · intro _ h
      exact absurd ((toLower_eq_iff (by decide)).1 h) hc
    · intro h
      exact hc ((toLower_eq_iff (by decide)).1 h)
    · intro h
      exact hn ((toLower_eq_iff (by decide)).1 h)
  | case5 n => rfl

theorem bindsTick_fold (before : Option Char) :
    bindsTick (before.map Char.toLower) = bindsTick before := by
  cases before with
  | none => rfl
  | some c => simp [bindsTick, beq_toLower (k := ')') (by decide)]

theorem head?_fold_eq_iff {k : Char} (hk : k.isAlpha = false) (t : Text) :
    (Text.fold t).head? = some k ↔ t.head? = some k := by
  cases t with
  | nil => simp
  | cons c t => simp [toLower_eq_iff hk]

/-- The same lexeme stands at the head of a text in either case. -/
theorem at_fold (before : Option Char) (t : Text) :
    Lexeme.at (before.map Char.toLower) (Text.fold t) = Lexeme.at before t := by
  cases t with
  | nil => rfl
  | cons c t =>
    have hany : (Text.fold t).head?.any (fun d => decide (d.toNat < 128) && d != '\n')
        = t.head?.any fun d => decide (d.toNat < 128) && d != '\n' := by
      cases t with
      | nil => rfl
      | cons d t =>
        simp only [Text.fold_cons, List.head?_cons, Option.any_some, isAscii_toLower,
          bne_toLower (k := '\n') (by decide)]
    have htail : (Text.fold t).tail = Text.fold t.tail := List.map_tail.symm
    simp only [Text.fold_cons, at_cons, htail, hany, bindsTick_fold, lineLength_fold,
      quotedLength_fold, head?_fold_eq_iff (k := '-') (by decide),
      head?_fold_eq_iff (k := '\'') (by decide), toLower_eq_iff (k := '-') (by decide),
      toLower_eq_iff (k := '"') (by decide), toLower_eq_iff (k := '\'') (by decide)]

end Lexeme

/-! ## Code points -/

namespace CodePoint

/-- A code point with its texts in lower case. -/
def fold (p : CodePoint) : CodePoint :=
  ⟨p.position, p.before.map Char.toLower, p.char.toLower, Text.fold p.after, p.depth⟩

@[simp] theorem position_fold (p : CodePoint) : p.fold.position = p.position := rfl

@[simp] theorem depth_fold (p : CodePoint) : p.fold.depth = p.depth := rfl

theorem char_beq_fold {k : Char} (hk : k.isAlpha = false) (p : CodePoint) :
    (p.fold.char == k) = (p.char == k) :=
  beq_toLower hk p.char

end CodePoint

namespace Text

theorem codePointsFrom_fold (found : List CodePoint) (skip position depth : Nat)
    (before : Option Char) (t : Text) :
    codePointsFrom (found.map CodePoint.fold) skip position depth (before.map Char.toLower) (fold t)
      = (codePointsFrom found skip position depth before t).map CodePoint.fold := by
  induction t generalizing found skip position depth before with
  | nil => simp [codePointsFrom]
  | cons c t ih =>
    cases skip with
    | succ skip =>
      simp only [fold_cons, codePointsFrom]
      exact ih _ _ _ _ (some c)
    | zero =>
      have hat := Lexeme.at_fold before (c :: t)
      rw [fold_cons] at hat
      simp only [fold_cons, codePointsFrom, hat, beq_toLower (k := '(') (by decide),
        beq_toLower (k := ')') (by decide)]
      split
      · exact ih _ _ _ _ (some c)
      · exact ih (⟨position, before, c, t, depth⟩ :: found) _ _ _ (some c)
      · exact ih (⟨position, before, c, t, if c == ')' then depth - 1 else depth⟩ :: found) _ _ _
          (some c)

theorem codePoints_fold (t : Text) : codePoints (fold t) = (codePoints t).map CodePoint.fold :=
  codePointsFrom_fold [] 0 0 0 none t

theorem outerPoints_fold (t : Text) : outerPoints (fold t) = (outerPoints t).map CodePoint.fold := by
  rw [outerPoints, outerPoints, codePoints_fold, List.filter_map]
  rfl

/-- A search for a code point by what does not depend on case. -/
theorem findPoint?_fold {test : CodePoint → Bool} (h : ∀ p, test p.fold = test p) (t : Text) :
    findPoint? test (fold t) = (findPoint? test t).map CodePoint.fold := by
  rw [findPoint?_eq_find?, findPoint?_eq_find?, codePoints_fold, List.find?_map]
  exact congrArg (Option.map CodePoint.fold)
    (congrArg (List.find? · (codePoints t)) (funext h))

/-! ## Outside parentheses -/

theorem closeGroup_fold {opening closing : Char} (ho : opening.isAlpha = false)
    (hc : closing.isAlpha = false) (state : Option (Nat × Nat)) (points : List CodePoint) :
    closeGroup opening closing state (points.map CodePoint.fold)
      = closeGroup opening closing state points := by
  induction points generalizing state with
  | nil => rfl
  | cons p points ih =>
    cases state with
    | none => simp only [List.map_cons, closeGroup, CodePoint.char_beq_fold ho,
        CodePoint.char_beq_fold hc, CodePoint.position_fold, ih]
    | some state => simp only [List.map_cons, closeGroup, CodePoint.char_beq_fold ho,
        CodePoint.char_beq_fold hc, CodePoint.position_fold, ih]

theorem balancedSpan?_fold {opening closing : Char} (ho : opening.isAlpha = false)
    (hc : closing.isAlpha = false) (t : Text) :
    balancedSpan? opening closing (fold t) = balancedSpan? opening closing t := by
  rw [balancedSpan?, balancedSpan?, codePoints_fold, closeGroup_fold ho hc, length_fold]

theorem parenthesised?_fold (t : Text) :
    parenthesised? (fold t) = (parenthesised? t).map (Prod.map fold fold) := by
  rw [parenthesised?, parenthesised?, head?_beq_fold (by decide),
    balancedSpan?_fold (by decide) (by decide)]
  split
  · cases balancedSpan? '(' ')' t <;> simp
  · rfl

theorem piecesBetween_fold (start : Nat) (t : Text) (cuts : List Nat) :
    piecesBetween start (fold t) cuts = (piecesBetween start t cuts).map fold := by
  induction cuts generalizing start t with
  | nil => rfl
  | cons i cuts ih => simp only [piecesBetween, List.map_cons, take_fold, drop_fold, ih]

theorem splitOuter_fold {k : Char} (hk : k.isAlpha = false) (t : Text) :
    splitOuter k (fold t) = (splitOuter k t).map fold := by
  have hpoints : ((outerPoints t).map CodePoint.fold).filter (·.char == k)
      = ((outerPoints t).filter (·.char == k)).map CodePoint.fold := by
    rw [List.filter_map]
    exact congrArg (List.map CodePoint.fold)
      (List.filter_congr fun p _ => CodePoint.char_beq_fold hk p)
  rw [splitOuter, splitOuter, outerPoints_fold, hpoints, List.map_map, piecesBetween_fold]
  rfl

/-- Whether a search for a pattern is one in either case: the pattern starts with a letter, or
holds none. -/
def IsKey (pattern : Text) : Prop :=
  pattern.head?.any Char.isAlpha = true ∨ pattern.all (!·.isAlpha) = true

instance (pattern : Text) : Decidable (IsKey pattern) := inferInstanceAs (Decidable (_ ∨ _))

theorem isPrefixOf_fold {lead : Text} (h : lead.all (!·.isAlpha) = true) (t : Text) :
    lead.isPrefixOf (fold t) = lead.isPrefixOf t := by
  induction lead generalizing t with
  | nil => rfl
  | cons k lead ih =>
    rw [List.all_cons, Bool.and_eq_true, Bool.not_eq_true'] at h
    cases t with
    | nil => rfl
    | cons c t =>
      rw [fold_cons, List.isPrefixOf_cons_cons, List.isPrefixOf_cons_cons, ih h.2, BEq.comm,
        beq_toLower h.1, BEq.comm]

theorem dropLead?_fold {lead : Text} (h : lead.all (!·.isAlpha) = true) (t : Text) :
    dropLead? lead (fold t) = (dropLead? lead t).map fold := by
  rw [dropLead?, dropLead?, isPrefixOf_fold h, drop_fold]
  split <;> rfl

theorem matchesAt_fold {pattern : Text} (h : IsKey pattern) (p : CodePoint) :
    matchesAt pattern p.fold = matchesAt pattern p := by
  cases pattern with
  | nil => rfl
  | cons k pattern =>
    have hrest : p.fold.rest = fold p.rest := rfl
    simp only [matchesAt, hrest]
    split
    · rw [show p.fold.before = p.before.map Char.toLower from rfl, wholeWord?_fold,
        Option.isSome_map]
    · refine isPrefixOf_fold (h.resolve_left fun halpha => ?_) _
      simp_all

theorem outerMatches_fold {pattern : Text} (h : IsKey pattern) (t : Text) :
    outerMatches pattern (fold t) = outerMatches pattern t := by
  rw [outerMatches, outerMatches, outerPoints_fold, List.filter_map, List.map_map]
  exact congrArg (List.map _) (List.filter_congr fun p _ => matchesAt_fold h p)

theorem outerMatch?_fold {pattern : Text} (h : IsKey pattern) (t : Text) :
    outerMatch? pattern (fold t) = outerMatch? pattern t := by
  rw [outerMatch?_eq_head?, outerMatch?_eq_head?, outerMatches_fold h]

theorem cutOuter?_fold {pattern : Text} (h : IsKey pattern) (t : Text) :
    cutOuter? pattern (fold t) = (cutOuter? pattern t).map (Prod.map fold fold) := by
  rw [cutOuter?, cutOuter?, outerMatch?_fold h]
  cases outerMatch? pattern t <;> simp

/-! ## Comments -/

theorem commentFrom?_fold (skip position : Nat) (before : Option Char) (t : Text) :
    commentFrom? skip position (before.map Char.toLower) (fold t)
      = commentFrom? skip position before t := by
  induction t generalizing skip position before with
  | nil => rfl
  | cons c t ih =>
    cases skip with
    | succ skip =>
      simp only [fold_cons, commentFrom?]
      exact ih _ _ (some c)
    | zero =>
      have hat := Lexeme.at_fold before (c :: t)
      rw [fold_cons] at hat
      simp only [fold_cons, commentFrom?, hat]
      split
      · rfl
      · exact ih _ _ (some c)
      · exact ih _ _ (some c)

@[simp] theorem commentStart?_fold (t : Text) : commentStart? (fold t) = commentStart? t :=
  commentFrom?_fold 0 0 none t

theorem lineCode_fold (line : Text) : lineCode (fold line) = fold (lineCode line) := by
  rw [lineCode, lineCode, commentStart?_fold]
  cases commentStart? line <;> simp

theorem stripComments_fold (t : Text) : stripComments (fold t) = fold (stripComments t) := by
  rw [stripComments, stripComments, fold_join, lines_fold, List.map_map]
  have hmap : (lines t).map (lineCode ∘ fold) = ((lines t).map lineCode).map fold := by
    rw [List.map_map]
    exact List.map_congr_left fun line _ => lineCode_fold line
  rw [hmap, List.filter_map]
  congr 2
  exact List.filter_congr fun code _ => by simp

@[simp] theorem withoutComments_fold (t : Text) :
    withoutComments (fold t) = fold (withoutComments t) := by
  rw [withoutComments, withoutComments, commentStart?_fold, stripComments_fold]
  split <;> rfl

theorem maskFrom_fold (masked : Text) (hide : Bool) (skip : Nat) (before : Option Char) (t : Text) :
    maskFrom (fold masked) hide skip (before.map Char.toLower) (fold t)
      = fold (maskFrom masked hide skip before t) := by
  have hblanks : ∀ n, fold (List.replicate n ' ') = List.replicate n ' ' := fun n =>
    List.map_replicate
  induction t generalizing masked hide skip before with
  | nil => simp [maskFrom]
  | cons c t ih =>
    have hblanked : List.replicate c.utf8Size ' ' ++ fold masked
        = fold (List.replicate c.utf8Size ' ' ++ masked) := by rw [fold_append, hblanks]
    have hshown : c.toLower :: fold masked = fold (c :: masked) := rfl
    have hnext : some c.toLower = (some c).map Char.toLower := rfl
    cases skip with
    | succ skip =>
      simp only [fold_cons, maskFrom, utf8Size_toLower]
      rw [hblanked, hshown, ← apply_ite fold, hnext, ih]
    | zero =>
      have hat := Lexeme.at_fold before (c :: t)
      rw [fold_cons] at hat
      simp only [fold_cons, maskFrom, hat, utf8Size_toLower]
      split
      · rw [hblanked, hnext, ih]
      · rw [hshown, hnext, ih]
      · rw [hshown, hnext, ih]

theorem maskComments_fold (t : Text) : maskComments (fold t) = fold (maskComments t) :=
  maskFrom_fold [] false 0 none t

theorem splitTrailing_fold (line : Text) :
    splitTrailing (fold line) = Prod.map fold (Option.map fold) (splitTrailing line) := by
  rw [splitTrailing, splitTrailing, commentStart?_fold]
  cases commentStart? line <;> simp

end Text

/-! ## Extents -/

/-- A place with its texts in lower case. -/
def Place.fold (p : Place) : Place :=
  ⟨p.passed, p.before.map Char.toLower, Text.fold p.rest⟩

namespace Text

theorem triviaEnd_fold (inComment : Bool) (passed : Nat) (before : Option Char) (t : Text) :
    triviaEnd inComment passed (before.map Char.toLower) (fold t)
      = (triviaEnd inComment passed before t).fold := by
  induction t generalizing inComment passed before with
  | nil => rfl
  | cons c t ih =>
    simp only [fold_cons, triviaEnd, bne_toLower (k := '\n') (by decide), isAsciiBlank_toLower,
      beq_toLower (k := '-') (by decide), head?_beq_fold (k := '-') (by decide)]
    split
    · exact ih _ _ (some c)
    · split
      · exact ih _ _ (some c)
      · split
        · exact ih _ _ (some c)
        · rfl

theorem skipTrivia_fold (p : Place) : skipTrivia p.fold = (skipTrivia p).fold :=
  triviaEnd_fold false p.passed p.before p.rest

theorem advance_fold (n : Nat) (p : Place) : advance n p.fold = (advance n p).fold := by
  simp only [advance, Place.fold, take_fold, drop_fold, getLast?_fold, Place.mk.injEq, true_and,
    and_true]
  cases (p.rest.take n).getLast? <;> rfl

theorem takeWhile_isIdentChar_fold (t : Text) :
    (fold t).takeWhile isIdentChar = fold (t.takeWhile isIdentChar) :=
  takeWhile_fold isIdentChar_toLower t

theorem nextToken?_fold (p : Place) :
    nextToken? p.fold = (nextToken? p).map (Prod.map fold Place.fold) := by
  rw [nextToken?, nextToken?, skipTrivia_fold]
  generalize skipTrivia p = q
  obtain ⟨passed, before, rest⟩ := q
  cases rest with
  | nil => rfl
  | cons c rest =>
    have hat := Lexeme.at_fold before (c :: rest)
    have htake := takeWhile_isIdentChar_fold (c :: rest)
    rw [fold_cons] at hat htake
    simp only [Place.fold, fold_cons, hat, htake, isIdentChar_toLower, length_fold]
    rw [← fold_cons, take_fold, Option.map_some, Option.some.injEq, Prod.mk.injEq]
    exact ⟨rfl, advance_fold _ ⟨passed, before, c :: rest⟩⟩

theorem nextTokens_fold (n : Nat) (p : Place) : nextTokens n p.fold = (nextTokens n p).map fold := by
  induction n generalizing p with
  | zero => rfl
  | succ n ih =>
    rw [nextTokens, nextTokens, nextToken?_fold]
    cases nextToken? p with
    | none => rfl
    | some next => simp [ih]

theorem isBeforeSemicolon_fold (t : Text) : isBeforeSemicolon (fold t) = isBeforeSemicolon t := by
  have htest : ∀ p : CodePoint,
      (p.fold.depth == 0 && (p.fold.char == ';' || matchesAt "is".toList p.fold))
        = (p.depth == 0 && (p.char == ';' || matchesAt "is".toList p)) := fun p => by
    rw [CodePoint.depth_fold, CodePoint.char_beq_fold (by decide), matchesAt_fold (by decide)]
  rw [isBeforeSemicolon, isBeforeSemicolon, findPoint?_fold htest, Option.any_map]
  congr 1
  funext p
  exact bne_toLower (by decide) p.char

theorem headed_fold (words : List String) (tokens : List Text) :
    headed words (tokens.map fold) = headed words tokens := by
  rw [headed, headed, List.length_map, List.zip_map_right, List.all_map]
  congr 2
  funext pair
  exact sameWord_fold_right ..

theorem opensComponent_fold (tokens : List Text) :
    opensComponent (tokens.map fold) = opensComponent tokens := by
  rw [opensComponent, opensComponent, headed_fold, headed_fold, headed_fold, ← List.map_drop,
    headed_fold]

theorem opensConstruct_fold (w : Text) (after : Place) :
    opensConstruct (fold w) after.fold = opensConstruct w after := by
  have hwords : constructWords.any (sameWord (fold w)) = constructWords.any (sameWord w) :=
    congrArg _ (funext fun v => sameWord_fold w v)
  have hrest : after.fold.rest = fold after.rest := rfl
  simp only [opensConstruct, hwords, sameWord_fold, nextTokens_fold, hrest, isBeforeSemicolon_fold,
    ← List.map_drop, headed_fold]
  congr 2
  cases nextTokens 4 after with
  | nil => rfl
  | cons token body =>
    simp only [List.map_cons, headed_fold, ← List.map_drop, ← apply_ite (List.map fold),
      opensComponent_fold]

end Text

theorem Nesting.word_fold (s : Nesting) (w : Text) (after : Place) :
    s.word (Text.fold w) after.fold = s.word w after := by
  simp only [Nesting.word, Text.sameWord_fold, Text.opensConstruct_fold]

namespace Text

theorem extentFrom_fold (parens : Nat) (state : Nesting) (skip position : Nat)
    (before : Option Char) (t : Text) :
    extentFrom parens state skip position (before.map Char.toLower) (fold t)
      = extentFrom parens state skip position before t := by
  induction t generalizing parens state skip position before with
  | nil => rfl
  | cons c t ih =>
    have hnext : some c.toLower = (some c).map Char.toLower := rfl
    cases skip with
    | succ skip =>
      simp only [fold_cons, extentFrom]
      exact ih _ _ _ _ (some c)
    | zero =>
      have hat := Lexeme.at_fold before (c :: t)
      have hplace : (⟨position, before.map Char.toLower, fold (c :: t)⟩ : Place)
          = Place.fold ⟨position, before, c :: t⟩ := rfl
      rw [fold_cons] at hat
      simp only [fold_cons, extentFrom, hat, isIdentChar_toLower, any_isIdentChar_toLower,
        takeWhile_isIdentChar_fold, beq_toLower (k := '(') (by decide),
        beq_toLower (k := ')') (by decide), beq_toLower (k := ';') (by decide)]
      simp only [← fold_cons, length_fold, hplace, advance_fold, Nesting.word_fold, hnext, ih]

@[simp] theorem extent?_fold (t : Text) : extent? (fold t) = extent? t :=
  extentFrom_fold 0 .start 0 0 none t

@[simp] theorem isConstruct_fold (t : Text) : isConstruct (fold t) = isConstruct t := by
  rw [isConstruct, isConstruct, extent?_fold, length_fold]

/-! ## Clauses -/

theorem clauseFrom?_fold (words : List Text) (fuel : Nat) (p : Place) :
    clauseFrom? words fuel p.fold = clauseFrom? words fuel p := by
  induction fuel generalizing p with
  | zero => rfl
  | succ fuel ih =>
    rw [clauseFrom?, clauseFrom?, skipTrivia_fold]
    generalize skipTrivia p = q
    simp only [show q.fold.rest = fold q.rest from rfl, show q.fold.passed = q.passed from rfl,
      isEmpty_fold, startsWith_fold, extent?_fold, advance_fold, ih]

@[simp] theorem clause?_fold (words : List Text) (t : Text) : clause? words (fold t) = clause? words t := by
  rw [clause?, clause?, length_fold]
  exact clauseFrom?_fold words (t.length + 1) ⟨0, none, t⟩

theorem cutClause?_fold (w t : Text) :
    cutClause? w (fold t) = (cutClause? w t).map (Prod.map fold fold) := by
  rw [cutClause?, cutClause?, clause?_fold]
  cases clause? [w] t <;> simp

end Text

/-! ## Pieces -/

/-- A piece with its texts in lower case. -/
def Piece.fold : Piece → Piece
  | .code t trailer => .code (Text.fold t) (trailer.map Text.fold)
  | .comment t => .comment (Text.fold t)

namespace Text

theorem trailer?_fold (t : Text) :
    trailer? (fold t) = (trailer? t).map (Prod.map fold fold) := by
  have hblank : ∀ c : Char, (c.toLower != '\n' && isBlank c.toLower) = (c != '\n' && isBlank c) :=
    fun c => by rw [bne_toLower (by decide), isBlank_toLower]
  rw [trailer?, trailer?, dropWhile_fold hblank, dropLead?_fold (by decide)]
  cases dropLead? "--".toList (t.dropWhile fun c => c != '\n' && isBlank c) with
  | none => rfl
  | some r =>
    rw [Option.map_some, Option.map_some, takeWhile_bne_fold (k := '\n') (by decide), dropWhile_bne_fold (k := '\n') (by decide), trimEnd_fold]
    rfl

/-- The pieces of a text that starts with a statement, blanks aside. -/
theorem piecesFrom?_code (found : List Piece) (fuel : Nat) {t r : Text} {c : Char}
    (ht : t.dropWhile isAsciiBlank = c :: r) (hcode : ∀ s, c :: r ≠ '-' :: '-' :: s) :
    piecesFrom? found (fuel + 1) t = (extent? (c :: r)).bind fun n =>
      match trailer? ((c :: r).drop n) with
      | some (comment, after) =>
        piecesFrom? (.code ((c :: r).take n) (some comment) :: found) fuel after
      | none => piecesFrom? (.code ((c :: r).take n) none :: found) fuel ((c :: r).drop n) := by
  rw [piecesFrom?, ht]
  split
  · contradiction
  · exact absurd ‹_› (hcode _)
  · cases extent? (c :: r) <;> rfl

theorem piecesFrom?_fold (found : List Piece) (fuel : Nat) (t : Text) :
    piecesFrom? (found.map Piece.fold) fuel (fold t)
      = (piecesFrom? found fuel t).map (List.map Piece.fold) := by
  induction fuel generalizing found t with
  | zero => rfl
  | succ fuel ih =>
    have hdrop := dropWhile_fold isAsciiBlank_toLower t
    cases ht : t.dropWhile isAsciiBlank with
    | nil => simp [piecesFrom?, hdrop, ht]
    | cons c r =>
      rw [ht, fold_cons] at hdrop
      by_cases hdash : ∃ s, c :: r = '-' :: '-' :: s
      · obtain ⟨s, hs⟩ := hdash
        have := ih (.comment (trimEnd (s.takeWhile (· != '\n'))) :: found) (s.dropWhile (· != '\n'))
        rw [piecesFrom?, piecesFrom?, hdrop, ← fold_cons, ht, hs]
        simp only [fold_cons, show ('-' : Char).toLower = '-' from rfl, takeWhile_bne_fold (k := '\n') (by decide),
          dropWhile_bne_fold (k := '\n') (by decide), trimEnd_fold]
        exact this
      · have hdash' : ∀ s, c.toLower :: fold r ≠ '-' :: '-' :: s := by
          intro s hs
          cases r with
          | nil => simp at hs
          | cons d r =>
            rw [fold_cons, List.cons.injEq, List.cons.injEq, toLower_eq_iff (by decide),
              toLower_eq_iff (by decide)] at hs
            exact hdash ⟨r, by rw [hs.1, hs.2.1]⟩
        rw [piecesFrom?_code _ _ hdrop hdash', piecesFrom?_code _ _ ht fun s hs => hdash ⟨s, hs⟩,
          ← fold_cons, extent?_fold]
        cases extent? (c :: r) with
        | none => rfl
        | some n =>
          simp only [Option.bind_some, drop_fold, take_fold, trailer?_fold]
          cases trailer? ((c :: r).drop n) with
          | none => exact ih (.code ((c :: r).take n) none :: found) ((c :: r).drop n)
          | some next => exact ih (.code ((c :: r).take n) (some next.1) :: found) next.2

theorem pieces?_fold (t : Text) : pieces? (fold t) = (pieces? t).map (List.map Piece.fold) := by
  rw [pieces?, pieces?, length_fold]
  exact piecesFrom?_fold [] (t.length + 1) t

end Text
end CanonicalVhdl
