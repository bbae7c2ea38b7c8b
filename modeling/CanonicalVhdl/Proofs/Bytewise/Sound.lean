import CanonicalVhdl.Proofs.Bytewise.Comment
import CanonicalVhdl.Proofs.Bytewise.Outer
import CanonicalVhdl.Proofs.Bytewise.Piece
import CanonicalVhdl.Proofs.Bytewise.Word

/-!
# The scans through the bytes of a text are sound

On every text, and from every place of it on, the scans through the bytes answer without a fault what
the searches through the characters answer.  The offsets that they give lie in the text and between
characters, so a caller may cut the text there without looking.

## Main definitions

* `Bytewise.IsOffset`, `Bytewise.IsRange` — offsets and ranges at which a text can be cut.
* `Bytewise.Faultless t start` — every scan of a text, or of what follows an offset, answers.
* `Bytewise.Usable t start` — what the scans give are offsets and ranges of the text.

## Main statements

* `Bytewise.scan_sound` — at every place of every text the scans are faultless and give usable offsets.
-/

namespace CanonicalVhdl.Bytewise

open Text

/-! ## Offsets and ranges -/

/-- Whether a byte offset lies in a text and between characters. -/
structure IsOffset (t : Text) (n : Nat) : Prop where
  /-- It is not beyond the end. -/
  le : n ≤ byteLength t
  /-- It is in front of a character or at the end. -/
  boundary : IsBoundary t n

/-- Whether a range of byte offsets lies in a text, in order and between characters. -/
structure IsRange (t : Text) (r : Nat × Nat) : Prop where
  /-- It does not end in front of its start. -/
  ordered : r.1 ≤ r.2
  /-- It starts at an offset of the text. -/
  start : IsOffset t r.1
  /-- It ends at an offset of the text. -/
  stop : IsOffset t r.2

section Offsets

variable {t : Text}

theorem isOffset_offset (t : Text) (i : Nat) : IsOffset t (offset t i) :=
  ⟨offset_le_byteLength t i, isBoundary_offset t i⟩

/-- Positions in order have offsets in order. -/
theorem isRange_byteSpan {r : Nat × Nat} (h : r.1 ≤ r.2) : IsRange t (byteSpan t r) :=
  ⟨offset_le_offset h, isOffset_offset t r.1, isOffset_offset t r.2⟩

/-- **A range is one at which the text can be cut.** -/
theorem isRange_iff {r : Nat × Nat} : IsRange t r ↔ ∃ x, slice? t r.1 r.2 = some x := by
  constructor
  · rintro ⟨hle, ⟨-, hstart⟩, ⟨-, hstop⟩⟩
    obtain ⟨a, u, rfl, ha⟩ := isBoundary_iff.1 hstart
    obtain ⟨b, v, hsplit, hb⟩ := isBoundary_iff.1 hstop
    obtain ⟨x, rfl, rfl⟩ := exists_append_of_le hsplit (by omega)
    exact ⟨x, slice?_eq_some_iff.2 ⟨a, v, rfl, ha, hb⟩⟩
  · rintro ⟨x, hx⟩
    obtain ⟨a, b, rfl, ha, hb⟩ := slice?_eq_some_iff.1 hx
    have hstart : IsBoundary (a ++ (x ++ b)) r.1 := isBoundary_iff.2 ⟨a, x ++ b, rfl, ha⟩
    have hstop : IsBoundary (a ++ (x ++ b)) r.2 :=
      isBoundary_iff.2 ⟨a ++ x, b, (List.append_assoc a x b).symm, hb⟩
    exact ⟨by rw [← ha, ← hb]; exact byteLength_le_append a x, ⟨hstart.le, hstart⟩, ⟨hstop.le, hstop⟩⟩

end Offsets

/-! ## The scans -/

/-- Whether every scan of a text, or of what follows one of its offsets, answers without a fault; what
it answers is what the characters answer. -/
structure Faultless (t : Text) (start : Nat) : Prop where
  /-- A lexeme is told in front of the end. -/
  lexeme : start < byteLength t → ∃ found, lexemeAt (bytes t) start = .ok found
  /-- The end of a word is found. -/
  wordStop : ∃ stop, wordEnd (bytes t) start = .ok stop
  /-- Whether a word starts is told. -/
  wordStart : ∃ starts, startsWordAt (bytes t) start = .ok starts
  /-- The bytes outside literals and comments are found. -/
  structural : points t = .ok ((codePoints t).flatMap (spread t))
  /-- A group is found. -/
  group : ∀ opening closing : Char,
    balancedSpan opening closing t = .ok ((balancedSpan? opening closing t).map (byteSpan t))
  /-- A word is found. -/
  whole : ∀ ignoreCase word, findWord ignoreCase word t = .ok ((word? ignoreCase word t).map (offset t))
  /-- A word is found from the offset on. -/
  wholeFrom : ∀ ignoreCase word i, position? start t = some i →
    findWordFrom ignoreCase word start t = .ok ((wordFrom? ignoreCase word i t).map (offset t))
  /-- A phrase is found. -/
  sentence : ∀ ignoreCase words,
    findSentence ignoreCase words t = .ok ((phrases ignoreCase words t).map (byteSpan t))
  /-- A comment is found. -/
  comment : commentStart t = .ok ((commentStart? t).map (offset t))
  /-- Comments are removed. -/
  stripped : stripComments t = .ok (Text.stripComments t)
  /-- Comments are removed if there are some. -/
  without : withoutComments t = .ok (Text.withoutComments t)
  /-- Comments are masked. -/
  masked : maskComments t = .ok (Text.maskComments t)
  /-- A line is cut in front of its comment. -/
  trailing : splitTrailing t = .ok (Text.splitTrailing t)
  /-- The first loose word is cut out. -/
  first : firstWord t = .ok (firstWord? t)
  /-- The last loose word is cut out. -/
  last : lastWord t = .ok (lastWord? t)
  /-- The text is cut at a separator of ASCII. -/
  separated : ∀ separator : Char, separator.toNat < 128 →
    splitTopLevel separator t = .ok (splitOuter separator t)
  /-- A pattern is found everywhere. -/
  hits : ∀ pattern, topLevelMatches pattern t = .ok ((outerMatches pattern t).map (offset t))
  /-- A pattern is found once. -/
  hit : ∀ pattern, findTopLevel pattern t = .ok ((outerMatch? pattern t).map (offset t))
  /-- Whether a word leads is told. -/
  leads : ∀ word, startsWithWord word t = .ok (startsWith word t)
  /-- A leading word is cut off. -/
  leading : ∀ word, stripWordPrefix word t = .ok (afterWord? word t)
  /-- A trailing word is cut off. -/
  ending : ∀ word, stripWordSuffix word t = .ok (beforeWord? word t)
  /-- Leading words are cut off. -/
  leadingAll : ∀ words, stripSentencePrefix words t = .ok (afterWords? words t)
  /-- A closing clause is cut off. -/
  closed : ∀ keywords required name,
    stripEndClause keywords required name t = .ok (beforeEnd? keywords required name t)
  /-- Blanks and comments are passed over. -/
  trivia : skipTrivia t start = .ok (triviaOffset start t)
  /-- A token is found. -/
  token : ∃ found, nextToken t start = .ok found
  /-- Whether the word `is` stands before a semicolon is told. -/
  declared : ∃ found, isBeforeSemicolon t start = .ok found
  /-- Whether a word opens a construct is told. -/
  opens : ∀ word, ∃ found, opensConstruct t word start = .ok found
  /-- A construct is ended. -/
  construct : constructEnd t = .ok ((extent? t).map (offset t))
  /-- A clause is found. -/
  clause : ∀ words, findClause words t = .ok ((clause? words t).map fun found => (offset t found.1, found.2))
  /-- A region is cut. -/
  region : splitPieces t = .ok (pieces? t)

/-- Whether the scans of a text, or of what follows one of its offsets, give offsets and ranges of the
text. -/
structure Usable (t : Text) (start : Nat) : Prop where
  /-- A group is a range. -/
  group : ∀ opening closing r, balancedSpan opening closing t = .ok (some r) → IsRange t r
  /-- A word stands at an offset. -/
  word : ∀ ignoreCase word n, findWordFrom ignoreCase word start t = .ok (some n) → start ≤ n ∧ IsOffset t n
  /-- A phrase takes a range. -/
  sentence : ∀ ignoreCase words rs, findSentence ignoreCase words t = .ok rs → ∀ r ∈ rs, IsRange t r
  /-- A comment starts at an offset. -/
  comment : ∀ n, commentStart t = .ok (some n) → IsOffset t n
  /-- A pattern stands at offsets. -/
  hits : ∀ pattern ns, topLevelMatches pattern t = .ok ns → ∀ n ∈ ns, IsOffset t n
  /-- Blanks and comments end at an offset. -/
  trivia : ∀ n, skipTrivia t start = .ok n → start ≤ n ∧ IsOffset t n
  /-- A construct ends at an offset. -/
  construct : ∀ n, constructEnd t = .ok (some n) → IsOffset t n
  /-- A clause starts at an offset. -/
  clause : ∀ words n k, findClause words t = .ok (some (n, k)) → IsOffset t n

section Soundness

variable {t : Text} {start : Nat}

/-- **Every scan answers without a fault.** -/
theorem faultless (h : IsBoundary t start) : Faultless t start := by
  obtain ⟨a, u, rfl, rfl⟩ := isBoundary_iff.1 h
  have hplace : IsPlace (a ++ u) (placeBehind a u) := ⟨a, u, rfl, rfl⟩
  have hoffset : offset (a ++ u) (placeBehind a u).passed = byteLength a := offset_length a u
  constructor
  case lexeme =>
    intro hlt
    cases u with
    | nil =>
      rw [List.append_nil] at hlt
      exact absurd hlt (Nat.lt_irrefl _)
    | cons c u => exact ⟨_, lexemeAt_eq a c u⟩
  case wordStop => exact ⟨_, wordEnd_eq a u⟩
  case wordStart =>
    cases u with
    | nil =>
      refine ⟨false, ?_⟩
      rw [startsWordAt, getElem?_place a []]
      rfl
    | cons c u => exact ⟨_, startsWordAt_eq a c u⟩
  case structural => exact points_eq _
  case group => exact fun opening closing => balancedSpan_eq opening closing _
  case whole => exact fun ignoreCase word => findWord_eq ignoreCase word _
  case wholeFrom => exact fun _ _ _ hi => findWordFrom_eq hi
  case sentence => exact fun ignoreCase words => findSentence_eq ignoreCase words _
  case comment => exact commentStart_eq _
  case stripped => exact stripComments_eq _
  case without => exact withoutComments_eq _
  case masked => exact maskComments_eq _
  case trailing => exact splitTrailing_eq _
  case first => exact firstWord_eq _
  case last => exact lastWord_eq _
  case separated => exact fun _ hs => splitTopLevel_eq hs _
  case hits => exact fun pattern => topLevelMatches_eq pattern _
  case hit => exact fun pattern => findTopLevel_eq pattern _
  case leads => exact fun word => startsWithWord_eq word _
  case leading => exact fun word => stripWordPrefix_eq word _
  case ending => exact fun word => stripWordSuffix_eq word _
  case leadingAll => exact fun words => stripSentencePrefix_eq words _
  case closed => exact fun keywords required name => stripEndClause_eq keywords required name _
  case trivia =>
    have hskip := (skipTrivia_eq hplace).1
    rw [hoffset] at hskip
    rw [hskip, triviaOffset, position?_append]
    dsimp only
    rw [List.take_left, List.drop_left]
    rfl
  case token =>
    have htoken := (nextToken_eq hplace).1
    rw [hoffset] at htoken
    exact ⟨_, htoken⟩
  case declared => exact exists_isBeforeSemicolon a u
  case opens => exact fun word => exists_opensConstruct word a u
  case construct => exact constructEnd_eq _
  case clause => exact fun words => findClause_eq words _
  case region => exact splitPieces_eq _

/-- **Every offset that a scan gives is one of the text.** -/
theorem usable (h : IsBoundary t start) : Usable t start := by
  constructor
  case group =>
    intro opening closing r hr
    rw [balancedSpan_eq] at hr
    obtain ⟨g, hg, rfl⟩ := Option.map_eq_some_iff.1 (Except.ok.inj hr)
    exact isRange_byteSpan (le_of_balancedSpan? hg)
  case word =>
    intro ignoreCase word n hn
    obtain ⟨i, hi⟩ := Option.isSome_iff_exists.1 h
    rw [findWordFrom_eq hi] at hn
    obtain ⟨j, hj, rfl⟩ := Option.map_eq_some_iff.1 (Except.ok.inj hn)
    have hleast := (wordFrom?_isLeast hi _).1 (by rw [hj]; rfl)
    exact ⟨hleast.1.1, isOffset_offset t j⟩
  case sentence =>
    intro ignoreCase words rs hrs r hr
    rw [findSentence_eq] at hrs
    rw [← Except.ok.inj hrs] at hr
    obtain ⟨s, hs, rfl⟩ := List.mem_map.1 hr
    apply isRange_byteSpan
    cases words with
    | nil => cases hs
    | cons first words => exact le_of_mem_phrasesFrom (fun _ h => absurd h List.not_mem_nil) s hs
  case comment =>
    intro n hn
    rw [commentStart_eq] at hn
    obtain ⟨i, -, rfl⟩ := Option.map_eq_some_iff.1 (Except.ok.inj hn)
    exact isOffset_offset t i
  case hits =>
    intro pattern ns hns n hn
    rw [topLevelMatches_eq] at hns
    rw [← Except.ok.inj hns] at hn
    obtain ⟨i, -, rfl⟩ := List.mem_map.1 hn
    exact isOffset_offset t i
  case trivia =>
    intro n hn
    obtain ⟨a, u, rfl, rfl⟩ := isBoundary_iff.1 h
    obtain ⟨g, v, rfl, -, hskip⟩ := skipTrivia_cases (u.length + 1) a u (Nat.lt_succ_self _)
    obtain rfl := Except.ok.inj (hskip.symm.trans hn)
    have hboundary : IsBoundary (a ++ (g ++ v)) (byteLength (a ++ g)) :=
      isBoundary_iff.2 ⟨a ++ g, v, (List.append_assoc a g v).symm, rfl⟩
    exact ⟨byteLength_le_append a g, hboundary.le, hboundary⟩
  case construct =>
    intro n hn
    rw [constructEnd_eq] at hn
    obtain ⟨i, -, rfl⟩ := Option.map_eq_some_iff.1 (Except.ok.inj hn)
    exact isOffset_offset t i
  case clause =>
    intro words n k hn
    rw [findClause_eq] at hn
    obtain ⟨found, -, hfound⟩ := Option.map_eq_some_iff.1 (Except.ok.inj hn)
    obtain ⟨rfl, rfl⟩ := Prod.mk.inj hfound
    exact isOffset_offset t found.1

end Soundness

/-- **The scans through the bytes of a text are sound**: from every place on they answer without a
fault, and what they give are offsets and ranges at which the text can be cut. -/
theorem scan_sound (t : Text) (start : Nat) (h : IsBoundary t start) : Faultless t start ∧ Usable t start :=
  ⟨faultless h, usable h⟩

/-- Between characters of several bytes, a comment in front, and a phrase that has to be cut out. -/
theorem scan_sound_wide :
    IsBoundary "é end  if; -- ü\nif (x) then".toList 2 ∧
      Faultless "é end  if; -- ü\nif (x) then".toList 2 ∧
      findSentence true ["END".toList, "if".toList] "é end  if; -- ü\nif (x) then".toList = .ok [(3, 10)] ∧
      IsRange "é end  if; -- ü\nif (x) then".toList (3, 10) := by
  have hstart : IsBoundary "é end  if; -- ü\nif (x) then".toList 2 := by
    unfold IsBoundary
    decide
  obtain ⟨hfaultless, husable⟩ := scan_sound "é end  if; -- ü\nif (x) then".toList 2 hstart
  have hphrase : (phrases true ["END".toList, "if".toList] "é end  if; -- ü\nif (x) then".toList).map
      (byteSpan "é end  if; -- ü\nif (x) then".toList) = [(3, 10)] := by
    decide +kernel
  have hsentence := hfaultless.sentence true ["END".toList, "if".toList]
  rw [hphrase] at hsentence
  exact ⟨hstart, hfaultless, hsentence, husable.sentence _ _ _ hsentence _ List.mem_cons_self⟩

end CanonicalVhdl.Bytewise
