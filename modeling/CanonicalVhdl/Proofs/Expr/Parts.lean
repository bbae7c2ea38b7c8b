import CanonicalVhdl.Proofs.Expr.Canonical
import CanonicalVhdl.Proofs.Token.Cut

/-!
# Reading the parts of expressions

Ranges, indices, references and arguments are read from their texts, provided that
the expressions inside are.

## Main definitions

* `Text.Reads` — a reader returns a value from a text, whatever the padding around it.
* `Token.isForeign` — the words and symbols that stand outside no expression.

## Main statements

* `Token.lacks_of_isCalm` — no token outside an expression's parentheses is foreign.
* `Range.readWith_text`, `Index.readWith_text`, `Reference.readWith_text`,
  `Argument.readWith_text` — the readers invert the canonical texts.
-/

namespace CanonicalVhdl

open Text Token

/-- A reader that returns a value from a text, whatever the padding around it. -/
def Text.Reads {α : Type} (read : Text → Option α) (t : Text) (a : α) : Prop :=
  ∀ g g', IsPad g → IsPad g' → read (g ++ (t ++ g')) = some a

theorem Text.Reads.self {α : Type} {read : Text → Option α} {t : Text} {a : α}
    (h : Reads read t a) : read t = some a := by
  simpa using h [] [] isPad_nil isPad_nil

/-- Padding around a solid text is trimmed off. -/
theorem Text.Solid.trim_pad {t : Text} (h : Solid t) {g g' : Text} (hg : IsPad g)
    (hg' : IsPad g') : trim (g ++ (t ++ g')) = t := by
  rw [← List.append_assoc]
  exact trim_pad_trimmed hg.all_isBlank h.toTrimmed hg'.all_isBlank

/-! ## Solid texts -/

theorem isBlank_of_isNumberChar {c : Char} (h : isNumberChar c = true) : isBlank c = false := by
  rcases Bool.or_eq_true_iff.1 h with h | h
  · exact isBlank_eq_false_of_isIdentChar (isIdentChar_of_isDigit h)
  · rw [beq_iff_eq] at h; rw [h]; decide

/-- A number with a sign or none is solid. -/
theorem solid_signed (negative : Bool) {digits : Text} (hne : digits ≠ [])
    (hall : digits.all isNumberChar = true) :
    Solid ((if negative then ['-'] else []) ++ digits) := by
  refine solid_of_forall (by simp [hne]) fun c hc => ?_
  rw [List.mem_append] at hc
  rcases hc with hc | hc
  · cases negative with
    | false => cases hc
    | true => rw [if_pos rfl, List.mem_singleton] at hc; rw [hc]; decide
  · exact isBlank_of_isNumberChar (List.all_eq_true.1 hall c hc)

theorem Integer64.solid_text (n : Integer64) : Solid n.text := by
  have := solid_signed (decide (n.val < 0)) (ofNat_ne_nil n.val.natAbs)
    (all_isNumberChar_of_all_isDigit (all_isDigit_ofNat _))
  rw [text, Text.ofInt]
  split
  · rename_i h; simpa [h] using this
  · rename_i h; simpa [h] using this

theorem Real64.solid_text (x : Real64) : Solid x.text := by
  obtain ⟨hhead, hall⟩ := (x.shortest fun _ => true).positional_chars
  have hne : (x.shortest fun _ => true).positional ≠ [] := by
    intro h; rw [h] at hhead; simp at hhead
  have := solid_signed x.negative hne hall
  rw [text]
  split
  · rename_i h; simpa [h] using this
  · rename_i h; simpa [h] using this

/-- A text between two characters that are no blanks is solid. -/
theorem solid_enclosed {c d : Char} (hc : isBlank c = false) (hd : isBlank d = false) (t : Text) :
    Solid (c :: (t ++ [d])) :=
  (solid_singleton hc).between (solid_singleton hd) t

/-- A name with a group after it is solid. -/
theorem Text.IsRun.solid_call {w : Text} (hw : IsRun w) (t : Text) : Solid (w ++ '(' :: (t ++ [')'])) :=
  hw.solid.between (solid_singleton (by decide)) ('(' :: t)

/-- A base specifier and a quoted literal are solid. -/
theorem solid_quotedText {base : Text} (hb : ∀ c ∈ base, isBlank c = false) (body : Text) :
    Solid (quotedText base body) := by
  have hquote : Solid ['"'] := solid_singleton (by decide)
  cases base with
  | nil => exact hquote.between hquote body
  | cons c base =>
    exact (solid_of_forall (by simp) hb).between hquote ('"' :: body)

theorem Reference.solid_text (r : Reference) (h : ∀ d ∈ r.designators, IsName d) :
    Solid r.text := by
  cases r with
  | name n => exact n.isName.isRun.solid
  | member record field => exact record.isName.isRun.solid.between field.isName.isRun.solid ['.']
  | indexed n index => exact n.isName.isRun.solid_call _
  | attributeOf object designator =>
    have hd := h designator (by simp [Reference.designators])
    exact object.isName.isRun.solid.between hd.isRun.solid ['\'']

theorem Literal.solid_text (l : Literal) : Solid l.text := by
  have hticked : ∀ c, Solid (tickedText c) := fun c => solid_enclosed (by decide) (by decide) [c]
  cases l with
  | bit value => exact hticked _
  | logic value => exact hticked _
  | boolean value => exact IsRun.solid (by cases value <;> exact ⟨by decide, by decide⟩)
  | real value => exact value.solid_text
  | integer value => exact value.solid_text
  | vector value =>
    cases value with
    | bits values => exact solid_quotedText (by simp) _
    | logics values => exact solid_quotedText (by simp) _
    | hexadecimal digits => exact solid_quotedText (by simp; decide) _
    | octal digits => exact solid_quotedText (by simp; decide) _
    | aggregate elements => exact solid_enclosed (by decide) (by decide) _

/-- The text of an expression is solid. -/
theorem Expr.solid_text (e : Expr) (h : ∀ d ∈ e.designators, IsName d) : Solid e.text := by
  cases e with
  | reference r => exact r.solid_text h
  | literal l => exact l.solid_text
  | arith lhs op rhs =>
    simp only [Expr.designators, List.mem_append, or_imp, forall_and] at h
    have := (Expr.solid_text lhs h.1).between (Expr.solid_text rhs h.2)
      (' ' :: (op.symbol.toList ++ [' ']))
    simpa [Expr.text] using this
  | group inner => exact solid_enclosed (by decide) (by decide) _
  | compare lhs op rhs =>
    simp only [Expr.designators, List.mem_append, or_imp, forall_and] at h
    have := (Expr.solid_text lhs h.1).between (Expr.solid_text rhs h.2)
      (' ' :: (op.symbol.toList ++ [' ']))
    simpa [Expr.text] using this
  | edge kind signal => exact kind.isName.isRun.solid_call _
  | negation operand =>
    exact (show IsRun "not".toList from ⟨by decide, by decide⟩).solid.between
      (Expr.solid_text operand h) [' ']
  | logic lhs op rhs =>
    simp only [Expr.designators, List.mem_append, or_imp, forall_and] at h
    have := (Expr.solid_text lhs h.1).between (Expr.solid_text rhs h.2)
      (' ' :: (op.symbol.toList ++ [' ']))
    simpa [Expr.text] using this
  | convert kind value => exact kind.isName.isRun.solid_call _
  | call name arguments => exact name.isName.isRun.solid_call _

theorem Range.solid_text (r : Range) (h : ∀ d ∈ r.designators, IsName d) : Solid r.text := by
  cases r with
  | ascending low high =>
    simp only [Range.designators, List.mem_append, or_imp, forall_and] at h
    exact (low.solid_text h.1).between (high.solid_text h.2) _
  | descending high low =>
    simp only [Range.designators, List.mem_append, or_imp, forall_and] at h
    exact (high.solid_text h.1).between (low.solid_text h.2) _

theorem Index.solid_text (i : Index) (h : ∀ d ∈ i.designators, IsName d) : Solid i.text := by
  cases i with
  | position value => exact value.solid_text h
  | slice range => exact range.solid_text h
  | others => exact IsRun.solid ⟨by decide, by decide⟩

/-! ## Foreign words and symbols -/

namespace Token

/-- The words and symbols that stand outside the parentheses of no expression. -/
def isForeign (pattern : Text) : Bool :=
  if pattern.head?.any Char.isAlpha then
    isReserved pattern && !expressionWords.contains (fold pattern)
  else !operatorSymbols.contains pattern && !([[' '], ['\n'], ['.'], ['\''], ['-']].contains pattern)

/-- Outside the parentheses of an expression nothing foreign stands. -/
theorem lacks_of_isCalm {pattern : Text} (hp : isForeign pattern = true) {tokens : List Token}
    (h : ∀ t ∈ tokens, t.isCalm = true) : Lacks pattern tokens := by
  intro token hmem
  have hcalm := h token hmem
  rw [isForeign] at hp
  cases token with
  | number | quoted | ticked | group => rfl
  | word w =>
    by_cases ha : pattern.head?.any Char.isAlpha = true
    · rw [if_pos ha, Bool.and_eq_true, Bool.not_eq_true'] at hp
      cases hs : sameWord pattern w with
      | false => simp [spells, hs]
      | true =>
        rw [isCalm, ← sameWord_iff.1 hs, hp.2, ← isReserved_congr hs, hp.1] at hcalm
        cases hcalm
    · simp [spells, ha]
  | symbol s =>
    cases hs : s == pattern with
    | false => simp [spells, hs]
    | true =>
      rw [beq_iff_eq] at hs
      subst hs
      have hs : s ∈ operatorSymbols := by simpa [isCalm] using hcalm
      have key : ∀ s ∈ operatorSymbols, s.head?.any Char.isAlpha = false := by decide
      rw [key s hs] at hp
      simp [hs] at hp
  | mark c =>
    cases hs : [c] == pattern with
    | false => simp [spells, hs]
    | true =>
      rw [beq_iff_eq] at hs
      subst hs
      have hc : c ∈ [' ', '.', '\'', '-'] := by simpa [isCalm] using hcalm
      have key : ∀ c ∈ [' ', '.', '\'', '-'], c.isAlpha = false
          ∧ [[' '], ['\n'], ['.'], ['\''], ['-']].contains [c] = true := by decide
      rw [List.head?_cons, Option.any_some, (key c hc).1, (key c hc).2] at hp
      simp at hp

/-- The words that readers of statements look for outside expressions. -/
def statementWords : List Text :=
  ["to", "downto", "others", "when", "else", "elsif", "then", "is", "in", "loop", "generate",
    "generic", "port", "map", "open", "end", "begin"].map String.toList

theorem isReserved_of_isForeign {w : Text} (h : isForeign w = true)
    (hw : w.head?.any Char.isAlpha = true) : isReserved w = true := by
  rw [isForeign, if_pos hw, Bool.and_eq_true] at h
  exact h.1

theorem isForeign_words : ∀ w ∈ statementWords, isForeign w = true := by
  decide

/-! ## Cutting at connectives -/

/-- The pattern that a connective is found by. -/
theorem spells_connective {s : Text} : (connective s).spells s = true := by
  rw [connective]
  split
  · rename_i h; simp [spells, h, sameWord_self]
  · simp [spells]

/-- Padding spells no pattern. -/
theorem lacks_pad {s : Text} (hs : isForeign s = true) {g : Text} (hg : IsPad g) :
    Lacks s (pad g) := by
  intro t ht
  obtain ⟨c, hc, rfl⟩ := List.mem_map.1 ht
  rw [spells, beq_eq_false_iff_ne]
  rintro rfl
  rcases hg c hc with rfl | rfl
  · exact absurd hs (by decide)
  · exact absurd hs (by decide)

theorem lacks_blank {s : Text} (hs : isConnective s = true) : Lacks s [mark ' '] := by
  intro t ht
  rw [List.mem_singleton] at ht
  subst ht
  rw [spells, beq_eq_false_iff_ne]
  rintro rfl
  exact absurd hs (by decide)

/-- A text is cut at the first connective that is the pattern, whatever follows. -/
theorem cutOuter?_spaced {s : Text} (hp : IsPattern s) (hs : isConnective s = true)
    {ts : List Token} (hts : IsPhrase ts) (hl : Lacks s ts) (u : Text) :
    cutOuter? s (render ts ++ ' ' :: (s ++ ' ' :: u)) = some (render ts ++ [' '], ' ' :: u) := by
  have hfit : FitAll none ((ts ++ [mark ' ']) ++ [connective s]) (' ' :: u).head? := by
    rw [fitAll_append, fitAll_append]
    refine ⟨⟨hts _ _ (by rfl) (by rfl), fits_blank, trivial⟩, ?_, trivial⟩
    simpa [firstOr] using fits_connective hs
  have := cutOuter?_token hp hfit (lacks_append.2 ⟨hl, lacks_blank hs⟩) spells_connective
    (by rw [text_connective])
  simpa using this

/-- The only place of a connective between two phrases. -/
theorem outerMatches_spaced {s : Text} (hp : IsPattern s) (hs : isConnective s = true)
    {ts us : List Token} (hts : IsPhrase ts) (hus : IsPhrase us) (hlt : Lacks s ts)
    (hlu : Lacks s us) :
    outerMatches s (render (ts ++ (spaced s ++ us))) = [(render ts).length + 1] := by
  have hsplit : ts ++ (spaced s ++ us) = (ts ++ [mark ' ']) ++ connective s :: (mark ' ' :: us) := by
    simp [spaced]
  have hfit : FitAll none (ts ++ (spaced s ++ us)) none :=
    (hts.spaced hus hs) _ _ (by rfl) (by rfl)
  rw [hsplit] at hfit ⊢
  rw [outerMatches_eq_singleton hp hfit (lacks_append.2 ⟨hlt, lacks_blank hs⟩) spells_connective]
  · simp
  · exact (@lacks_append s [mark ' '] us).2 ⟨lacks_blank hs, hlu⟩

end Token

theorem isPattern_word {w : Text} (h : IsName w) : IsPattern w := .inl ⟨h.isRun, h.head⟩

/-! ## Ranges -/

/-- The two sides of a connective are read on their own. -/
theorem Text.Reads.sides {α β : Type} {left : Text → Option α} {right : Text → Option β}
    {t u s : Text} {a : α} {b : β} (ht : Reads left t a) (hu : Reads right u b) :
    left ((t ++ ' ' :: (s ++ ' ' :: u)).take (t.length + 1)) = some a ∧
      right ((t ++ ' ' :: (s ++ ' ' :: u)).drop (t.length + 1 + s.length)) = some b := by
  have htake : (t ++ ' ' :: (s ++ ' ' :: u)).take (t.length + 1) = t ++ [' '] := by
    rw [show t ++ ' ' :: (s ++ ' ' :: u) = (t ++ [' ']) ++ (s ++ ' ' :: u) by simp]
    exact List.take_left' (by simp)
  have hdrop : (t ++ ' ' :: (s ++ ' ' :: u)).drop (t.length + 1 + s.length) = ' ' :: u := by
    rw [show t ++ ' ' :: (s ++ ' ' :: u) = (t ++ [' '] ++ s) ++ ' ' :: u by simp]
    exact List.drop_left' (by simp; omega)
  rw [htake, hdrop]
  exact ⟨by simpa using ht [] [' '] isPad_nil isPad_blank,
    by simpa using hu [' '] [] isPad_blank isPad_nil⟩

theorem Range.text_ascending (low high : Expr) :
    (Range.ascending low high).text = low.text ++ ' ' :: ("to".toList ++ ' ' :: high.text) := by
  simp [Range.text]

theorem Range.text_descending (high low : Expr) :
    (Range.descending high low).text = high.text ++ ' ' :: ("downto".toList ++ ' ' :: low.text) := by
  simp [Range.text]

/-- **A range is read from its text.** -/
theorem Range.readWith_text {expr : Text → Option Expr} (r : Range)
    (hd : ∀ d ∈ r.designators, IsDesignator d)
    (hfit : Text.fits Limits.expressionBytes r.text = true)
    (hlow : Reads expr r.low.text r.low) (hhigh : Reads expr r.high.text r.high) :
    Reads (Range.readWith expr) r.text r := by
  intro g g' hg hg'
  have hsolid := r.solid_text fun d h => (hd d h).toIsName
  have hto : IsPattern "to".toList := isPattern_word (isName_of_all (by decide))
  have hdown : IsPattern "downto".toList := isPattern_word (isName_of_all (by decide))
  have hforeign : ∀ e : Expr, (∀ d ∈ e.designators, IsDesignator d) →
      Lacks "to".toList e.tokens ∧ Lacks "downto".toList e.tokens := fun e h =>
    ⟨lacks_of_isCalm (isForeign_words _ (by decide)) (e.isCalm h),
      lacks_of_isCalm (isForeign_words _ (by decide)) (e.isCalm h)⟩
  simp only [Range.readWith, hsolid.trim_pad hg hg', hfit, Bool.not_true, Bool.false_eq_true, if_false]
  cases r with
  | ascending low high =>
    simp only [Range.designators, List.mem_append, or_imp, forall_and] at hd
    have hl := low.isPhrase fun d h => (hd.1 d h).toIsName
    have hh := high.isPhrase fun d h => (hd.2 d h).toIsName
    have hnone : outerMatches "downto".toList (Range.ascending low high).text = [] := by
      rw [← Range.render_tokens]
      refine outerMatches_eq_nil hdown (hl.spaced hh (by decide) _ _ (by rfl) (by rfl)) ?_
      rw [Range.tokens, lacks_append, lacks_append]
      exact ⟨(hforeign low hd.1).2, by decide, (hforeign high hd.2).2⟩
    have hone : outerMatches "to".toList (Range.ascending low high).text
        = [low.text.length + 1] := by
      rw [← Range.render_tokens, ← low.render_tokens]
      exact outerMatches_spaced hto (by decide) hl hh (hforeign low hd.1).1 (hforeign high hd.2).1
    rw [hnone, hone, Range.text_ascending]
    obtain ⟨h1, h2⟩ := Text.Reads.sides (s := "to".toList) hlow hhigh
    simp only [Range.low, Range.high] at h1 h2
    simp only [h1, Option.bind_eq_bind, Option.bind_some]
    rw [show low.text.length + 1 + 2 = low.text.length + 1 + "to".toList.length from rfl, h2]
    rfl
  | descending high low =>
    simp only [Range.designators, List.mem_append, or_imp, forall_and] at hd
    have hh := high.isPhrase fun d h => (hd.1 d h).toIsName
    have hl := low.isPhrase fun d h => (hd.2 d h).toIsName
    have hone : outerMatches "downto".toList (Range.descending high low).text
        = [high.text.length + 1] := by
      rw [← Range.render_tokens, ← high.render_tokens]
      exact outerMatches_spaced hdown (by decide) hh hl (hforeign high hd.1).2 (hforeign low hd.2).2
    rw [hone, Range.text_descending]
    obtain ⟨h1, h2⟩ := Text.Reads.sides (s := "downto".toList) hhigh hlow
    simp only [Range.low, Range.high] at h1 h2
    simp only [h1, Option.bind_eq_bind, Option.bind_some]
    rw [show high.text.length + 1 + 6 = high.text.length + 1 + "downto".toList.length from rfl, h2]
    rfl

/-! ## Indices -/

/-- A text that is calm outside parentheses is no range. -/
theorem Range.readWith_eq_none {expr : Text → Option Expr} {ts : List Token} (hts : IsPhrase ts)
    (hsolid : Solid (render ts)) (hcalm : ∀ t ∈ ts, t.isCalm = true) {g g' : Text} (hg : IsPad g)
    (hg' : IsPad g') : Range.readWith expr (g ++ (render ts ++ g')) = none := by
  have hnone : ∀ w ∈ statementWords, IsName w → outerMatches w (render ts) = [] := fun w hw hn =>
    outerMatches_eq_nil (isPattern_word hn) (hts _ _ (by rfl) (by rfl))
      (lacks_of_isCalm (isForeign_words w hw) hcalm)
  simp only [Range.readWith, hsolid.trim_pad hg hg']
  split
  · rfl
  · rw [hnone "downto".toList (by decide) (isName_of_all (by decide)),
      hnone "to".toList (by decide) (isName_of_all (by decide))]

/-- A phrase that lacks a word is not the word. -/
theorem sameWord_eq_false_of_lacks {w : Text} (hw : IsName w) {ts : List Token} (hts : IsPhrase ts)
    (hl : Lacks w ts) : sameWord (render ts) w = false := by
  by_contra hne
  rw [Bool.not_eq_false] at hne
  have hname := hw.of_sameWord hne
  have hone : outerMatches w (render [word (render ts)]) = [0] :=
    @outerMatches_eq_singleton w [] [] (word (render ts)) (isPattern_word hw)
      ⟨hname.fits (by rfl) (by rfl), trivial⟩ (by simp [Lacks])
      (by rw [spells, hw.head, sameWord_comm, hne]; rfl) (by simp [Lacks])
  rw [render_cons, text_word, render_nil, List.append_nil,
    outerMatches_eq_nil (isPattern_word hw) (hts _ _ (by rfl) (by rfl)) hl] at hone
  cases hone

/-- Outside the parentheses of a range nothing foreign stands but its own word. -/
theorem Range.lacks {pattern : Text} (hp : isForeign pattern = true)
    (hw : Lacks pattern (spaced "to".toList ++ spaced "downto".toList)) (r : Range)
    (hd : ∀ d ∈ r.designators, IsDesignator d) : Lacks pattern r.tokens := by
  rw [lacks_append] at hw
  cases r with
  | ascending low high =>
    simp only [Range.designators, List.mem_append, or_imp, forall_and] at hd
    rw [Range.tokens, lacks_append, lacks_append]
    exact ⟨lacks_of_isCalm hp (low.isCalm hd.1), hw.1, lacks_of_isCalm hp (high.isCalm hd.2)⟩
  | descending high low =>
    simp only [Range.designators, List.mem_append, or_imp, forall_and] at hd
    rw [Range.tokens, lacks_append, lacks_append]
    exact ⟨lacks_of_isCalm hp (high.isCalm hd.1), hw.2, lacks_of_isCalm hp (low.isCalm hd.2)⟩

theorem Index.lacks {pattern : Text} (hp : isForeign pattern = true)
    (hw : Lacks pattern (spaced "to".toList ++ spaced "downto".toList)) (i : Index)
    (ho : Lacks pattern [word "others".toList]) (hd : ∀ d ∈ i.designators, IsDesignator d) :
    Lacks pattern i.tokens := by
  cases i with
  | position value => exact lacks_of_isCalm hp (value.isCalm hd)
  | slice range => exact range.lacks hp hw hd
  | others => exact ho

/-- **An index is read from its text.** -/
theorem Index.readWith_text {expr : Text → Option Expr} (i : Index)
    (hd : ∀ d ∈ i.designators, IsDesignator d)
    (hfit : Text.fits Limits.expressionBytes i.text = true)
    (hread : match i with
      | .position e => Reads expr e.text e
      | .slice r => Reads expr r.low.text r.low ∧ Reads expr r.high.text r.high
      | .others => True) :
    Reads (Index.readWith expr) i.text i := by
  intro g g' hg hg'
  have hsolid := i.solid_text fun d h => (hd d h).toIsName
  have hothers : IsName "others".toList := isName_of_all (by decide)
  simp only [Index.readWith, hsolid.trim_pad hg hg']
  cases i with
  | others => rfl
  | slice r =>
    have hphrase := r.isPhrase fun d h => (hd d h).toIsName
    have hlack : Lacks "others".toList r.tokens :=
      r.lacks (isForeign_words _ (by decide)) (by decide) hd
    have hne : sameWord (Index.slice r).text "others".toList = false := by
      rw [Index.text, ← r.render_tokens]
      exact sameWord_eq_false_of_lacks hothers hphrase hlack
    have hrange := r.readWith_text hd hfit hread.1 hread.2
    rw [hne]
    simp only [Bool.false_eq_true, if_false, Index.text, hrange.self]
  | position e =>
    have hphrase := e.isPhrase fun d h => (hd d h).toIsName
    have hcalm := e.isCalm hd
    have hne : sameWord (Index.position e).text "others".toList = false := by
      rw [Index.text, ← e.render_tokens]
      exact sameWord_eq_false_of_lacks hothers hphrase
        (lacks_of_isCalm (isForeign_words _ (by decide)) hcalm)
    have hsolid' : Solid (render e.tokens) := by rw [e.render_tokens]; exact hsolid
    have hrange : Range.readWith expr ([] ++ (render e.tokens ++ [])) = none :=
      Range.readWith_eq_none hphrase hsolid' hcalm isPad_nil isPad_nil
    rw [e.render_tokens] at hrange
    rw [hne]
    simp only [Bool.false_eq_true, if_false, Index.text]
    rw [show e.text = [] ++ (e.text ++ []) by simp, hrange]
    simp [hread.self]

/-! ## References -/

theorem getLast?_ne_paren {w : Text} (hw : IsRun w) (t : Text) :
    ((t ++ w).getLast? == some ')') = false := by
  rw [List.getLast?_append_of_ne_nil _ hw.ne_nil, List.getLast?_eq_some_getLast hw.ne_nil,
    beq_eq_false_iff_ne]
  intro h
  have hm := List.getLast_mem hw.ne_nil
  rw [Option.some.inj h] at hm
  exact hw.not_mem (by decide) hm

theorem takeWhile_ne_paren {w : Text} (hw : IsRun w) (t : Text) :
    (w ++ '(' :: t).takeWhile (· != '(') = w := by
  rw [List.takeWhile_append_of_pos]
  · simp
  · intro c hc
    rw [bne_iff_ne]
    rintro rfl
    exact hw.not_mem (by decide) hc

/-- An object with an index in parentheses is read from its text. -/
theorem Reference.readIndexed_text {expr : Text → Option Expr} (n : Ident) (i : Index)
    (hd : ∀ d ∈ i.designators, IsName d) (hread : Reads (Index.readWith expr) i.text i) :
    Reference.readIndexed expr (n.text ++ '(' :: (i.text ++ [')'])) = some (.indexed n i) := by
  have hphrase := i.isPhrase hd
  have hspan := @balancedSpan?_group [word n.text] i.tokens []
    ((hphrase.call n.isName) _ _ (by rfl) (by rfl)) (by simp)
  simp only [render_cons, text_word, render_nil, List.append_nil, text_group, i.render_tokens] at hspan
  have hstop : n.text.length + i.text.length + 2 - 1 = n.text.length + (i.text.length + 1) := by
    omega
  have hlen : (n.text ++ '(' :: (i.text ++ [')'])).length = n.text.length + i.text.length + 2 := by
    simp; omega
  have hinner : ((n.text ++ '(' :: (i.text ++ [')'])).take (n.text.length + (i.text.length + 1))).drop
      (n.text.length + 1) = i.text := by
    rw [show n.text ++ '(' :: (i.text ++ [')']) = (n.text ++ ('(' :: i.text)) ++ [')'] by simp,
      List.take_left' (by simp), ← List.drop_drop, List.drop_left' rfl, List.drop_one, List.tail_cons]
  simp only [Reference.readIndexed, takeWhile_ne_paren n.isRun, hspan, Option.bind_eq_bind,
    Option.bind_some, hlen, bne_self_eq_false, Bool.or_self, Bool.false_eq_true, if_false,
    trimEnd_eq_self n.isRun.trimmed.last, n.ofText?_text, hstop, hinner, hread.self]

/-- **A reference is read from its text.** -/
theorem Reference.readWith_text {expr : Text → Option Expr} (r : Reference)
    (hd : ∀ d ∈ r.designators, IsName d)
    (hread : match r with
      | .indexed _ i => Reads (Index.readWith expr) i.text i
      | .attributeOf _ d => Text.fold d = d
      | .name _ | .member _ _ => True) :
    Reads (Reference.readWith expr) r.text r := by
  intro g g' hg hg'
  have hsolid := r.solid_text hd
  simp only [Reference.readWith, hsolid.trim_pad hg hg']
  cases r with
  | name n => rw [Reference.text, n.ofText?_text]
  | member record field =>
    have hnone : Ident.ofText? (Reference.member record field).text = none :=
      Ident.ofText?_eq_none (c := '.') (by simp [Reference.text]) (by decide)
    have hlast : ((Reference.member record field).text.getLast? == some ')') = false := by
      have := getLast?_ne_paren field.isRun (record.text ++ ['.'])
      simpa [Reference.text] using this
    rw [hnone, hlast, Reference.text, splitOnce_append (record.isRun.not_mem (by decide))]
    simp [trim_eq_self record.isRun.trimmed, trim_eq_self field.isRun.trimmed, record.ofText?_text,
      field.ofText?_text]
  | indexed n i =>
    have hnone : Ident.ofText? (Reference.indexed n i).text = none :=
      Ident.ofText?_eq_none (c := '(') (by simp [Reference.text]) (by decide)
    have hlast : ((Reference.indexed n i).text.getLast? == some ')') = true := by
      rw [Reference.text, show n.text ++ '(' :: (i.text ++ [')']) = (n.text ++ '(' :: i.text) ++ [')'] by
        simp, List.getLast?_concat]
      rfl
    have hopen : (Reference.indexed n i).text.contains '(' = true := by simp [Reference.text]
    rw [hnone, hlast, hopen]
    simp only [if_true, Reference.text]
    exact Reference.readIndexed_text n i hd hread
  | attributeOf object d =>
    have hname := hd d (by simp [Reference.designators])
    have hnone : Ident.ofText? (Reference.attributeOf object d).text = none :=
      Ident.ofText?_eq_none (c := '\'') (by simp [Reference.text]) (by decide)
    have hlast : ((Reference.attributeOf object d).text.getLast? == some ')') = false := by
      have := getLast?_ne_paren hname.isRun (object.text ++ ['\''])
      simpa [Reference.text] using this
    have hpoint : splitOnce '.' (Reference.attributeOf object d).text = none := by
      apply splitOnce_eq_none
      simp only [Reference.text, List.mem_append, List.mem_cons, not_or]
      exact ⟨object.isRun.not_mem (by decide), by decide, hname.isRun.not_mem (by decide)⟩
    have hread' : Reference.readDesignator d = some d := by
      simp [Reference.readDesignator, hname.head, hname.ident, hread]
    rw [hnone, hlast, hpoint, Reference.text, splitOnce_append (object.isRun.not_mem (by decide))]
    simp [trimEnd_eq_self object.isRun.trimmed.last, object.ofText?_text, hread']

/-! ## Arguments -/

/-- **An argument is read from its text.** -/
theorem Argument.readWith_text {expr : Text → Option Expr} (a : Argument)
    (hd : ∀ d ∈ a.designators, IsDesignator d)
    (hread : match a with | .mk _ value => Reads expr value.text value) :
    Reads (Argument.readWith expr) a.text a := by
  intro g g' hg hg'
  have harrow : IsPattern "=>".toList := .inr (by decide)
  cases a with
  | mk parameter value =>
    have hphrase := value.isPhrase fun d h => (hd d h).toIsName
    have hlack : Lacks "=>".toList value.tokens := lacks_of_isCalm (by decide) (value.isCalm hd)
    cases parameter with
    | none =>
      have hnone : cutOuter? "=>".toList (g ++ (value.text ++ g')) = none := by
        have hpad := (hphrase.pad hg hg') none none (by rfl) (by rfl)
        have := cutOuter?_eq_none harrow hpad
          (lacks_append.2 ⟨lacks_pad (by decide) hg, lacks_append.2 ⟨hlack, lacks_pad (by decide) hg'⟩⟩)
        simpa [value.render_tokens] using this
      simp only [Argument.readWith, Argument.text, hnone, hread g g' hg hg', Option.map_some]
    | some parameter =>
      have hpad := (isPhrase_word parameter.isName).pad hg isPad_nil
      have hcut := cutOuter?_spaced harrow (by decide) hpad (lacks_append.2 ⟨lacks_pad (by decide) hg,
        lacks_append.2 ⟨by simp [Lacks, spells], lacks_pad (by decide) isPad_nil⟩⟩) (value.text ++ g')
      have htext : g ++ ((Argument.mk (some parameter) value).text ++ g')
          = render (Token.pad g ++ ([word parameter.text] ++ Token.pad []))
            ++ ' ' :: ("=>".toList ++ ' ' :: (value.text ++ g')) := by
        simp [Argument.text]
      have htrim : trim (render (Token.pad g ++ ([word parameter.text] ++ Token.pad [])) ++ [' '])
          = parameter.text := by
        have := parameter.isRun.solid.trim_pad hg isPad_blank
        simpa using this
      have hvalue : expr (' ' :: (value.text ++ g')) = some value := hread [' '] g' isPad_blank hg'
      simp only [Argument.readWith, htext, hcut, htrim, parameter.ofText?_text, hvalue,
        Option.bind_eq_bind, Option.bind_some]

end CanonicalVhdl
