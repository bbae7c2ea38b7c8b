import CanonicalVhdl.Lexical.Reserved
import CanonicalVhdl.Proofs.Token.Basic

/-!
# Phrases

A *phrase* is a sequence of tokens that keeps apart from its surroundings wherever
it may be put: after a blank or an opening parenthesis, and before a blank, a
separator or a closing parenthesis.  Phrases are joined by connectives between
blanks, put into parentheses, and listed with commas.

## Main definitions

* `Token.IsPhrase` — sequences that keep apart from their surroundings.
* `Token.spaced`, `Token.commaJoin` — a connective between blanks; a list with commas.

## Main statements

* `Token.IsPhrase.spaced`, `Token.IsPhrase.commaJoin`, `Token.IsPhrase.call` — how
  phrases are put together.
-/

namespace CanonicalVhdl

open Text

namespace Token

/-- Whether a phrase may start after a character. -/
def Opens (before : Option Char) : Prop :=
  Lexeme.bindsTick before = false

/-- Whether a phrase may end before a character. -/
def Closes (next : Option Char) : Prop :=
  next.any (fun c => isIdentChar c || c == '"' || c == '.') = false

/-- A sequence that keeps apart from its surroundings. -/
def IsPhrase (tokens : List Token) : Prop :=
  ∀ before next, Opens before → Closes next → FitAll before tokens next

theorem Opens.ident {before : Option Char} (h : Opens before) : before.any isIdentChar = false := by
  cases before with
  | none => rfl
  | some c =>
    simp only [Opens, Lexeme.bindsTick, Option.any_some, Bool.or_eq_false_iff] at h
    exact h.1

theorem Closes.ident {next : Option Char} (h : Closes next) : next.any isIdentChar = false := by
  cases next with
  | none => rfl
  | some c =>
    simp only [Closes, Option.any_some, Bool.or_eq_false_iff] at h
    exact h.1.1

theorem Closes.number {next : Option Char} (h : Closes next) :
    next.any (fun c => isIdentChar c || c == '.') = false := by
  cases next with
  | none => rfl
  | some c =>
    simp only [Closes, Option.any_some, Bool.or_eq_false_iff] at h ⊢
    exact ⟨h.1.1, h.2⟩

theorem Closes.quote {next : Option Char} (h : Closes next) : next ≠ some '"' := by
  rintro rfl
  simp only [Closes] at h
  exact absurd h (by decide)

/-- Blanks, separators and points keep apart from everything. -/
theorem fits_separator {c : Char} (hc : c ∈ [' ', '\n', ',', ';', '.']) {before next : Option Char} :
    (mark c).Fits before next := by
  have key : ∀ c ∈ [' ', '\n', ',', ';', '.'], c ∈ marks ∧ c ≠ '-' ∧ c ≠ ':' ∧ c ≠ '\'' := by decide
  obtain ⟨hm, hd, hcolon, ht⟩ := key c hc
  exact ⟨hm, fun h => absurd h hd, fun h => absurd h hcolon, fun h => absurd h ht⟩

theorem fits_blank {before next : Option Char} : (mark ' ').Fits before next :=
  fits_separator (by decide)

/-! ## Sequences cut out of others -/

theorem Fits.of_next {token : Token} {before next : Option Char} (h : token.Fits before next) :
    token.Fits before none := by
  cases token with
  | word w => exact ⟨h.1, h.2.1, rfl, h.2.2.2⟩
  | number digits => exact ⟨h.1, h.2.1, h.2.2.1, rfl⟩
  | quoted body => exact ⟨h.1, by simp⟩
  | ticked c => exact h
  | symbol s => exact ⟨h.1, rfl⟩
  | mark c => exact ⟨h.1, by simp, by simp, h.2.2.2⟩
  | group inner => exact h

/-- What a sequence keeps apart from may go away behind it. -/
theorem FitAll.of_next {tokens : List Token} {before next : Option Char}
    (h : FitAll before tokens next) : FitAll before tokens none := by
  induction tokens generalizing before with
  | nil => trivial
  | cons t ts ih =>
    refine ⟨?_, ih h.2⟩
    cases ts with
    | nil => exact h.1.of_next
    | cons u us =>
      have hne := h.2.1.text_ne_nil
      have hfirst : ∀ next, firstOr (u :: us) next = u.text.head? := by
        intro next
        rw [firstOr, render_cons, List.head?_append, List.head?_eq_some_head hne]
        rfl
      have ht := h.1
      rw [hfirst] at ht ⊢
      exact ht

/-- What a sequence keeps apart from may go away before it. -/
theorem FitAll.of_opens {tokens : List Token} {before next : Option Char} (hb : Opens before)
    (h : FitAll before tokens next) : FitAll none tokens next := by
  cases tokens with
  | nil => trivial
  | cons t ts =>
    have hlast : lastOr none t.text = lastOr before t.text := by
      rw [lastOr_of_ne_nil h.1.text_ne_nil, lastOr_of_ne_nil h.1.text_ne_nil]
    refine ⟨?_, hlast ▸ h.2⟩
    have ht := h.1
    cases t with
    | word w => exact ⟨ht.1, rfl, ht.2.2⟩
    | number digits => exact ⟨ht.1, ht.2.1, rfl, ht.2.2.2⟩
    | ticked c => exact ⟨ht.1, rfl⟩
    | mark c =>
      refine ⟨ht.1, ht.2.1, ht.2.2.1, fun hc => ?_⟩
      have := ht.2.2.2 hc
      rw [hb] at this
      cases this
    | quoted | symbol | group => exact ht

/-- A blank keeps apart from whatever precedes it. -/
theorem FitAll.of_blank {tokens : List Token} {before before' next : Option Char}
    (h : FitAll before (mark ' ' :: tokens) next) : FitAll before' (mark ' ' :: tokens) next :=
  ⟨fits_separator (by decide), h.2⟩

/-! ## Phrases of one token -/

/-- A run that starts with a letter. -/
structure IsName (w : Text) : Prop where
  /-- The first character is a letter. -/
  head : w.head?.any Char.isAlpha = true
  /-- Every character may stand in an identifier. -/
  ident : w.all isIdentChar = true

instance (w : Text) : Decidable (IsName w) :=
  decidable_of_iff (w.head?.any Char.isAlpha = true ∧ w.all isIdentChar = true)
    ⟨fun h => ⟨h.1, h.2⟩, fun h => ⟨h.1, h.2⟩⟩

theorem IsName.isRun {w : Text} (h : IsName w) : IsRun w :=
  ⟨by rintro rfl; exact absurd h.head (by simp), h.ident⟩

theorem IsName.of_sameWord {v w : Text} (hw : IsName w) (h : sameWord v w = true) : IsName v := by
  have hf := sameWord_iff.1 h
  refine ⟨?_, by rw [← all_isIdentChar_fold, hf, all_isIdentChar_fold]; exact hw.ident⟩
  have key : ∀ t : Text, t.head?.any Char.isAlpha = (fold t).head?.any Char.isAlpha := by
    intro t
    cases t with
    | nil => rfl
    | cons c t => simp [fold, isAlpha_toLower]
  rw [key, hf, ← key]
  exact hw.head

theorem IsName.head_isDigit {w : Text} (h : IsName w) : w.head?.any Char.isDigit = false := by
  have := h.head
  cases w with
  | nil => rfl
  | cons c w => exact isDigit_eq_false_of_isAlpha this

theorem IsName.fits {w : Text} (h : IsName w) {before next : Option Char}
    (hb : before.any isIdentChar = false) (hn : next.any isIdentChar = false) :
    (word w).Fits before next :=
  ⟨h.isRun, hb, hn, h.head_isDigit⟩

theorem isPhrase_nil : IsPhrase [] :=
  fun _ _ _ _ => trivial

theorem isPhrase_word {w : Text} (h : IsName w) : IsPhrase [word w] :=
  fun _ _ hb hn => ⟨h.fits hb.ident hn.ident, trivial⟩

theorem isPhrase_number {digits : Text} (hd : digits.head?.any Char.isDigit = true)
    (hall : digits.all isNumberChar = true) : IsPhrase [number digits] :=
  fun _ _ hb hn => ⟨⟨hd, hall, hb.ident, hn.number⟩, trivial⟩

/-- A number may have a sign. -/
theorem isPhrase_signed {digits : Text} (hd : digits.head?.any Char.isDigit = true)
    (hall : digits.all isNumberChar = true) : IsPhrase [mark '-', number digits] := by
  intro before next hb hn
  have hfirst : firstOr [number digits] next ≠ some '-' := by
    cases digits with
    | nil => simp at hd
    | cons c digits =>
      have hc : c.isDigit = true := by simpa using hd
      simp only [firstOr, render_cons, text_number, render_nil, List.append_nil, List.head?_cons,
        Option.some_or, ne_eq, Option.some.injEq]
      rintro rfl
      exact absurd hc (by decide)
  exact ⟨⟨by decide, fun _ => hfirst, fun h => absurd h (by decide), fun h => absurd h (by decide)⟩,
    ⟨hd, hall, (by rfl), hn.number⟩, trivial⟩

theorem isPhrase_quoted {body : Text} (h : (body.all fun c => c != '"' && c != '\n') = true) :
    IsPhrase [quoted body] :=
  fun _ _ _ hn => ⟨⟨h, hn.quote⟩, trivial⟩

/-- A quoted literal may have a base specifier. -/
theorem isPhrase_based {base : Text} {body : Text} (hw : IsName base)
    (h : (body.all fun c => c != '"' && c != '\n') = true) :
    IsPhrase [word base, quoted body] :=
  fun _ _ hb hn => ⟨hw.fits hb.ident (by rfl), ⟨h, hn.quote⟩, trivial⟩

theorem isPhrase_ticked {c : Char} (hc : c.toNat < 128) (hn : c ≠ '\n') : IsPhrase [ticked c] :=
  fun _ _ hb _ => ⟨⟨⟨hc, hn⟩, hb⟩, trivial⟩

/-! ## Phrases put together -/

theorem isPhrase_group {inner : List Token} (h : IsPhrase inner) : IsPhrase [group inner] :=
  fun _ _ _ _ => ⟨h _ _ (by rfl) (by rfl), trivial⟩

/-- A name with a group after it. -/
theorem IsPhrase.call {inner : List Token} (h : IsPhrase inner) {w : Text} (hw : IsName w) :
    IsPhrase [word w, group inner] :=
  fun _ _ hb _ => ⟨hw.fits hb.ident (by rfl), h _ _ (by rfl) (by rfl), trivial⟩

/-- The last character of a name is an identifier character. -/
theorem IsName.lastOr {w : Text} (h : IsName w) (before : Option Char) :
    (lastOr before w).any isIdentChar = true := by
  rw [lastOr_of_ne_nil h.isRun.ne_nil, List.getLast?_eq_some_getLast h.isRun.ne_nil]
  simpa using List.all_eq_true.1 h.ident _ (List.getLast_mem _)

/-- Two names joined by a point or by a tick. -/
theorem isPhrase_selected {v w : Text} (hv : IsName v) (hw : IsName w) {c : Char}
    (hc : c = '.' ∨ c = '\'') : IsPhrase [word v, mark c, word w] := by
  intro before next hb hn
  have hlast := hv.lastOr before
  have hbind : Lexeme.bindsTick (Text.lastOr before v) = true := by
    cases hl : Text.lastOr before v with
    | none => rw [hl] at hlast; cases hlast
    | some d =>
      rw [hl] at hlast
      simp only [Option.any_some] at hlast
      simp [Lexeme.bindsTick, hlast]
  rcases hc with rfl | rfl
  · exact ⟨hv.fits hb.ident (by rfl), fits_separator (by decide), hw.fits (by rfl) hn.ident, trivial⟩
  · exact ⟨hv.fits hb.ident (by rfl),
      ⟨by decide, fun h => absurd h (by decide), fun h => absurd h (by decide), fun _ => hbind⟩,
      hw.fits (by rfl) hn.ident, trivial⟩

/-- A word or a symbol, by its first character. -/
def connective (s : Text) : Token :=
  if s.head?.any Char.isAlpha then word s else symbol s

@[simp] theorem text_connective (s : Text) : (connective s).text = s := by
  rw [connective]; split <;> rfl

/-- A connective between blanks. -/
def spaced (s : Text) : List Token :=
  [mark ' ', connective s, mark ' ']

@[simp] theorem render_spaced (s : Text) : render (spaced s) = ' ' :: (s ++ [' ']) := by
  simp [spaced]

/-- Whether a text may stand between blanks as a connective. -/
def isConnective (s : Text) : Bool :=
  if s.head?.any Char.isAlpha then s.all isIdentChar else symbols.contains s

theorem fits_connective {s : Text} (h : isConnective s = true) :
    (connective s).Fits (some ' ') (some ' ') := by
  rw [isConnective] at h
  rw [connective]
  by_cases ha : s.head?.any Char.isAlpha = true
  · rw [if_pos ha] at h ⊢
    exact IsName.fits ⟨ha, h⟩ (by decide) (by decide)
  · rw [if_neg ha] at h ⊢
    exact ⟨by simpa using h, by decide⟩

theorem fitAll_spaced {s : Text} (h : isConnective s = true) {before next : Option Char} :
    FitAll before (spaced s) next := by
  have hc := fits_connective h
  have hne := hc.text_ne_nil
  refine ⟨fits_blank, ?_, fits_blank, trivial⟩
  exact hc

theorem lastOr_spaced (s : Text) (before : Option Char) :
    lastOr before (render (spaced s)) = some ' ' := by
  simp

/-- Two phrases joined by a connective. -/
theorem IsPhrase.spaced {ts us : List Token} (hts : IsPhrase ts) (hus : IsPhrase us) {s : Text}
    (h : isConnective s = true) : IsPhrase (ts ++ (Token.spaced s ++ us)) := by
  intro before next hb hn
  rw [fitAll_append, fitAll_append, lastOr_spaced]
  exact ⟨hts _ _ hb (by rfl), fitAll_spaced h, hus _ _ (by rfl) hn⟩

/-- A prefix operator and a blank before a phrase. -/
theorem IsPhrase.prefixed {ts : List Token} (h : IsPhrase ts) {w : Text} (hw : IsName w) :
    IsPhrase (word w :: mark ' ' :: ts) :=
  fun _ _ hb hn => ⟨hw.fits hb.ident (by rfl), fits_blank, h _ _ (by rfl) hn⟩

/-! ## Padding -/

/-- A name, a colon and a blank before a phrase. -/
theorem IsPhrase.labelled {ts : List Token} (h : IsPhrase ts) {w : Text} (hw : IsName w) :
    IsPhrase (word w :: mark ':' :: mark ' ' :: ts) := by
  intro before next hb hn
  have hcolon : ∀ before, (mark ':').Fits before (some ' ') := fun _ =>
    ⟨by decide, fun h => absurd h (by decide), fun _ => by decide, fun h => absurd h (by decide)⟩
  exact ⟨hw.fits hb.ident (by rfl), hcolon _, fits_blank, h _ _ (by rfl) hn⟩

/-- Whether a text consists of blanks and line ends. -/
def IsPad (g : Text) : Prop :=
  ∀ c ∈ g, c = ' ' ∨ c = '\n'

theorem isPad_nil : IsPad [] := by simp [IsPad]

theorem isPad_blank : IsPad [' '] := by simp [IsPad]

theorem IsPad.all_isBlank {g : Text} (h : IsPad g) : g.all isBlank = true := by
  rw [List.all_eq_true]
  intro c hc
  rcases h c hc with rfl | rfl
  · decide
  · decide

/-- The marks of a padding. -/
def pad (g : Text) : List Token :=
  g.map mark

@[simp] theorem render_pad (g : Text) : render (pad g) = g := by
  induction g with
  | nil => rfl
  | cons c g ih => simpa [pad] using ih

theorem IsPad.fitAll {g : Text} (h : IsPad g) {before next : Option Char} :
    FitAll before (pad g) next := by
  induction g generalizing before with
  | nil => trivial
  | cons c g ih =>
    refine ⟨fits_separator ?_, ih fun d hd => h d (by simp [hd])⟩
    rcases h c (by simp) with rfl | rfl
    · decide
    · decide

/-- A phrase may start after padding. -/
theorem IsPad.opens {g : Text} (h : IsPad g) {before : Option Char} (hb : Opens before) :
    Opens (lastOr before g) := by
  cases g with
  | nil => exact hb
  | cons c g =>
    rw [lastOr_of_ne_nil (by simp), List.getLast?_eq_some_getLast (by simp)]
    rcases h _ (List.getLast_mem (by simp)) with hc | hc
    · rw [hc]; rfl
    · rw [hc]; rfl

/-- A phrase stays one with padding around it. -/
theorem IsPhrase.pad {ts : List Token} (h : IsPhrase ts) {g g' : Text} (hg : IsPad g)
    (hg' : IsPad g') : IsPhrase (Token.pad g ++ (ts ++ Token.pad g')) := by
  intro before next hb hn
  rw [fitAll_append, fitAll_append, render_pad]
  refine ⟨hg.fitAll, h _ _ (hg.opens hb) ?_, hg'.fitAll⟩
  cases g' with
  | nil => simpa [Token.pad, firstOr] using hn
  | cons c g' =>
    have : firstOr (Token.pad (c :: g')) next = some c := by simp [Token.pad, firstOr]
    rw [this]
    rcases hg' c (by simp) with rfl | rfl
    · rfl
    · rfl

/-! ## Lists -/

/-- Sequences one after the other, with a comma and a blank between them. -/
def commaJoin : List (List Token) → List Token
  | [] => []
  | ts :: rest => ts ++ rest.flatMap (mark ',' :: mark ' ' :: ·)

theorem render_commaJoin (pieces : List (List Token)) :
    render (commaJoin pieces) = Text.join ", ".toList (pieces.map render) := by
  cases pieces with
  | nil => rfl
  | cons ts rest =>
    induction rest generalizing ts with
    | nil => simp [commaJoin, Text.join]
    | cons us rest ih =>
      have := ih us
      simp only [commaJoin, List.map_cons] at this ⊢
      rw [Text.join, List.intercalate_cons_cons, ← Text.join, ← this]
      simp

theorem IsPhrase.commaJoin {pieces : List (List Token)} (h : ∀ p ∈ pieces, IsPhrase p) :
    IsPhrase (commaJoin pieces) := by
  cases pieces with
  | nil => intro _ _ _ _; trivial
  | cons ts rest =>
    intro before next hb hn
    have htail : ∀ (rest : List (List Token)), (∀ p ∈ rest, IsPhrase p) → ∀ before next, Closes next →
        FitAll before (rest.flatMap (mark ',' :: mark ' ' :: ·)) next ∧
          Closes (firstOr (rest.flatMap (mark ',' :: mark ' ' :: ·)) next) := by
      intro rest
      induction rest with
      | nil => intro _ before next hn; exact ⟨trivial, by simpa [firstOr] using hn⟩
      | cons us rest ih =>
        intro h before next hn
        obtain ⟨hrest, hclose⟩ := ih (fun p hm => h p (by simp [hm]))
          (lastOr (some ' ') (render us)) next hn
        refine ⟨?_, by rfl⟩
        rw [List.flatMap_cons, fitAll_append]
        refine ⟨⟨fits_separator (by decide), fits_blank, h us (by simp) _ _ (by rfl) hclose⟩, ?_⟩
        simpa using hrest
    obtain ⟨hrest, hclose⟩ := htail rest (fun p hm => h p (by simp [hm]))
      (lastOr before (render ts)) next hn
    rw [Token.commaJoin, fitAll_append]
    exact ⟨h ts (by simp) _ _ hb hclose, hrest⟩

end Token
end CanonicalVhdl
