import CanonicalVhdl.Proofs.Extent.Steps
import CanonicalVhdl.Proofs.Object.ReadBack
import CanonicalVhdl.Proofs.Region.Header
import CanonicalVhdl.Proofs.Sequential.Choice

/-!
# Texts inside statements

Names, expressions, types, ranges and lists of them have no part in the structure of
statements: nothing in them opens or closes a construct or ends a statement.

## Main definitions

* `IsInertText t` — a text of one line without a part in the structure of statements.
* `IsFlatText t` — a text of one line in which no construct is left open.
* `Range.Readable`, `Choice.Readable` — ranges and choices whose expressions read back.

## Main statements

* `IsInertText.stands` — such a text with a semicolon is one statement.
* `isInertText_spaced`, `isInertText_call`, `isInertText_join` — how they are put together.
-/

namespace CanonicalVhdl

open Text Token

/-! ## Inert texts -/

/-- A text of one line without a part in the structure of statements. -/
structure IsInertText (t : Text) : Prop where
  /-- The text is a phrase of inert tokens. -/
  tokens : ∃ ts, render ts = t ∧ IsPhrase ts ∧ ∀ k ∈ ts, Nesting.isInert k = true
  /-- The text is one line. -/
  newline_not_mem : '\n' ∉ t
  /-- The text does not end with a carriage return. -/
  last_ne : t.getLast? ≠ some '\r'

/-- A phrase on one line. -/
structure IsPhraseText (t : Text) : Prop where
  /-- The text is a phrase. -/
  tokens : ∃ ts, render ts = t ∧ IsPhrase ts
  /-- The text is one line. -/
  newline_not_mem : '\n' ∉ t

theorem IsInertText.isPhraseText {t : Text} (h : IsInertText t) : IsPhraseText t := by
  obtain ⟨⟨ts, hrender, hts, -⟩, hline, -⟩ := h
  exact ⟨⟨ts, hrender, hts⟩, hline⟩

/-- A phrase of inert tokens on one line. -/
theorem isInertText_render {ts : List Token} (hphrase : IsPhrase ts)
    (hinert : ∀ k ∈ ts, Nesting.isInert k = true) (hline : '\n' ∉ render ts)
    (hlast : (render ts).getLast? ≠ some '\r') : IsInertText (render ts) :=
  ⟨⟨ts, rfl, hphrase, hinert⟩, hline, hlast⟩

theorem Text.Solid.last_ne_return {t : Text} (h : Solid t) : t.getLast? ≠ some '\r' := by
  intro hlast
  have := h.last
  rw [hlast] at this
  exact absurd this (by decide)

theorem isInertText_nil : IsInertText [] :=
  isInertText_render isPhrase_nil (fun _ h => absurd h List.not_mem_nil) List.not_mem_nil nofun

theorem Token.IsName.isInertText {w : Text} (hw : IsName w)
    (hinert : structureWords.contains (Text.fold w) = false) : IsInertText w := by
  have hrender : render [word w] = w := by simp
  rw [← hrender]
  refine isInertText_render (isPhrase_word hw) ?_ ?_ ?_
  · exact List.forall_mem_singleton.2 (by simpa [Nesting.isInert] using hinert)
  · rw [hrender]
    exact hw.isRun.newline_not_mem
  · rw [hrender]
    exact hw.isRun.solid.last_ne_return

theorem Ident.isInertText (i : Ident) : IsInertText i.text :=
  i.isName.isInertText i.not_mem_structureWords

theorem Expr.ReadsBack.isInertText {room : Nat} {e : Expr} (h : e.ReadsBack room) :
    IsInertText e.text :=
  ⟨⟨e.tokens, e.render_tokens, h.isPhrase, h.isInert⟩, h.newline_not_mem, h.solid.last_ne_return⟩

theorem Reference.ReadsBack.isInertText {room : Nat} {r : Reference} (h : r.ReadsBack room) :
    IsInertText r.text :=
  ⟨⟨r.tokens, r.render_tokens, h.isPhrase, h.isInert⟩, h.newline_not_mem, h.solid.last_ne_return⟩

theorem TypeMark.ReadsBack.isInertText {room : Nat} {type : TypeMark} (h : type.ReadsBack room) :
    IsInertText type.text :=
  ⟨⟨type.tokens, type.render_tokens, h.isPhrase, h.isInert⟩, h.newline_not_mem,
    h.solid.last_ne_return⟩

/-! ## Inert texts put together -/

section Composition

variable {a b w : Text}

theorem getLast?_append_ne {c : Option Char} (ha : a.getLast? ≠ c) (hb : b.getLast? ≠ c) :
    (a ++ b).getLast? ≠ c := by
  by_cases hnil : b = []
  · rwa [hnil, List.append_nil]
  · rwa [List.getLast?_append_of_ne_nil _ hnil]

/-- Two texts with a connective between them. -/
theorem isInertText_spaced (ha : IsInertText a) (hb : IsInertText b) {s : Text}
    (hs : isConnective s = true)
    (hinert : s.head?.any Char.isAlpha = true → structureWords.contains (fold s) = false)
    (hline : '\n' ∉ s) : IsInertText (a ++ ' ' :: (s ++ ' ' :: b)) := by
  obtain ⟨⟨ts, rfl, hts, htsinert⟩, hline', hlast⟩ := ha
  obtain ⟨⟨us, rfl, hus, husinert⟩, hline'', hlast'⟩ := hb
  have hrender : render (ts ++ (spaced s ++ us)) = render ts ++ ' ' :: (s ++ ' ' :: render us) := by
    simp
  rw [← hrender]
  refine isInertText_render (hts.spaced hus hs) ?_ ?_ ?_
  · intro k hk
    rcases List.mem_append.1 hk with hk | hk
    · exact htsinert k hk
    · rcases List.mem_append.1 hk with hk | hk
      · exact isInert_spaced hinert k hk
      · exact husinert k hk
  · simp only [hrender, List.mem_append, List.mem_cons, not_or]
    exact ⟨hline', by decide, hline, by decide, hline''⟩
  · rw [render_append, render_append, render_spaced]
    refine getLast?_append_ne hlast (getLast?_append_ne ?_ hlast')
    rw [← List.cons_append, List.getLast?_concat]
    decide

/-- A word before a text. -/
theorem IsInertText.prefixed (hb : IsInertText b) (hw : IsName w)
    (hinert : structureWords.contains (fold w) = false) : IsInertText (w ++ ' ' :: b) := by
  obtain ⟨⟨us, rfl, hus, husinert⟩, hline, hlast⟩ := hb
  have hrender : render (word w :: mark ' ' :: us) = w ++ ' ' :: render us := rfl
  rw [← hrender]
  refine isInertText_render (hus.prefixed hw) ?_ ?_ ?_
  · refine List.forall_mem_cons.2 ⟨by simpa [Nesting.isInert] using hinert, ?_⟩
    exact List.forall_mem_cons.2 ⟨rfl, husinert⟩
  · simp only [hrender, List.mem_append, List.mem_cons, not_or]
    exact ⟨hw.isRun.newline_not_mem, by decide, hline⟩
  · rw [hrender, List.append_cons]
    refine getLast?_append_ne ?_ hlast
    rw [List.getLast?_concat]
    decide

/-- A name and a colon before a text. -/
theorem IsInertText.labelled (hb : IsInertText b) (i : Ident) :
    IsInertText (i.text ++ ':' :: ' ' :: b) := by
  obtain ⟨⟨us, rfl, hus, husinert⟩, hline, hlast⟩ := hb
  have hrender : render (word i.text :: mark ':' :: mark ' ' :: us)
      = i.text ++ ':' :: ' ' :: render us := rfl
  rw [← hrender]
  refine isInertText_render (hus.labelled i.isName) ?_ ?_ ?_
  · have hname : Nesting.isInert (word i.text) = true := by
      simp only [Nesting.isInert, i.not_mem_structureWords]
      rfl
    exact List.forall_mem_cons.2 ⟨hname, List.forall_mem_cons.2 ⟨rfl, List.forall_mem_cons.2
      ⟨rfl, husinert⟩⟩⟩
  · simp only [hrender, List.mem_append, List.mem_cons, not_or]
    exact ⟨i.isName.isRun.newline_not_mem, by decide, by decide, hline⟩
  · have hsplit : i.text ++ ':' :: ' ' :: render us = (i.text ++ [':']) ++ [' '] ++ render us := by
      simp
    rw [hrender, hsplit]
    refine getLast?_append_ne ?_ hlast
    rw [List.getLast?_concat]
    decide

/-- A name with a text in parentheses after it. -/
theorem IsPhraseText.call (hb : IsPhraseText b) (hw : IsName w)
    (hinert : structureWords.contains (fold w) = false) :
    IsInertText (w ++ '(' :: (b ++ [')'])) := by
  obtain ⟨⟨us, rfl, hus⟩, hline⟩ := hb
  have hrender : render [word w, group us] = w ++ '(' :: (render us ++ [')']) := by simp
  rw [← hrender]
  refine isInertText_render (hus.call hw) ?_ ?_ ?_
  · refine List.forall_mem_cons.2 ⟨by simpa [Nesting.isInert] using hinert, ?_⟩
    exact List.forall_mem_singleton.2 rfl
  · simp only [hrender, List.mem_append, List.mem_cons, List.not_mem_nil, not_or, or_false]
    exact ⟨hw.isRun.newline_not_mem, by decide, hline, by decide⟩
  · rw [hrender, ← List.cons_append, ← List.append_assoc, List.getLast?_concat]
    decide

/-- A text in parentheses. -/
theorem IsPhraseText.group (hb : IsPhraseText b) : IsInertText ('(' :: (b ++ [')'])) := by
  obtain ⟨⟨us, rfl, hus⟩, hline⟩ := hb
  have hrender : render [group us] = '(' :: (render us ++ [')']) := by simp
  rw [← hrender]
  refine isInertText_render (isPhrase_group hus) (List.forall_mem_singleton.2 rfl) ?_ ?_
  · simp only [hrender, List.mem_append, List.mem_cons, List.not_mem_nil, not_or, or_false]
    exact ⟨by decide, hline, by decide⟩
  · rw [hrender, ← List.cons_append, List.getLast?_concat]
    decide

/-- Texts with a separator and a blank between them. -/
theorem isPhraseText_join {c : Char} (hc : c = ',' ∨ c = ';') {parts : List Text}
    (h : ∀ t ∈ parts, IsPhraseText t) : IsPhraseText (join [c, ' '] parts) := by
  have hseparator : ∀ before next, (mark c).Fits before next := by
    intro before next
    rcases hc with rfl | rfl <;> exact fits_separator (by decide)
  have hnewline : '\n' ≠ c := by rcases hc with rfl | rfl <;> decide
  induction parts with
  | nil => exact isInertText_nil.isPhraseText
  | cons t parts ih =>
    obtain ⟨⟨ts, rfl, hts⟩, hline⟩ := h _ List.mem_cons_self
    cases parts with
    | nil => simpa [join] using h _ List.mem_cons_self
    | cons t' parts =>
      obtain ⟨⟨us, hrender, hus⟩, hline'⟩ := ih fun t ht => h t (List.mem_cons_of_mem _ ht)
      have hjoin : join [c, ' '] (render ts :: t' :: parts)
          = render ts ++ c :: ' ' :: join [c, ' '] (t' :: parts) := by
        simp [join]
      rw [hjoin, ← hrender]
      refine ⟨⟨ts ++ mark c :: mark ' ' :: us, by simp, fun before next hb hn => ?_⟩, ?_⟩
      · have hclose : Closes (some c) := by rcases hc with rfl | rfl <;> rfl
        refine fitAll_append.2 ⟨hts _ _ hb hclose, hseparator _ _, fits_blank, hus _ _ rfl hn⟩
      · rw [hrender]
        simp only [List.mem_append, List.mem_cons, not_or]
        exact ⟨hline, hnewline, by decide, hline'⟩

/-- Texts with bars between them. -/
theorem isInertText_barJoin {parts : List Text} (h : ∀ t ∈ parts, IsInertText t) :
    IsInertText (join " | ".toList parts) := by
  induction parts with
  | nil => exact isInertText_nil
  | cons t parts ih =>
    have ht := h t List.mem_cons_self
    cases parts with
    | nil => simpa [join] using ht
    | cons t' parts =>
      have hrest := ih fun t ht => h t (List.mem_cons_of_mem _ ht)
      have hjoin : join " | ".toList (t :: t' :: parts)
          = t ++ ' ' :: ("|".toList ++ ' ' :: join " | ".toList (t' :: parts)) := by
        simp [join]
      rw [hjoin]
      exact isInertText_spaced ht hrest (by decide) (fun h => absurd h (by decide)) (by decide)

end Composition

/-! ## Rows of inert texts -/

section Rows

variable {a b t v : Text}

/-- A line that starts with a solid text. -/
theorem isRow_append (ha : Solid a) (hline : '\n' ∉ a ++ b) (hlast : (a ++ b).getLast? ≠ some '\r') :
    IsRow (a ++ b) := by
  refine ⟨⟨by simp [ha.ne_nil], hline, hlast⟩, fun hhead => ?_⟩
  rw [List.head?_append_of_ne_nil _ ha.ne_nil] at hhead
  have := ha.head
  rw [hhead] at this
  exact absurd this (by decide)

theorem IsInertText.isRow (h : IsInertText (a ++ b)) (ha : Solid a) : IsRow (a ++ b) :=
  isRow_append ha h.newline_not_mem h.last_ne

/-- **An inert text with a semicolon is one statement.** -/
theorem IsInertText.stands {free : Bool} (h : IsInertText (a ++ b)) (ha : Solid a) :
    Stands free (a ++ b ++ [';']) := by
  obtain ⟨⟨ts, hrender, hts, hinert⟩, hline, -⟩ := h
  have hrow : IsRow (a ++ b ++ [';']) := by
    rw [List.append_assoc]
    refine isRow_append ha ?_ ?_
    · rw [← List.append_assoc, List.mem_append, not_or]
      exact ⟨hline, by decide⟩
    · rw [← List.append_assoc, List.getLast?_concat]
      decide
  rw [← hrender] at hrow ⊢
  exact stands_tokens hts hrow fun _ header _ => ⟨header, Nesting.after_eq_self rfl hinert⟩

/-- An inert text on a line of its own. -/
theorem IsInertText.passes {s : Nesting} (h : IsInertText (a ++ b)) (ha : Solid a)
    (hend : s.afterEnd = false) : Passes 0 s [a ++ b] 0 s := by
  have hrow := h.isRow ha
  obtain ⟨⟨ts, hrender, hts, hinert⟩, -, -⟩ := h
  rw [← hrender] at hrow ⊢
  exact passes_tokens hts hrow (Nesting.after_eq_self hend hinert)

/-- An inert text and the word that ends the head of a construct. -/
theorem IsInertText.passes_word {s s' : Nesting} (h : IsInertText (a ++ b)) (ha : Solid a)
    (hend : s.afterEnd = false) (hv : IsName v) (hstep : s.token (word v) = some s') :
    Passes 0 s [a ++ b ++ ' ' :: v] 0 s' := by
  obtain ⟨⟨ts, hrender, hts, hinert⟩, hline, -⟩ := h
  have hrow : IsRow (a ++ b ++ ' ' :: v) := by
    rw [List.append_assoc]
    refine isRow_append ha ?_ ?_
    · rw [← List.append_assoc]
      simp only [List.mem_append (s := a ++ b), List.mem_cons, not_or]
      exact ⟨hline, by decide, hv.isRun.newline_not_mem⟩
    · rw [← List.append_assoc, List.getLast?_append_of_ne_nil _ (List.cons_ne_nil _ _),
        List.getLast?_cons_of_ne_nil hv.isRun.ne_nil]
      exact hv.isRun.solid.last_ne_return
  have hwhole : render (ts ++ [mark ' ', word v]) = a ++ b ++ ' ' :: v := by simp [hrender]
  rw [← hwhole] at hrow ⊢
  refine passes_tokens (hts.suffixed hv) hrow ?_
  have hblank : s.token (mark ' ') = some s := rfl
  rw [Nesting.after_append, Nesting.after_eq_self hend hinert, Option.bind_some, Nesting.after, hblank,
    Option.bind_some, Nesting.after, hstep, Option.bind_some, Nesting.after]

/-- The head of a construct: a word, an inert text and another word. -/
theorem IsInertText.passes_header {s s' s'' : Nesting} {w : Text} (h : IsInertText t) (hw : IsName w)
    (hstep : s.token (word w) = some s') (hend : s'.afterEnd = false) (hv : IsName v)
    (hstep' : s'.token (word v) = some s'') : Passes 0 s [w ++ ' ' :: (t ++ ' ' :: v)] 0 s'' := by
  obtain ⟨⟨ts, rfl, hts, hinert⟩, hline, -⟩ := h
  have hrow : IsRow (w ++ ' ' :: (render ts ++ ' ' :: v)) := by
    refine isRow_append hw.isRun.solid ?_ ?_
    · simp only [List.mem_append, List.mem_cons, not_or]
      exact ⟨hw.isRun.newline_not_mem, by decide, hline, by decide, hv.isRun.newline_not_mem⟩
    · rw [List.append_cons, ← List.append_assoc, List.append_cons,
        List.getLast?_append_of_ne_nil _ hv.isRun.ne_nil]
      exact hv.isRun.solid.last_ne_return
  have hwhole : w ++ ' ' :: (render ts ++ ' ' :: v) = render (header w [' '] ts v) := by
    simp [render_header]
  rw [hwhole] at hrow ⊢
  exact passes_tokens (isPhrase_header hts hw isPad_blank (by decide) hv) hrow
    (Nesting.after_header hstep hend isPad_blank hinert hstep')

end Rows

/-! ## Flat texts -/

/-- A text of one line in which no construct is left open. -/
structure IsFlatText (t : Text) : Prop where
  /-- The text is a phrase. -/
  tokens : ∃ ts, render ts = t ∧ IsPhrase ts ∧ ∀ depth header, ∃ header',
    Nesting.after ⟨depth, false, header⟩ ts = some ⟨depth, false, header'⟩
  /-- The text is one line. -/
  newline_not_mem : '\n' ∉ t

theorem IsInertText.isFlatText {t : Text} (h : IsInertText t) : IsFlatText t := by
  obtain ⟨⟨ts, hrender, hts, hinert⟩, hline, -⟩ := h
  exact ⟨⟨ts, hrender, hts, fun _ header => ⟨header, Nesting.after_eq_self rfl hinert⟩⟩, hline⟩

section Flat

variable {a b : Text}

/-- An inert text and a flat one with a connective between them. -/
theorem IsFlatText.spaced (ha : IsInertText a) (hb : IsFlatText b) {s : Text}
    (hs : isConnective s = true) (hline : '\n' ∉ s)
    (hafter : ∀ depth header, ∃ header',
      Nesting.after ⟨depth, false, header⟩ (spaced s) = some ⟨depth, false, header'⟩) :
    IsFlatText (a ++ ' ' :: (s ++ ' ' :: b)) := by
  obtain ⟨⟨ts, rfl, hts, hinert⟩, hline', -⟩ := ha
  obtain ⟨⟨us, rfl, hus, hflat⟩, hline''⟩ := hb
  refine ⟨⟨ts ++ (Token.spaced s ++ us), by simp, hts.spaced hus hs, fun depth header => ?_⟩, ?_⟩
  · obtain ⟨header₁, hsymbol⟩ := hafter depth header
    obtain ⟨header₂, hrest⟩ := hflat depth header₁
    refine ⟨header₂, ?_⟩
    rw [Nesting.after_append, Nesting.after_eq_self rfl hinert, Option.bind_some, Nesting.after_append,
      hsymbol, Option.bind_some, hrest]
  · simp only [List.mem_append, List.mem_cons, not_or]
    exact ⟨hline', by decide, hline, by decide, hline''⟩

/-- **A flat text with a semicolon is one statement.** -/
theorem IsFlatText.stands {free : Bool} (h : IsFlatText (a ++ b)) (ha : Solid a) :
    Stands free (a ++ b ++ [';']) := by
  obtain ⟨⟨ts, hrender, hts, hflat⟩, hline⟩ := h
  have hrow : IsRow (a ++ b ++ [';']) := by
    rw [List.append_assoc]
    refine isRow_append ha ?_ ?_
    · rw [← List.append_assoc, List.mem_append, not_or]
      exact ⟨hline, by decide⟩
    · rw [← List.append_assoc, List.getLast?_concat]
      decide
  rw [← hrender] at hrow ⊢
  exact stands_tokens hts hrow fun depth header _ => hflat depth header

end Flat

/-! ## Rows in parentheses -/

section Parentheses

variable {a b t : Text} {parens : Nat} {s : Nesting}

/-- An inert text and the parenthesis that opens a list of rows. -/
theorem IsInertText.passes_open (h : IsInertText (a ++ b)) (ha : Solid a) (hend : s.afterEnd = false) :
    Passes 0 s [a ++ b ++ " (".toList] 1 s := by
  obtain ⟨⟨ts, hrender, hts, hinert⟩, hline, -⟩ := h
  have hparen : " (".toList = [' ', '('] := rfl
  have hrow : IsRow (a ++ b ++ " (".toList) := by
    rw [List.append_assoc]
    refine isRow_append ha ?_ ?_
    · rw [← List.append_assoc, List.mem_append, not_or]
      exact ⟨hline, by decide⟩
    · rw [← List.append_assoc, List.getLast?_append_of_ne_nil _ (by decide)]
      decide
  refine .single hrow fun position before u hbefore _ => ?_
  have hfit : FitAll before (ts ++ [mark ' ']) ('(' :: u).head? :=
    fitAll_append.2 ⟨hts _ _ hbefore rfl, fits_blank, trivial⟩
  have hafter : s.after (ts ++ [mark ' ']) = some s := by
    rw [Nesting.after_append, Nesting.after_eq_self hend hinert]
    rfl
  have hwhole : render (ts ++ [mark ' ']) = a ++ b ++ [' '] := by simp [hrender]
  have hscan := @extentFrom_render s s position before _ _ hfit hafter
  rw [hwhole, extentFrom_open] at hscan
  have hsplit : a ++ b ++ " (".toList ++ u = a ++ b ++ [' '] ++ '(' :: u := by
    rw [hparen]
    simp
  rw [hsplit, hscan]
  have hlast : lastOr before (a ++ b ++ " (".toList) = some '(' := by
    rw [hparen, lastOr_append]
    rfl
  rw [hlast, hparen]
  simp only [List.length_append, List.length_cons, List.length_nil]
  rfl

/-- The parenthesis that closes a list of rows. -/
theorem passes_close : Passes (parens + 1) s [[')']] parens s :=
  .single (isRow_of_solid (solid_of_forall (by decide) (by decide)) (by decide))
    fun _ _ u _ _ => extentFrom_close u

/-- The parenthesis that closes a list of rows and ends a statement. -/
theorem finishes_close {depth : Nat} {header : Bool} :
    Finishes depth 1 ⟨depth, false, header⟩ [");".toList] := by
  have hparen : ");".toList = [')', ';'] := rfl
  rw [hparen]
  refine .last (isRow_of_solid (solid_of_forall (by decide) (by decide)) (by decide)) rfl ?_
  intro position before u _
  rw [List.cons_append, extentFrom_close, List.singleton_append, extentFrom_semicolon_ended]
  rfl

theorem IsPhraseText.separated (h : IsPhraseText t) {c : Char} (hc : c = ',' ∨ c = ';') :
    IsPhraseText (t ++ [c]) := by
  obtain ⟨⟨ts, rfl, hts⟩, hline⟩ := h
  refine ⟨⟨ts ++ [mark c], by simp, fun before next hb _ => ?_⟩, ?_⟩
  · refine fitAll_append.2 ⟨hts _ _ hb ?_, ?_, trivial⟩
    · rcases hc with rfl | rfl <;> rfl
    · rcases hc with rfl | rfl <;> exact fits_separator (by decide)
  · rw [List.mem_append, not_or, List.mem_singleton]
    exact ⟨hline, by rcases hc with rfl | rfl <;> decide⟩

/-- A row in parentheses, perhaps with a comment behind it. -/
theorem IsPhraseText.passes {comment : Option Comment} (h : IsPhraseText t) (hrow : IsRow t)
    (hcomment : ∀ c ∈ comment, c.IsOneLine) :
    Passes (parens + 1) s [t ++ remark comment] (parens + 1) s := by
  obtain ⟨⟨ts, rfl, hts⟩, -⟩ := h
  exact passes_entry hts hrow hcomment

end Parentheses

/-! ## Ranges and choices -/

section Readable

variable {room : Nat}

/-- Whether the ends of a range read back. -/
def Range.Readable (room : Nat) : Range → Prop
  | .ascending low high => low.ReadsBack room ∧ high.ReadsBack room
  | .descending high low => high.ReadsBack room ∧ low.ReadsBack room

theorem Range.Readable.isInertText {r : Range} (h : r.Readable room) : IsInertText r.text := by
  cases r with
  | ascending low high =>
    exact isInertText_spaced h.1.isInertText h.2.isInertText (s := "to".toList) (by decide)
      (by decide) (by decide)
  | descending high low =>
    exact isInertText_spaced h.1.isInertText h.2.isInertText (s := "downto".toList) (by decide)
      (by decide) (by decide)

/-- Whether every expression of a choice reads back. -/
inductive Choice.Readable (room : Nat) : Choice → Prop
  | value {e : Expr} : e.ReadsBack room → Readable room (.value e)
  | range {r : Range} : r.Readable room → Readable room (.range r)
  | alternatives {choices : List Choice} : (∀ c ∈ choices, Readable room c) →
    Readable room (.alternatives choices)
  | others : Readable room .others

theorem Choice.Readable.isInertText {c : Choice} (h : c.Readable room) : IsInertText c.text := by
  induction h with
  | value h => exact h.isInertText
  | range h => exact h.isInertText
  | others => exact IsName.isInertText ⟨by decide, by decide⟩ (by decide +kernel)
  | @alternatives choices _ ih =>
    rw [Choice.text, Choice.texts_eq]
    exact isInertText_barJoin (List.forall_mem_map.2 ih)

/-- A type with a default, both of which read back. -/
theorem isInertText_typeText {default : Option Expr} {t : Text}
    (htype : IsInertText t) (hdefault : ∀ e ∈ default, e.ReadsBack room) :
    IsInertText (TypedName.typeText t default) := by
  cases default with
  | none => exact htype
  | some value =>
    exact isInertText_spaced htype (hdefault value rfl).isInertText (s := ":=".toList) (by decide)
      (fun h => absurd h (by decide)) (by decide)

end Readable

end CanonicalVhdl
