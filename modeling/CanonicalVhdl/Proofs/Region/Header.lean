import CanonicalVhdl.Proofs.Expr.Parts
import CanonicalVhdl.Proofs.Region.Pieces
import Mathlib.Data.List.Forall2

/-!
# Headers and blocks of constructs

A construct starts with a word, a phrase and another word: `if … then`, `case … is`,
`for … loop`.  Its parts stand on lines of their own below.

## Main definitions

* `Token.header w g ts v` — the words `w` and `v` with the phrase `ts` between them.
* `construct` — a header, an interior and a closing clause.
* `Laid` — a text is one piece of a region, at every depth of indentation.
* `blockOf text k es` — elements on lines of their own with `k` steps of indentation.

## Main statements

* `Token.Nesting.after_header` — what a header opens.
* `isStatement_headed` — a construct is one statement.
* `cutOuter?_phrase` — a text is cut at the second word of a header.
* `shift_nested_block` — a nested block, moved to the right, is a block.
* `region_block`, `isInterior_block` — a block is a region, and the interior of a construct.
-/

namespace CanonicalVhdl

open Text Token

namespace Token

/-- A phrase with a blank and a word after it. -/
theorem IsPhrase.suffixed {ts : List Token} (h : IsPhrase ts) {w : Text} (hw : IsName w) :
    IsPhrase (ts ++ [mark ' ', word w]) := fun _ _ hb hn =>
  fitAll_append.2 ⟨h _ _ hb rfl, fits_blank, hw.fits rfl hn.ident, trivial⟩

/-- A word and padding before a phrase. -/
theorem IsPhrase.headed {ts : List Token} (h : IsPhrase ts) {w g : Text} (hw : IsName w)
    (hg : IsPad g) (hne : g ≠ []) : IsPhrase (word w :: (Token.pad g ++ ts)) := by
  intro before next hb hn
  obtain ⟨c, r, rfl⟩ := List.exists_cons_of_ne_nil hne
  have hc : isIdentChar c = false := by
    rcases hg c List.mem_cons_self with rfl | rfl <;> decide
  have hopens : Opens (lastOr (lastOr before w) (c :: r)) := by
    rw [lastOr_cons]
    refine IsPad.opens (fun d hd => hg d (List.mem_cons_of_mem _ hd)) ?_
    rcases hg c List.mem_cons_self with rfl | rfl <;> rfl
  refine ⟨hw.fits hb.ident (by simpa [Token.pad, firstOr] using hc), fitAll_append.2 ⟨hg.fitAll, ?_⟩⟩
  rw [render_pad]
  exact h _ _ hopens hn

/-- The tokens of a header. -/
def header (w g : Text) (ts : List Token) (v : Text) : List Token :=
  word w :: (pad g ++ (ts ++ [mark ' ', word v]))

theorem render_header (w g : Text) (ts : List Token) (v : Text) :
    render (header w g ts v) = w ++ (g ++ (render ts ++ ' ' :: v)) := by
  simp [header]

theorem isPhrase_header {w g v : Text} {ts : List Token} (h : IsPhrase ts) (hw : IsName w)
    (hg : IsPad g) (hne : g ≠ []) (hv : IsName v) : IsPhrase (header w g ts v) :=
  (h.suffixed hv).headed hw hg hne

end Token

/-- Padding has no part in the structure. -/
theorem isInert_pad {g : Text} (hg : IsPad g) : ∀ t ∈ pad g, Nesting.isInert t = true := by
  intro t ht
  obtain ⟨c, hc, rfl⟩ := List.mem_map.1 ht
  rcases hg c hc with rfl | rfl <;> rfl

/-- What a header opens depends on its two words. -/
theorem Nesting.after_header {s s' s'' : Nesting} {w g v : Text} {ts : List Token}
    (hw : s.token (Token.word w) = some s') (hend : s'.afterEnd = false) (hg : IsPad g)
    (hts : ∀ t ∈ ts, Nesting.isInert t = true) (hv : s'.token (Token.word v) = some s'') :
    s.after (header w g ts v) = some s'' := by
  have hinert : s'.after (pad g ++ (ts ++ [mark ' '])) = some s' := by
    refine Nesting.after_eq_self hend fun t ht => ?_
    simp only [List.mem_append, List.mem_singleton] at ht
    rcases ht with ht | ht | rfl
    · exact isInert_pad hg t ht
    · exact hts t ht
    · rfl
  have hsplit : header w g ts v = Token.word w :: ((pad g ++ (ts ++ [mark ' '])) ++ [Token.word v]) := by
    simp [header]
  rw [hsplit, Nesting.after, hw, Option.bind_some, Nesting.after_append, hinert, Option.bind_some,
    Nesting.after, hv, Option.bind_some, Nesting.after]

/-! ## Cutting at the second word -/

/-- An identifier is no word of a statement. -/
theorem Ident.lacks_word (i : Ident) {w : Text} (hw : w ∈ statementWords) : Lacks w [word i.text] := by
  intro t ht
  have hhead : ∀ w ∈ statementWords, w.head?.any Char.isAlpha = true := by decide
  have hreserved := isReserved_of_isForeign (isForeign_words w hw) (hhead w hw)
  rw [List.mem_singleton.1 ht, spells, sameWord_comm, i.sameWord_eq_false hreserved, Bool.and_false]

section Cut

variable {ts : List Token} {v u : Text}

theorem lacks_word_blank (hv : IsName v) : Lacks v [mark ' '] := by
  intro t ht
  rw [List.mem_singleton.1 ht, spells, beq_eq_false_iff_ne]
  rintro rfl
  exact absurd hv.head (by decide)

theorem spells_word (hv : IsName v) : (word v).spells v = true := by
  rw [spells, hv.head, sameWord_self]
  rfl

theorem fitAll_phrase_word (h : IsPhrase ts) (hv : IsName v) (hu : u.head?.any isIdentChar = false) :
    FitAll none ((ts ++ [mark ' ']) ++ [word v]) u.head? := by
  rw [List.append_assoc]
  exact fitAll_append.2 ⟨h _ _ rfl rfl, fits_blank, hv.fits rfl hu, trivial⟩

/-- The place of a word after a phrase that lacks it. -/
theorem outerMatch?_phrase (h : IsPhrase ts) (hl : Lacks v ts) (hv : IsName v)
    (hu : u.head?.any isIdentChar = false) :
    outerMatch? v (render ts ++ ' ' :: (v ++ u)) = some ((render ts).length + 1) := by
  have := outerMatch?_token (isPattern_word hv) (fitAll_phrase_word h hv hu)
    (lacks_append.2 ⟨hl, lacks_word_blank hv⟩) (spells_word hv)
  simpa using this

/-- A text is cut at a word after a phrase that lacks it. -/
theorem cutOuter?_phrase (h : IsPhrase ts) (hl : Lacks v ts) (hv : IsName v)
    (hu : u.head?.any isIdentChar = false) :
    cutOuter? v (render ts ++ ' ' :: (v ++ u)) = some (render ts ++ [' '], u) := by
  have := cutOuter?_token (isPattern_word hv) (fitAll_phrase_word h hv hu)
    (lacks_append.2 ⟨hl, lacks_word_blank hv⟩) (spells_word hv) rfl
  simpa using this

end Cut

/-! ## Constructs -/

/-- A header, an interior and a closing clause with the words `ks`. -/
def construct (w g x v inner g' : Text) (ks : List Text) : Text :=
  w ++ (g ++ (x ++ ' ' :: v)) ++ (inner ++ (g' ++ ("end".toList ++ clauseEnd ks)))

section Construct

variable {w x v inner : Text} {ks : List Text}

theorem newline_not_mem_clauseEnd (hks : ∀ k ∈ ks, IsRun k) : '\n' ∉ clauseEnd ks := by
  rw [clauseEnd, List.mem_append, List.mem_flatMap, not_or]
  refine ⟨?_, by decide⟩
  rintro ⟨k, hk, hmem⟩
  rcases List.mem_cons.1 hmem with h | h
  · exact absurd h (by decide)
  · exact (hks k hk).not_mem (by decide) h

theorem isLine_closing (hks : ∀ k ∈ ks, IsRun k) : IsLine ("end".toList ++ clauseEnd ks) := by
  refine ⟨List.cons_ne_nil _ _, ?_, ?_⟩
  · rw [List.mem_append, not_or]
    exact ⟨by decide, newline_not_mem_clauseEnd hks⟩
  · simp only [clauseEnd, ← List.append_assoc, List.getLast?_concat]
    decide

/-- No word stands at the head of a text that starts with another character. -/
theorem Text.afterWord?_eq_none {w : Text} (hw : IsRun w) {c : Char} {r : Text}
    (hblank : isBlank c = false) (hident : isIdentChar c = false) : afterWord? w (c :: r) = none := by
  have hstart : trimStart (c :: r) = c :: r := trimStart_eq_self (by simpa using hblank)
  have hnone := wholeWord?_eq_none hw none (t := c :: r) (by simpa using hident)
  rw [afterWord?, hstart, hnone]
  rfl

/-- What precedes a closing clause with a name on a line of its own. -/
theorem Text.beforeEnd?_closing {required : Bool} {x w n : Text} (hw : IsRun w) (hn : IsRun n) (k : Nat)
    (hx : x.getLast?.any isBlank = false) :
    beforeEnd? [w] required (some n) (x ++ (lineBreak k ++ ("end".toList ++ clauseEnd [w, n])))
      = some x := by
  have hident : (x ++ lineBreak k).getLast?.any isIdentChar = false := by
    have hne : lineBreak k ≠ [] := List.cons_ne_nil _ _
    have hlast := (isPad_lineBreak k).lastOr_ident hne none
    rwa [lastOr_of_ne_nil hne, ← List.getLast?_append_of_ne_nil x hne] at hlast
  have hnamed : beforeEnd? [w] required (some n) ((x ++ lineBreak k) ++ ("end".toList ++ ' ' :: (w ++ ' '
      :: (n ++ [';'])))) = some (trimEnd (x ++ lineBreak k)) := beforeEnd?_named hw hn hident
  rw [trimEnd_append (isPad_lineBreak k).all_isBlank, trimEnd_eq_self hx] at hnamed
  rw [← hnamed]
  simp [clauseEnd]

/-- Moving a construct to the right moves its interior. -/
theorem shift_construct (hw : '\n' ∉ w) (hx : '\n' ∉ x) (hv : '\n' ∉ v)
    (hks : ∀ k ∈ ks, IsRun k) (k : Nat) :
    shift k (construct w [' '] x v inner (lineBreak 0) ks)
      = construct w [' '] x v (shift k inner) (lineBreak k) ks := by
  have hheader : '\n' ∉ w ++ ([' '] ++ (x ++ ' ' :: v)) := by
    simp only [List.mem_append, List.mem_cons, List.not_mem_nil, not_or, or_false]
    exact ⟨hw, by decide, hx, by decide, hv⟩
  have hclosing := shift_of_not_mem (isLine_closing hks).newline_not_mem k
  rw [construct, construct, shift_append, shift_of_not_mem hheader, shift_append,
    shift_append k (lineBreak 0), hclosing, shift_lineBreak]
  rfl

/-- A construct is made of lines if its interior is. -/
theorem isLined_construct (hw : IsRun w) (hx : '\n' ∉ x) (hv : IsRun v) (hinner : IsTail inner)
    (hks : ∀ k ∈ ks, IsRun k) : IsLined (construct w [' '] x v inner (lineBreak 0) ks) := by
  have hheader : IsLine (w ++ ([' '] ++ (x ++ ' ' :: v))) := by
    refine isLine_of_solid ?_ ?_
    · have := hw.solid.between hv.solid ([' '] ++ (x ++ [' ']))
      simpa using this
    · simp only [List.mem_append, List.mem_cons, List.not_mem_nil, not_or, or_false]
      exact ⟨hw.not_mem (by decide), by decide, hx, by decide, hv.not_mem (by decide)⟩
  exact hheader.isLined.append_tail (hinner.append (isLine_closing hks).isLined.tail)

theorem isInfix_construct (w g x v inner g' : Text) (ks : List Text) :
    inner <:+: construct w g x v inner g' ks :=
  ⟨w ++ (g ++ (x ++ ' ' :: v)), g' ++ ("end".toList ++ clauseEnd ks), by simp [construct]⟩

/-- A construct is one statement. -/
theorem isStatement_headed {free free' endsLine : Bool} {ts : List Token} {g g' k : Text}
    (hphrase : IsPhrase ts) (hw : IsName w) (hdiv : dividingWords.contains (fold w) = false)
    (hg : IsPad g) (hne : g ≠ []) (hv : IsName v)
    (hafter : ∀ depth header, (header = true → free = true) →
      Nesting.after ⟨depth, false, header⟩ (Token.header w g ts v) = some ⟨depth + 1, false, false⟩)
    (hinner : IsInterior free' endsLine inner) (hg' : IsPad g') (hne' : g' ≠ [])
    (hline : endsLine = true → AtLineEnd g') (hk : IsRun k)
    (hks : ∀ v ∈ ks, IsRun v ∧ structureWords.contains (fold v) = false) :
    IsStatement free (construct w g (render ts) v inner g' (k :: ks)) := by
  have := isStatement_construct (isPhrase_header hphrase hw hg hne hv) hw hdiv hafter hinner hg' hne'
    hline hk hks
  rwa [← Token.header, render_header] at this

end Construct

/-! ## Parts of stacks -/

/-- Texts on lines of their own after a solid text end without a blank. -/
theorem Text.Solid.stack {x : Text} {xs : List Text} (h : Solid x) (hxs : ∀ y ∈ xs, Solid y)
    (k : Nat) : Solid (x ++ stack k xs) := by
  induction xs generalizing x with
  | nil => simpa using h
  | cons y ys ih =>
    rw [stack_cons, ← List.append_assoc, ← List.append_assoc]
    refine ih ?_ fun z hz => hxs z (by simp [hz])
    rw [List.append_assoc]
    exact h.between (hxs y (by simp)) _

/-- Blanks before texts on lines of their own are trimmed. -/
theorem Text.trimStart_stack {x : Text} (hx : Solid x) (xs : List Text) (k : Nat) (u : Text) :
    trimStart (stack k (x :: xs) ++ u) = x ++ (stack k xs ++ u) := by
  rw [stack_cons, List.append_assoc, trimStart_append (isPad_lineBreak k).all_isBlank, List.append_assoc,
    trimStart_eq_self (hx.head_append _)]

/-- What precedes a closing clause on lines of its own, the blanks before it aside. -/
theorem Text.beforeEnd?_stack (required : Bool) {w n : Text} (hw : IsRun w) (hn : IsRun n)
    {xs : List Text} (hxs : ∀ x ∈ xs, Solid x) (j k : Nat) :
    beforeEnd? [w] required (some n)
        (trimStart (stack j xs ++ (lineBreak k ++ ("end".toList ++ clauseEnd [w, n]))))
      = some (trimStart (stack j xs)) := by
  cases xs with
  | nil =>
    have hend : trimStart ("end".toList ++ clauseEnd [w, n]) = "end".toList ++ clauseEnd [w, n] :=
      trimStart_eq_self rfl
    have hclosing : "end".toList ++ clauseEnd [w, n]
        = [] ++ ("end".toList ++ ' ' :: (w ++ ' ' :: (n ++ [';']))) := by
      simp [clauseEnd]
    rw [stack_nil, List.nil_append, trimStart_append (isPad_lineBreak k).all_isBlank, hend, hclosing]
    exact beforeEnd?_named hw hn rfl
  | cons x xs =>
    obtain ⟨hx, hxs⟩ := List.forall_mem_cons.1 hxs
    have hstart := trimStart_stack hx xs j []
    simp only [List.append_nil] at hstart
    rw [trimStart_stack hx, hstart, ← List.append_assoc]
    exact beforeEnd?_closing hw hn k (hx.stack hxs j).last

/-! ## Blocks

The parts of a construct stand on lines of their own, inside some steps of indentation.
Moved to the right, such a block stays a block, so what holds of it is said for every
depth of indentation at once. -/

/-- Whether a text is one piece of a region, at every depth of indentation. -/
structure Laid (free : Bool) (piece : Nat → Piece) (t : Text) : Prop where
  /-- The text has no empty lines. -/
  lined : IsLined t
  /-- The text is the piece. -/
  shows : ∀ k, Shows free (piece k) (shift k t)

/-- A piece on one line stays the same wherever it is moved. -/
theorem Laid.of_line {free : Bool} {p : Piece} {t : Text} (h : Shows free p t) (hline : '\n' ∉ t) :
    Laid free (fun _ => p) t where
  lined := (isLine_of_solid h.solid hline).isLined
  shows k := by rwa [shift_of_not_mem hline]

variable {α : Type} {free : Bool} {text : α → Text} {piece : Nat → α → Piece} {es : List α}

/-- Elements on lines of their own, with `k` steps of indentation. -/
def blockOf (text : α → Text) (k : Nat) (es : List α) : Text :=
  stack k (es.map fun e => shift k (text e))

theorem forall₂_shows_block (h : ∀ e ∈ es, Laid free (piece · e) (text e)) (k : Nat) :
    List.Forall₂ (Shows free) (es.map (piece k)) (es.map fun e => shift k (text e)) := by
  rw [List.forall₂_map_left_iff, List.forall₂_map_right_iff, List.forall₂_same]
  exact fun e he => (h e he).shows k

theorem isLined_block (h : ∀ e ∈ es, Laid free (piece · e) (text e)) :
    join ['\n'] (es.map text) = [] ∨ IsLined (join ['\n'] (es.map text)) := by
  by_cases hnil : es = []
  · rw [hnil]
    exact .inl rfl
  · refine .inr (isLined_join (by simpa using hnil) fun x hx => ?_)
    obtain ⟨e, he, rfl⟩ := List.mem_map.1 hx
    exact (h e he).lined

/-- A nested block, moved to the right. -/
theorem shift_nested_block (h : ∀ e ∈ es, Laid free (piece · e) (text e)) (k : Nat) :
    shift k (nested (join ['\n'] (es.map text))) = blockOf text (k + 1) es := by
  rw [shift_nested fun x hx => ?_, blockOf, List.map_map]
  · rfl
  · obtain ⟨e, he, rfl⟩ := List.mem_map.1 hx
    exact (h e he).lined

theorem region_block (h : ∀ e ∈ es, Laid free (piece · e) (text e)) (k : Nat) {g : Text}
    (hg : IsPad g) (hline : AtLineEnd g) : Region free (es.map (piece k)) (blockOf text k es ++ g) :=
  region_stack (forall₂_shows_block h k) k hg hline

/-- A block without the blanks before it is a region. -/
theorem region_trimStart_block (h : ∀ e ∈ es, Laid free (piece · e) (text e)) (k : Nat) :
    Region free (es.map (piece k)) (trimStart (blockOf text k es)) := by
  cases es with
  | nil => exact .nil isPad_nil
  | cons e es =>
    obtain ⟨he, hes⟩ := List.forall_mem_cons.1 h
    have hregion := region_block hes k isPad_nil atLineEnd_nil
    have hline := atLineEnd_stack k (es.map fun e => shift k (text e)) atLineEnd_nil
    have hstart := trimStart_stack (he.shows k).solid (es.map fun e => shift k (text e)) k []
    simp only [List.append_nil] at hregion hline hstart
    rw [blockOf, List.map_cons, List.map_cons, hstart]
    exact .cons (g := []) isPad_nil (he.shows k) hline hregion

/-- A block is the interior of a construct. -/
theorem isInterior_block (h : ∀ e ∈ es, Laid free (piece · e) (text e)) (k : Nat) :
    IsInterior free ((es.getLast?.map (piece k)).any Piece.endsLine) (blockOf text k es) := by
  have hregion := region_block h k isPad_nil atLineEnd_nil
  have hline := atLineEnd_stack k (es.map fun e => shift k (text e)) atLineEnd_nil
  rw [List.append_nil] at hregion hline
  have := hregion.isInterior hline
  rwa [List.getLast?_map] at this

/-- A block after a solid text ends without a blank. -/
theorem solid_block (h : ∀ e ∈ es, Laid free (piece · e) (text e)) (k : Nat) {x : Text}
    (hx : Solid x) : Solid (x ++ blockOf text k es) := by
  refine hx.stack (fun y hy => ?_) k
  obtain ⟨e, he, rfl⟩ := List.mem_map.1 hy
  exact ((h e he).shows k).solid

end CanonicalVhdl
