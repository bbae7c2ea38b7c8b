import CanonicalVhdl.Proofs.Object.Type
import CanonicalVhdl.Sequential.Read
import CanonicalVhdl.Proofs.Text.Lists

/-!
# Choices that read back

A branch of a `case` statement is selected by a value, a range, `others`, or by several
values and ranges with bars between them.  The reader takes `others` for no member of
several choices, and it does not nest them.

## Main definitions

* `Choice.IsMember` — a choice that may stand between bars.
* `Choice.ReadsBack` — a choice whose parts read back.

## Main statements

* `Choice.ReadsBack.reads` — a choice is read from its text, whatever padding stands
  around it.
-/

namespace CanonicalVhdl

open Text Token

/-! ## Bars -/

namespace Token

/-- Sequences one after the other, with a bar between blanks between them. -/
def barJoin : List (List Token) → List Token
  | [] => []
  | [ts] => ts
  | ts :: rest => ts ++ (spaced "|".toList ++ barJoin rest)

theorem barJoin_cons (ts : List Token) {rest : List (List Token)} (h : rest ≠ []) :
    barJoin (ts :: rest) = ts ++ (spaced "|".toList ++ barJoin rest) := by
  cases rest with
  | nil => exact absurd rfl h
  | cons us rest => rfl

theorem render_barJoin (pieces : List (List Token)) :
    render (barJoin pieces) = Text.join " | ".toList (pieces.map render) := by
  have hbar : " | ".toList = ' ' :: ("|".toList ++ [' ']) := rfl
  induction pieces with
  | nil => rfl
  | cons ts rest ih =>
    cases rest with
    | nil => simp [barJoin, Text.join]
    | cons us rest =>
      rw [barJoin_cons ts (List.cons_ne_nil us rest), render_append, render_append, render_spaced, ih,
        List.map_cons, List.map_cons, List.map_cons, Text.join, Text.join,
        List.intercalate_cons_cons, hbar, List.append_assoc]

theorem IsPhrase.barJoin {pieces : List (List Token)} (hne : pieces ≠ [])
    (h : ∀ p ∈ pieces, IsPhrase p) : IsPhrase (barJoin pieces) := by
  induction pieces with
  | nil => exact absurd rfl hne
  | cons ts rest ih =>
    by_cases hrest : rest = []
    · subst hrest
      exact h ts (by simp)
    · rw [barJoin_cons ts hrest]
      exact (h ts (by simp)).spaced (ih hrest fun p hp => h p (by simp [hp])) (by decide)

theorem solid_barJoin {pieces : List (List Token)} (hne : pieces ≠ [])
    (h : ∀ p ∈ pieces, Solid (render p)) : Solid (render (barJoin pieces)) := by
  induction pieces with
  | nil => exact absurd rfl hne
  | cons ts rest ih =>
    by_cases hrest : rest = []
    · subst hrest
      exact h ts (by simp)
    · rw [barJoin_cons ts hrest, render_append, render_append]
      exact (h ts (by simp)).between (ih hrest fun p hp => h p (by simp [hp])) _

theorem newline_not_mem_barJoin {pieces : List (List Token)} (h : ∀ p ∈ pieces, '\n' ∉ render p) :
    '\n' ∉ render (barJoin pieces) := by
  induction pieces with
  | nil => exact List.not_mem_nil
  | cons ts rest ih =>
    by_cases hrest : rest = []
    · subst hrest
      exact h ts (by simp)
    · rw [barJoin_cons ts hrest, render_append, render_append, List.mem_append, List.mem_append,
        not_or, not_or]
      exact ⟨h ts (by simp), by decide, ih fun p hp => h p (by simp [hp])⟩

theorem forall_mem_barJoin {P : Token → Prop} {pieces : List (List Token)}
    (hbar : ∀ t ∈ spaced "|".toList, P t) (h : ∀ p ∈ pieces, ∀ t ∈ p, P t) :
    ∀ t ∈ barJoin pieces, P t := by
  induction pieces with
  | nil => simp [barJoin]
  | cons ts rest ih =>
    by_cases hrest : rest = []
    · subst hrest
      exact h ts (by simp)
    · rw [barJoin_cons ts hrest]
      intro t ht
      rcases List.mem_append.1 ht with ht | ht
      · exact h ts (by simp) t ht
      · rcases List.mem_append.1 ht with ht | ht
        · exact hbar t ht
        · exact ih (fun p hp => h p (by simp [hp])) t ht

/-- The pieces between the bars are the sequences with padding around them. -/
theorem exists_barPieces (ts : List Token) (rest : List (List Token)) {g : Text} (hg : IsPad g) :
    ∃ piece pieces, pad g ++ barJoin (ts :: rest) = piece ++ pieces.flatMap (symbol ['|'] :: ·) ∧
      List.Forall₂ (fun piece ts => ∃ g g', IsPad g ∧ IsPad g' ∧ piece = pad g ++ (ts ++ pad g'))
        (piece :: pieces) (ts :: rest) := by
  induction rest generalizing ts g with
  | nil =>
    exact ⟨pad g ++ (ts ++ pad []), [], by simp [barJoin, pad],
      .cons ⟨g, [], hg, isPad_nil, rfl⟩ .nil⟩
  | cons us rest ih =>
    obtain ⟨piece, pieces, heq, hall⟩ := ih us isPad_blank
    have hbar : spaced "|".toList = [mark ' ', symbol ['|'], mark ' '] := rfl
    refine ⟨pad g ++ (ts ++ pad [' ']), piece :: pieces, ?_, .cons ⟨g, [' '], hg, isPad_blank, rfl⟩ hall⟩
    have hsplit : pad g ++ barJoin (ts :: us :: rest)
        = (pad g ++ (ts ++ pad [' '])) ++ symbol ['|'] :: (pad [' '] ++ barJoin (us :: rest)) := by
      rw [barJoin_cons ts (List.cons_ne_nil us rest), hbar]
      simp [pad]
    rw [hsplit, heq, List.flatMap_cons, List.cons_append]

/-- A text with bars is cut there. -/
theorem splitOuter_barJoin {pieces : List (List Token)} (hne : pieces ≠ [])
    (h : ∀ p ∈ pieces, IsPhrase p) (hl : ∀ p ∈ pieces, Lacks ['|'] p) :
    List.Forall₂ (fun part ts => ∃ g g', IsPad g ∧ IsPad g' ∧ part = g ++ (render ts ++ g'))
      (splitOuter '|' (render (barJoin pieces))) pieces := by
  obtain ⟨ts, rest, rfl⟩ := List.exists_cons_of_ne_nil hne
  obtain ⟨piece, parts, heq, hall⟩ := exists_barPieces ts rest isPad_nil
  have hlacks : ∀ p ∈ piece :: parts, Lacks ['|'] p := by
    clear heq
    generalize piece :: parts = ps at hall
    generalize ts :: rest = us at hall hl
    induction hall with
    | nil => simp
    | @cons p us ps rest hp _ ih =>
      obtain ⟨g, g', hg, hg', rfl⟩ := hp
      intro q hq
      rcases List.mem_cons.1 hq with rfl | hq
      · rw [lacks_append, lacks_append]
        exact ⟨lacks_pad (by decide) hg, hl us (by simp), lacks_pad (by decide) hg'⟩
      · exact ih (fun p hp => hl p (by simp [hp])) q hq
  have hphrase := IsPhrase.barJoin hne h
  have hempty : pad [] ++ barJoin (ts :: rest) = barJoin (ts :: rest) := rfl
  rw [hempty] at heq
  rw [heq] at hphrase ⊢
  rw [splitOuter_render (.inr (by decide)) (by decide) rfl (by decide) (hphrase _ _ rfl rfl) hlacks,
    ← List.map_cons, List.forall₂_map_left_iff]
  refine hall.imp ?_
  rintro _ us ⟨g, g', hg, hg', rfl⟩
  exact ⟨g, g', hg, hg', by simp⟩

end Token

/-! ## Choices -/

namespace Choice

/-- A value or a range that reads back. -/
inductive IsMember (room : Nat) : Choice → Prop
  | value {e : Expr} : e.ReadsBack room → IsMember room (.value e)
  | range {r : Range} : r.ReadsBack room → IsMember room (.range r)

/-- A choice whose parts read back: of several choices there are at least two, and each
is a value or a range. -/
inductive ReadsBack (room : Nat) : Choice → Prop
  | member {c : Choice} : c.IsMember room → ReadsBack room c
  | others : ReadsBack room .others
  | alternatives {choices : List Choice} : 2 ≤ choices.length →
    (∀ c ∈ choices, c.IsMember room) → ReadsBack room (.alternatives choices)

/-- The tokens of a choice without bars. -/
def singleTokens : Choice → List Token
  | value e => e.tokens
  | range r => r.tokens
  | alternatives _ => []
  | others => [word "others".toList]

/-- The tokens of a choice. -/
def tokens : Choice → List Token
  | alternatives choices => barJoin (choices.map singleTokens)
  | single => single.singleTokens

theorem texts_eq (choices : List Choice) : texts choices = choices.map text := by
  induction choices with
  | nil => rfl
  | cons c cs ih => rw [texts, ih, List.map_cons]

namespace IsMember

variable {room : Nat} {c : Choice}

theorem tokens_eq (h : c.IsMember room) : c.tokens = c.singleTokens := by
  cases h <;> rfl

theorem render_singleTokens (h : c.IsMember room) : render c.singleTokens = c.text := by
  cases h with
  | @value e _ => exact e.render_tokens
  | @range r _ => exact r.render_tokens

theorem isPhrase (h : c.IsMember room) : IsPhrase c.singleTokens := by
  cases h with
  | value h => exact h.isPhrase
  | range h => exact h.isPhrase

theorem isInert (h : c.IsMember room) : ∀ t ∈ c.singleTokens, Nesting.isInert t = true := by
  cases h with
  | value h => exact h.isInert
  | @range r h => exact r.isInert h.designators

theorem lacks (h : c.IsMember room) {pattern : Text} (hp : isForeign pattern = true)
    (hw : Lacks pattern (spaced "to".toList ++ spaced "downto".toList)) :
    Lacks pattern c.singleTokens := by
  cases h with
  | value h => exact lacks_of_isCalm hp h.isCalm
  | @range r h => exact r.lacks hp hw h.designators

theorem solid (h : c.IsMember room) : Solid c.text := by
  cases h with
  | value h => exact h.solid
  | range h => exact h.solid

theorem newline_not_mem (h : c.IsMember room) : '\n' ∉ c.text := by
  cases h with
  | value h => exact h.newline_not_mem
  | range h => exact h.newline_not_mem

/-- A member is read from its text. -/
theorem readSingle (h : c.IsMember room) : Text.Reads (Choice.readSingle room) c.text c := by
  intro g g' hg hg'
  have hothers : sameWord c.text "others".toList = false := by
    rw [← h.render_singleTokens]
    exact sameWord_eq_false_of_lacks ⟨by decide, by decide⟩ h.isPhrase
      (h.lacks (isForeign_words _ (by decide)) (by decide))
  rw [Choice.readSingle, ← List.append_assoc, trim_pad_trimmed hg.all_isBlank h.solid.toTrimmed hg'.all_isBlank]
  simp only [hothers, Bool.false_eq_true, if_false]
  cases h with
  | range h => simp only [text, h.reads.self]
  | @value e h =>
    have hrange : Range.readWith (Expr.read room) ([] ++ (render e.tokens ++ [])) = none :=
      Range.readWith_eq_none h.isPhrase (by rw [e.render_tokens]; exact h.solid) h.isCalm isPad_nil
        isPad_nil
    rw [List.nil_append, List.append_nil, e.render_tokens] at hrange
    simp only [text, Range.read, hrange, h.reads.self, Option.map_some]

theorem readAlternative (h : c.IsMember room) :
    Text.Reads (Choice.readAlternative room) c.text c := by
  intro g g' hg hg'
  rw [Choice.readAlternative, h.readSingle g g' hg hg']
  cases h <;> rfl

end IsMember

theorem ne_nil_of_le {choices : List Choice} (h : 2 ≤ choices.length) : choices ≠ [] := by
  rintro rfl
  exact absurd h (by decide)

namespace ReadsBack

variable {room : Nat} {c : Choice}

theorem render_tokens (h : c.ReadsBack room) : render c.tokens = c.text := by
  cases h with
  | member h => rw [h.tokens_eq, h.render_singleTokens]
  | others =>
    have htokens : Choice.others.tokens = [word "others".toList] := rfl
    rw [htokens, render_cons, text_word, render_nil, List.append_nil, text]
  | @alternatives choices _ h =>
    rw [tokens, render_barJoin, text, texts_eq, List.map_map]
    congr 1
    exact List.map_congr_left fun c hc => (h c hc).render_singleTokens

theorem isPhrase (h : c.ReadsBack room) : IsPhrase c.tokens := by
  cases h with
  | member h => rw [h.tokens_eq]; exact h.isPhrase
  | others => exact isPhrase_word ⟨by decide, by decide⟩
  | @alternatives choices hlen h =>
    exact IsPhrase.barJoin (by simpa using ne_nil_of_le hlen)
      (by simpa using fun c hc => (h c hc).isPhrase)

theorem isInert (h : c.ReadsBack room) : ∀ t ∈ c.tokens, Nesting.isInert t = true := by
  cases h with
  | member h => rw [h.tokens_eq]; exact h.isInert
  | others => decide
  | alternatives _ h => exact forall_mem_barJoin (by decide) (by simpa using fun c hc => (h c hc).isInert)

/-- Outside the parentheses of a choice no arrow stands. -/
theorem lacks_arrow (h : c.ReadsBack room) : Lacks "=>".toList c.tokens := by
  cases h with
  | member h => rw [h.tokens_eq]; exact h.lacks (by decide) (by decide)
  | others => decide
  | alternatives _ h =>
    refine forall_mem_barJoin (by decide) fun p hp => ?_
    obtain ⟨c, hc, rfl⟩ := List.mem_map.1 hp
    exact (h c hc).lacks (by decide) (by decide)

theorem solid (h : c.ReadsBack room) : Solid c.text := by
  rw [← h.render_tokens]
  cases h with
  | member h => rw [h.tokens_eq, h.render_singleTokens]; exact h.solid
  | others => exact IsRun.solid ⟨by decide, by decide⟩
  | alternatives hlen h =>
    refine solid_barJoin (by simpa using ne_nil_of_le hlen) fun p hp => ?_
    obtain ⟨c, hc, rfl⟩ := List.mem_map.1 hp
    rw [(h c hc).render_singleTokens]
    exact (h c hc).solid

theorem newline_not_mem (h : c.ReadsBack room) : '\n' ∉ c.text := by
  rw [← h.render_tokens]
  cases h with
  | member h => rw [h.tokens_eq, h.render_singleTokens]; exact h.newline_not_mem
  | others => decide
  | alternatives _ h =>
    refine newline_not_mem_barJoin fun p hp => ?_
    obtain ⟨c, hc, rfl⟩ := List.mem_map.1 hp
    rw [(h c hc).render_singleTokens]
    exact (h c hc).newline_not_mem

/-- A choice without bars is not cut. -/
theorem splitOuter_single (h : c.ReadsBack room) (hl : Lacks ['|'] c.tokens) :
    splitOuter '|' c.text = [c.text] := by
  have hphrase := h.isPhrase none none rfl rfl
  rw [← h.render_tokens]
  have hcut : splitOuter '|' (render (c.tokens ++ ([] : List (List Token)).flatMap (symbol ['|'] :: ·)))
      = render c.tokens :: ([] : List (List Token)).map render :=
    splitOuter_render (.inr (by decide)) (by decide) rfl (by decide) (by simpa using hphrase)
      (by simpa using hl)
  simpa using hcut

/-- **A choice is read from its text**, whatever padding stands around it. -/
theorem reads (h : c.ReadsBack room) : Text.Reads (Choice.read room) c.text c := by
  intro g g' hg hg'
  rw [Choice.read, ← List.append_assoc,
    trim_pad_trimmed hg.all_isBlank h.solid.toTrimmed hg'.all_isBlank]
  cases h with
  | member h =>
    have hlacks : Lacks ['|'] c.tokens := by
      rw [h.tokens_eq]
      exact h.lacks (by decide) (by decide)
    rw [splitOuter_single (.member h) hlacks]
    exact h.readSingle.self
  | others =>
    have hlacks : Lacks ['|'] Choice.others.tokens := by decide
    have hothers : Choice.others.ReadsBack room := .others
    rw [hothers.splitOuter_single hlacks]
    rfl
  | @alternatives choices hlen h =>
    have hrender := render_tokens (.alternatives hlen h)
    have hcut : List.Forall₂
        (fun part ts => ∃ g g', IsPad g ∧ IsPad g' ∧ part = g ++ (render ts ++ g'))
        (splitOuter '|' (Choice.alternatives choices).text) (choices.map singleTokens) := by
      rw [← hrender]
      refine splitOuter_barJoin (by simpa using ne_nil_of_le hlen)
        (by simpa using fun c hc => (h c hc).isPhrase) fun p hp => ?_
      obtain ⟨c, hc, rfl⟩ := List.mem_map.1 hp
      exact (h c hc).lacks (by decide) (by decide)
    rw [List.forall₂_map_right_iff] at hcut
    have hlength := hcut.length_eq
    have hread : (splitOuter '|' (Choice.alternatives choices).text).mapM
        (Choice.readAlternative room) = some choices := by
      refine mapM_of_forall₂ ?_
      clear hrender hlength hlen
      generalize splitOuter '|' (Choice.alternatives choices).text = parts at hcut
      induction hcut with
      | nil => exact .nil
      | @cons part c parts choices hp _ ih =>
        obtain ⟨g, g', hg, hg', rfl⟩ := hp
        refine .cons ?_ (ih fun c hc => h c (by simp [hc]))
        have hc := h c (by simp)
        rw [hc.render_singleTokens]
        exact hc.readAlternative g g' hg hg'
    generalize splitOuter '|' (Choice.alternatives choices).text = parts at hread hlength
    split
    · rw [List.length_singleton] at hlength
      omega
    · rw [hread, Option.map_some]

end ReadsBack

end Choice
end CanonicalVhdl
