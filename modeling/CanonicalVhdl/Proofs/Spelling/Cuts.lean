import CanonicalVhdl.Proofs.Search.Separator
import CanonicalVhdl.Proofs.Spelling.Items

/-!
# What the searches leave of a text

The searches cut a text at symbols and at reserved words, and drop blanks and comments.
Their parts have the items of the text, unless a mark is lost.

## Main definitions

* `Text.IsSilent p` — a pattern without items: a reserved word, or symbols.
* `Text.pieceItems` — the items of a piece of a region.

## Main statements

* `Text.items_of_cutOuter?`, `Text.items_splitOuter`, `Text.items_of_parenthesised?` — the parts
  between patterns and symbols have the items of the text.
* `Text.remains_withoutComments`, `Text.remains_splitTrailer`, `Text.remains_cutClause?`,
  `Text.remains_pieces?` — comments and clauses may lose a mark.
* `Text.Yields.of_beforeEnd?` — a closing clause may be left out in part.
-/

namespace CanonicalVhdl.Text

/-! ## Blanks -/

theorem isBreak_of_isBlank {c : Char} (h : isBlank c = true) : isBreak c = true := by
  have hident : isIdentChar c = false := by
    by_contra hc
    rw [Bool.not_eq_false] at hc
    rw [isBlank_eq_false_of_isIdentChar hc] at h
    cases h
  rw [isBreak, hident, Bool.not_false, Bool.true_and, bne_iff_ne]
  rintro rfl
  exact absurd h (by decide)

theorem parted_blank {g : Text} (hg : g.all isBlank = true) (a : Text) : Parted a g := by
  cases g with
  | nil => exact .of_nil_right a
  | cons c g =>
    rw [List.all_cons, Bool.and_eq_true] at hg
    exact .of_break (isBreak_of_isBlank hg.1) a g

theorem remains_blank_append {g : Text} (hg : g.all isBlank = true) (t : Text) :
    Remains (items (g ++ t)) (items t) := by
  rw [items_append (.inl (getLast?_any_isIdentChar_of_blank hg))]
  exact (Remains.drop (items_blank hg)).append (.refl _)

theorem remains_append_blank {g : Text} (hg : g.all isBlank = true) (t : Text) :
    Remains (items (t ++ g)) (items t) := by
  rw [items_append (parted_blank hg t)]
  simpa using (Remains.refl (items t)).append (Remains.drop (items_blank hg))

theorem remains_trimStart (t : Text) : Remains (items t) (items (trimStart t)) := by
  have h := remains_blank_append (g := t.takeWhile isBlank) List.all_takeWhile (trimStart t)
  rwa [trimStart, List.takeWhile_append_dropWhile] at h

theorem remains_trimEnd (t : Text) : Remains (items t) (items (trimEnd t)) := by
  obtain ⟨g, hg, hsplit⟩ := exists_pad_trimEnd t
  have h := remains_append_blank hg (trimEnd t)
  rwa [← hsplit] at h

theorem remains_trim (t : Text) : Remains (items t) (items (trim t)) :=
  (remains_trimStart t).trans (remains_trimEnd _)

theorem Yields.of_trim {t : Text} {es : List Entry} (h : Yields (trim t) es) : Yields t es :=
  h.of_remains (remains_trim t)

theorem Yields.of_trimEnd {t : Text} {es : List Entry} (h : Yields (trimEnd t) es) : Yields t es :=
  h.of_remains (remains_trimEnd t)

/-- ASCII blanks have no items. -/
theorem items_asciiBlank {g : Text} (hg : g.all isAsciiBlank = true) : items g = [] := by
  induction g with
  | nil => rfl
  | cons c g ih =>
    rw [List.all_cons, Bool.and_eq_true] at hg
    have hbreak := isBreak_of_isBlank (isAsciiBlank_isBlank hg.1)
    simp only [isBreak, Bool.and_eq_true, Bool.not_eq_true'] at hbreak
    have hmark : isMark c = false := by
      rw [isMark, hg.1, Bool.not_true, Bool.and_false, Bool.or_false, beq_eq_false_iff_ne]
      rintro rfl
      exact absurd hg.1 (by decide)
    rw [items_cons hbreak.1, ih hg.2, markItems, hmark]
    rfl

theorem items_asciiBlank_append {g : Text} (hg : g.all isAsciiBlank = true) (t : Text) :
    items (g ++ t) = items t := by
  rw [items_append (.inl (getLast?_any_isIdentChar_of_blank (all_isBlank_of_ascii hg))),
    items_asciiBlank hg, List.nil_append]

theorem items_dropWhile_asciiBlank (t : Text) : items (t.dropWhile isAsciiBlank) = items t := by
  conv_rhs => rw [← List.takeWhile_append_dropWhile (p := isAsciiBlank) (l := t)]
  exact (items_asciiBlank_append List.all_takeWhile _).symm

/-! ## Words -/

theorem isTracked_of_sameWord {w x : Text} (h : sameWord w x = true) : isTracked x = isTracked w := by
  rw [← isTracked_fold x, ← sameWord_iff.1 h, isTracked_fold]

theorem all_isIdentChar_of_sameWord {w x : Text} (hw : w.all isIdentChar = true)
    (h : sameWord w x = true) : x.all isIdentChar = true := by
  rw [← all_isIdentChar_fold, ← sameWord_iff.1 h, all_isIdentChar_fold, hw]

theorem fixed_word {w : Text} (hw : w.all isIdentChar = true) :
    fixed w = if isTracked w then [.fixed w] else [] := by
  have hnone : (none != some '"') = true := rfl
  rw [fixed, items_word hw, closeRun, hnone, Bool.and_true]
  split <;> rfl

/-- The items of a word in any case, whatever follows it. -/
theorem bears_closeRun {w x : Text} (hw : w.all isIdentChar = true) (h : sameWord w x = true)
    (next : Option Char) : Bears (closeRun x next) (fixed w) := by
  rw [fixed_word hw, closeRun, isTracked_of_sameWord h]
  cases isTracked w with
  | false => exact .nil
  | true =>
    rw [Bool.true_and, if_pos rfl]
    split
    · exact ⟨by simp, fun _ _ => .fixed (by rwa [sameWord_comm]) .nil⟩
    · exact .added [w]

/-- A word in any case. -/
theorem yields_word {w t : Text} (hw : w.all isIdentChar = true) (h : sameWord w t = true) :
    Yields t (fixed w) := by
  rw [Yields, items_word (all_isIdentChar_of_sameWord hw h)]
  exact bears_closeRun hw h none

/-- A symbol that is no mark. -/
def isSymbol (c : Char) : Bool :=
  isBreak c && !isMark c && !c.isAlpha

/-- A reserved word without items, or symbols that are no marks. -/
structure IsSilent (p : Text) : Prop where
  /-- There is a character. -/
  ne_nil : p ≠ []
  /-- The text is a word that does not count, or it is made of symbols. -/
  silent : p.head?.any Char.isAlpha = true ∧ p.all isIdentChar = true ∧ isTracked p = false ∨
    p.all isSymbol = true

instance (p : Text) : Decidable (IsSilent p) :=
  decidable_of_iff (p ≠ [] ∧ (p.head?.any Char.isAlpha = true ∧ p.all isIdentChar = true ∧
      isTracked p = false ∨ p.all isSymbol = true))
    ⟨fun h => ⟨h.1, h.2⟩, fun h => ⟨h.1, h.2⟩⟩

/-- The reserved words of the grammar that do not count. -/
def silentWords : List String :=
  ["all", "and", "array", "begin", "buffer", "case", "component", "constant", "downto", "else",
    "elsif", "end", "for", "function", "generate", "generic", "if", "in", "inout", "is", "linkage",
    "loop", "map", "mod", "nand", "nor", "not", "null", "of", "open", "or", "others", "out", "port",
    "process", "range", "record", "rem", "return", "signal", "then", "to", "type", "variable",
    "when", "xnor", "xor"]

/-- A reserved word that does not count. -/
structure IsSilentWord (w : Text) : Prop where
  /-- The word is reserved. -/
  reserved : isReserved w = true
  /-- The word does not count. -/
  untracked : isTracked w = false

theorem isReserved_of_mem_trackedWords {w : Text} (h : w ∈ trackedWords) : isReserved w = true := by
  revert w
  decide +kernel

namespace IsSilentWord

variable {w : Text}

-- The list is gone through at once, so that the reserved words are spelled out only once.
theorem of_mem {s : String} (h : s ∈ silentWords) : IsSilentWord s.toList := by
  have key : ∀ s ∈ silentWords, isReserved s.toList = true ∧ isTracked s.toList = false := by
    decide +kernel
  exact ⟨(key s h).1, (key s h).2⟩

/-- Of the words that start with a letter, those that do not count are reserved. -/
theorem of_head (hhead : w.head?.any Char.isAlpha = true) (h : isTracked w = false) :
    IsSilentWord w := by
  refine ⟨?_, h⟩
  rw [isTracked, hhead, Bool.true_and, Bool.or_eq_false_iff] at h
  simpa using h.1

theorem head (h : IsSilentWord w) : w.head?.any Char.isAlpha = true :=
  (Token.isName_of_isReserved h.reserved).head

theorem ident (h : IsSilentWord w) : w.all isIdentChar = true :=
  (Token.isName_of_isReserved h.reserved).ident

theorem ne_nil (h : IsSilentWord w) : w ≠ [] :=
  (isRun_of_isReserved h.reserved).ne_nil

theorem isSilent (h : IsSilentWord w) : IsSilent w :=
  ⟨h.ne_nil, .inl ⟨h.head, h.ident, h.untracked⟩⟩

theorem fixed_eq_nil (h : IsSilentWord w) : fixed w = [] := by
  rw [fixed_word h.ident, h.untracked]
  rfl

end IsSilentWord

/-- A word that does not count, between two texts. -/
theorem items_between_word {w a x b : Text} (hw : IsSilentWord w) (h : sameWord w x = true)
    (ha : a.getLast?.any isIdentChar = false) (hb : b.head?.any isIdentChar = false) :
    items (a ++ (x ++ b)) = items a ++ items b := by
  rw [items_between_run (all_isIdentChar_of_sameWord hw.ident h) ha hb, closeRun,
    isTracked_of_sameWord h, hw.untracked]
  rfl

theorem IsSilentWord.items_eq_nil {w : Text} (h : IsSilentWord w) : items w = [] := by
  simpa using items_between_word (a := []) (b := []) h (sameWord_self w) rfl rfl

/-- Symbols that are no marks, between two texts. -/
theorem items_between_symbols {a m b : Text} (hne : m ≠ [])
    (hm : m.all isSymbol = true) :
    items (a ++ (m ++ b)) = items a ++ items b := by
  have hbreak : m.all isBreak = true := by
    rw [List.all_eq_true] at hm ⊢
    intro c hc
    have := hm c hc
    simp only [isSymbol, Bool.and_eq_true] at this
    exact this.1.1
  have hnil : items m = [] := by
    clear hne hbreak
    induction m with
    | nil => rfl
    | cons c m ih =>
      rw [List.all_cons, Bool.and_eq_true] at hm
      have hc := hm.1
      simp only [isSymbol, isBreak, Bool.and_eq_true, Bool.not_eq_true'] at hc
      rw [items_cons hc.1.1.1, markItems, hc.1.2, ih hm.2]
      rfl
  rw [items_between hbreak hne, hnil, List.nil_append]

/-- A word without its blanks, and what follows it. -/
theorem Yields.of_afterWord? {w t r : Text} {es : List Entry} (hw : w.all isIdentChar = true)
    (hr : afterWord? w t = some r) (h : Yields r es) : Yields t (fixed w ++ es) := by
  obtain ⟨g, x, g', hg, hx, hg', -, hnext, rfl⟩ := exists_of_afterWord? hr
  refine Bears.of_remains ?_ (remains_blank_append hg _)
  rw [items_run (all_isIdentChar_of_sameWord hw hx) hnext]
  exact (bears_closeRun hw hx _).append (h.of_remains (remains_blank_append hg' r))

theorem remains_afterWord? {w t r : Text} (hw : IsSilentWord w) (hr : afterWord? w t = some r) :
    Remains (items t) (items r) := by
  obtain ⟨g, x, g', hg, hx, hg', -, hnext, rfl⟩ := exists_of_afterWord? hr
  refine (remains_blank_append hg _).trans ?_
  rw [← List.nil_append (x ++ (g' ++ r)), items_between_word hw hx rfl hnext]
  exact remains_blank_append hg' r

/-! ## Marks and words outside -/

/-- What stands around a place where a word is found. -/
theorem apart_of_mem_outerMatches {w t : Text} {i : Nat} (hw : w.head?.any Char.isAlpha = true)
    (h : i ∈ outerMatches w t) :
    ∃ s x u, t = s ++ (x ++ u) ∧ i = s.length ∧ sameWord w x = true
      ∧ s.getLast?.any isIdentChar = false ∧ u.head?.any isIdentChar = false := by
  obtain ⟨q, hq, rfl⟩ := List.mem_map.1 h
  obtain ⟨hq, hmatch⟩ := List.mem_filter.1 hq
  obtain ⟨s, hs, hposition, hbefore, -⟩ := mem_codePoints (mem_outerPoints hq)
  obtain ⟨first, w, rfl⟩ : ∃ first v, w = first :: v := by
    cases w with
    | nil => cases hw
    | cons first v => exact ⟨first, v, rfl⟩
  rw [List.head?_cons, Option.any_some] at hw
  rw [matchesAt, if_pos hw] at hmatch
  obtain ⟨u, hu⟩ := Option.isSome_iff_exists.1 hmatch
  obtain ⟨-, hlast, x, hx, hword, hnext⟩ := wholeWord?_eq_some_iff.1 hu
  rw [hbefore, lastOr, Option.or_none] at hlast
  exact ⟨s, x, u, by rw [hs, hx], hposition, hword, hlast, hnext⟩

/-- What stands around a place where a pattern is found. -/
theorem items_of_mem_outerMatches {p t : Text} {i : Nat} (hp : IsSilent p) (h : i ∈ outerMatches p t) :
    items t = items (t.take i) ++ items (t.drop (i + p.length)) := by
  obtain ⟨halpha, -, htracked⟩ | hsymbols := hp.silent
  · obtain ⟨s, x, u, rfl, rfl, hword, hlast, hnext⟩ := apart_of_mem_outerMatches halpha h
    rw [length_eq_of_sameWord hword, ← List.length_append, List.take_left, ← List.append_assoc,
      List.drop_left, List.append_assoc,
      items_between_word (.of_head halpha htracked) hword hlast hnext]
  · obtain ⟨q, hq, rfl⟩ := List.mem_map.1 h
    obtain ⟨hq, hmatch⟩ := List.mem_filter.1 hq
    obtain ⟨s, hs, hposition, -⟩ := mem_codePoints (mem_outerPoints hq)
    obtain ⟨first, p', rfl⟩ := List.exists_cons_of_ne_nil hp.ne_nil
    rw [List.all_cons, Bool.and_eq_true] at hsymbols
    have halpha : first.isAlpha = false := by
      have hfirst := hsymbols.1
      simp only [isSymbol, Bool.and_eq_true, Bool.not_eq_true'] at hfirst
      exact hfirst.2
    rw [matchesAt, halpha, if_neg Bool.false_ne_true] at hmatch
    obtain ⟨u, hu⟩ := List.isPrefixOf_iff_prefix.1 hmatch
    rw [hs, ← hu, hposition, ← List.length_append, List.take_left, ← List.append_assoc,
      List.drop_left, List.append_assoc,
      items_between_symbols (List.cons_ne_nil _ _) (by rw [List.all_cons, hsymbols.1, hsymbols.2]; rfl)]

theorem items_of_cutOuter? {p t a b : Text} (hp : IsSilent p) (h : cutOuter? p t = some (a, b)) :
    items t = items a ++ items b := by
  obtain ⟨i, hi, h⟩ := Option.map_eq_some_iff.1 h
  obtain ⟨rfl, rfl⟩ := Prod.mk.inj h
  exact items_of_mem_outerMatches hp (mem_of_outerMatch? hi)

theorem items_symbol {c : Char} (hc : isSymbol c = true) (a b : Text) :
    items (a ++ c :: b) = items a ++ items b :=
  items_between_symbols (m := [c]) (List.cons_ne_nil _ _) (by rw [List.all_cons, hc]; rfl)

theorem items_of_splitOnce {c : Char} {t a b : Text} (hc : isSymbol c = true)
    (h : splitOnce c t = some (a, b)) : items t = items a ++ items b := by
  obtain ⟨rfl, -⟩ := eq_of_splitOnce h
  exact items_symbol hc a b

theorem items_of_dropFinal? {c : Char} {t r : Text} (hc : isSymbol c = true)
    (h : dropFinal? c t = some r) : items t = items r := by
  rw [eq_of_dropFinal? h, items_symbol hc, items_nil, List.append_nil]

theorem items_of_parenthesised? {t inner after : Text} (h : parenthesised? t = some (inner, after)) :
    items t = items inner ++ items after := by
  rw [(eq_of_parenthesised? h).1, ← List.nil_append ('(' :: _), items_symbol (by decide),
    items_symbol (by decide)]
  rfl

/-- Parentheses that follow a name. -/
theorem items_of_group {t inner after : Text}
    (h : parenthesised? (t.drop (t.takeWhile (· != '(')).length) = some (inner, after)) :
    items t = items (t.takeWhile (· != '(')) ++ (items inner ++ items after) := by
  have hgroup := items_of_parenthesised? h
  rw [drop_length_takeWhile] at h hgroup
  rw [← hgroup]
  conv_lhs => rw [← List.takeWhile_append_dropWhile (p := (· != '(')) (l := t)]
  rw [(eq_of_parenthesised? h).1]
  exact items_append (.of_break (by decide) _ _)

theorem items_join {separator : Text} (hne : separator ≠ []) (h : separator.all isSymbol = true) :
    ∀ parts : List Text, items (join separator parts) = parts.flatMap items
  | [] => rfl
  | [p] => by simp [join]
  | p :: q :: ps => by
    rw [join, List.intercalate_cons_cons, List.append_assoc, items_between_symbols hne h, ← join,
      items_join hne h (q :: ps), ← List.flatMap_cons]

/-- Parts with one symbol between them. -/
theorem items_join_symbol {c : Char} (hc : isSymbol c = true) (parts : List Text) :
    items (join [c] parts) = parts.flatMap items :=
  items_join (List.cons_ne_nil _ _) (by rw [List.all_cons, hc]; rfl) parts

theorem items_splitOuter {c : Char} (hc : isSymbol c = true) (t : Text) :
    items t = (splitOuter c t).flatMap items := by
  rw [← items_join_symbol hc, join_splitOuter]

theorem items_splitOn {c : Char} (hc : isSymbol c = true) (t : Text) :
    items t = (splitOn c t).flatMap items := by
  rw [← items_join_symbol hc, (join_splitOn c t).1]

/-- The parts of a list, each with its entries. -/
theorem Yields.of_mapM {α : Type} {read : Text → Option α} {entries : α → List Entry} {t : Text}
    {parts : List Text} {xs : List α} (ht : Remains (items t) (parts.flatMap items))
    (hxs : parts.mapM read = some xs) (hread : ∀ u x, read u = some x → Yields u (entries x)) :
    Yields t (xs.flatMap entries) :=
  (Bears.flatMap ((mapM_eq_some_iff.1 hxs).imp fun u x h => hread u x h)).of_remains ht

/-- The position of a whole word, and what stands around it. -/
theorem apart_of_wordAfter? {w u : Text} :
    ∀ {position i : Nat} {before : Option Char}, wordAfter? true w position before u = some i →
      ∃ a x b, u = a ++ (x ++ b) ∧ i = position + a.length ∧ sameWord w x = true
        ∧ (lastOr before a).any isIdentChar = false ∧ b.head?.any isIdentChar = false := by
  induction u with
  | nil => exact fun h => nomatch h
  | cons c u ih =>
    intro position i before h
    rw [wordAfter?] at h
    split at h
    · next hword =>
      obtain ⟨b, hb⟩ := Option.isSome_iff_exists.1 hword
      obtain ⟨-, hbefore, x, hx, hsame, hnext⟩ := wholeWord?_eq_some_iff.1 hb
      exact ⟨[], x, b, hx, (Option.some.inj h).symm, hsame, hbefore, hnext⟩
    · obtain ⟨a, x, b, rfl, rfl, hsame, hbefore, hnext⟩ := ih h
      exact ⟨c :: a, x, b, rfl, by rw [List.length_cons]; omega, hsame, by rwa [lastOr_cons], hnext⟩

theorem items_of_splitAtWord? {w t a b : Text} (hw : IsSilentWord w)
    (h : splitAtWord? w t = some (a, b)) : items t = items a ++ items b := by
  obtain ⟨i, hi, h⟩ := Option.map_eq_some_iff.1 h
  obtain ⟨rfl, rfl⟩ := Prod.mk.inj h
  obtain ⟨a, x, b, ht, rfl, hsame, hlast, hnext⟩ := apart_of_wordAfter? hi
  rw [List.drop_zero] at ht
  rw [List.take_zero, List.getLast?_nil, lastOr, Option.or_none] at hlast
  rw [ht, Nat.zero_add, length_eq_of_sameWord hsame, ← List.length_append, List.take_left,
    ← List.append_assoc, List.drop_left, List.append_assoc,
    items_between_word hw hsame hlast hnext]

/-! ## Comments -/

theorem mark_mem_items {t : Text} (h : t.any isMark = true) : .mark ∈ items t := by
  rw [← List.count_pos_iff, count_mark_items, List.countP_pos_iff]
  exact List.any_eq_true.1 h

theorem countP_isMark_blanked (x : Text) : (blanked x).countP isMark = 0 := by
  rw [List.countP_eq_zero]
  intro c hc
  simp only [blanked, List.mem_replicate] at hc
  rw [hc.2]
  decide

/-- One text is the other with its comments blanked out. -/
inductive Hides : Text → Text → Prop
  /-- Nothing is left. -/
  | nil : Hides [] []
  /-- A character that is shown. -/
  | keep (c : Char) {u v : Text} (h : Hides u v) : Hides (c :: u) (c :: v)
  /-- A comment. -/
  | hide {y u v : Text} (hy : '\n' ∉ y) (hu : AtLineEnd u) (h : Hides u v) :
      Hides ('-' :: '-' :: (y ++ u)) (blanked ('-' :: '-' :: y) ++ v)

theorem Hides.append {u v : Text} (h : Hides u v) (x : Text) : Hides (x ++ u) (x ++ v) := by
  induction x with
  | nil => exact h
  | cons c x ih => exact .keep c ih

theorem Lexes.hides {before : Option Char} {ps : List Segment} (h : Lexes before ps) :
    Hides (source ps) (masked ps) := by
  induction h with
  | nil => exact .nil
  | code _ _ ih => exact ih.append _
  | literal _ _ ih => exact ih.append _
  | comment hat _ ih =>
    obtain ⟨y, rfl, rfl, hy, hr⟩ := eq_of_at_comment hat
    rw [masked_comment]
    exact .hide hy hr ih

theorem hides_maskComments (t : Text) : Hides t (maskComments t) := by
  obtain ⟨ps, h, rfl⟩ := exists_lexes t.length t none (Nat.le_refl _)
  rw [maskComments_source h]
  exact h.hides

theorem Hides.remains {u v : Text} (h : Hides u v) : Remains (items u) (items v) := by
  suffices hcases : v = u ∨ v.countP isMark < u.countP isMark by
    obtain h | h := hcases
    · rw [h]
      exact .refl _
    · exact .inr (by rwa [count_mark_items, count_mark_items])
  induction h with
  | nil => exact .inl rfl
  | keep c _ ih =>
    rw [List.countP_cons, List.countP_cons]
    exact ih.imp (congrArg _) fun h => Nat.add_lt_add_right h _
  | @hide y u v _ _ _ ih =>
    refine .inr ?_
    rw [List.countP_append, countP_isMark_blanked, List.countP_cons_of_pos (p := isMark) (a := '-') rfl,
      List.countP_cons_of_pos (p := isMark) (a := '-') rfl, List.countP_append]
    obtain h | h := ih
    · rw [h]
      omega
    · omega

theorem remains_lineCode (l : Text) : Remains (items l) (items (lineCode l)) := by
  obtain ⟨g, w, hsplit, hg, hw⟩ := exists_lineCode l
  obtain rfl | ⟨v, rfl⟩ := hw
  · rw [List.append_nil] at hsplit
    conv_lhs => rw [hsplit]
    exact remains_append_blank hg _
  · refine .inr ?_
    conv_rhs => rw [hsplit]
    rw [count_mark_items, count_mark_items, List.countP_append, List.countP_append,
      List.countP_cons_of_pos (p := isMark) (a := '-') rfl]
    omega

theorem Remains.flatMap {α : Type} {f g : α → List Item} (h : ∀ a, Remains (f a) (g a))
    (as : List α) : Remains (as.flatMap f) (as.flatMap g) := by
  induction as with
  | nil => exact .refl _
  | cons a as ih =>
    rw [List.flatMap_cons, List.flatMap_cons]
    exact (h a).append ih

/-- Texts without items do not matter in a list. -/
theorem flatMap_items_filter (parts : List Text) :
    (parts.filter (!·.isEmpty)).flatMap items = parts.flatMap items := by
  induction parts with
  | nil => rfl
  | cons p ps ih =>
    cases p with
    | nil => simpa using ih
    | cons c p => simp [ih]

theorem remains_stripComments (t : Text) : Remains (items t) (items (stripComments t)) := by
  rw [stripComments_eq, items_join_symbol (by decide), flatMap_items_filter, List.flatMap_map,
    items_splitOn (c := '\n') (by decide) t]
  exact Remains.flatMap remains_lineCode _

theorem remains_withoutComments (t : Text) : Remains (items t) (items (withoutComments t)) := by
  rw [withoutComments]
  split
  · exact remains_stripComments t
  · exact .refl _

/-- A comment without the blanks at its end. -/
theorem remains_comment (u : Text) :
    Remains (items ('-' :: '-' :: u)) (items ('-' :: '-' :: trimEnd u)) := by
  obtain ⟨g, hg, hsplit⟩ := exists_pad_trimEnd u
  conv_lhs => rw [hsplit]
  exact remains_append_blank hg ('-' :: '-' :: trimEnd u)

/-- The items of an optional comment. -/
def commentItems (comment : Option Comment) : List Item :=
  comment.elim [] fun c => items c.line

theorem remains_ofText? (u : Text) :
    Remains (items ('-' :: '-' :: u)) (commentItems (Comment.ofText? u)) := by
  rw [Comment.ofText?]
  split
  · exact .drop (.inr (mark_mem_items rfl))
  · exact remains_comment u

theorem remains_splitTrailing (l : Text) :
    Remains (items l) (items (splitTrailing l).1
      ++ commentItems ((splitTrailing l).2.bind Comment.ofText?)) := by
  rw [splitTrailing]
  split
  · next i hi =>
    obtain ⟨s, u, rfl, hlen⟩ := eq_of_commentFrom? hi
    rw [Nat.zero_add] at hlen
    have hdrop : (s ++ '-' :: '-' :: u).drop (i + 2) = u := by
      rw [hlen, ← List.drop_drop, List.drop_left]
      rfl
    rw [hdrop, hlen, List.take_left, items_append (.of_break (by decide) s _)]
    exact (remains_trimEnd s).append ((remains_comment u).trans (remains_ofText? _))
  · simpa [commentItems] using remains_trimEnd l

/-- A declaration and the comment on its last line. -/
theorem remains_splitTrailer (t : Text) :
    Remains (items t) (items (Comment.splitTrailer t).1 ++ commentItems (Comment.splitTrailer t).2) := by
  refine (remains_trim t).trans ?_
  obtain h | ⟨init, last, h⟩ := List.eq_nil_or_concat' (splitOn '\n' (trim t))
  · exact absurd h (splitOn_ne_nil '\n' (trim t))
  have hitems : items (trim t) = items (join ['\n'] init) ++ items last := by
    rw [items_splitOn (c := '\n') (by decide), h, items_join_symbol (by decide), List.flatMap_append,
      List.flatMap_singleton]
  simp only [Comment.splitTrailer, Comment.splitLast, h, List.dropLast_concat, List.getLast?_concat,
    Option.getD_some]
  have hlast : Remains (items last) (items (trim (splitTrailing last).1)
      ++ commentItems ((splitTrailing last).2.bind Comment.ofText?)) :=
    (remains_splitTrailing last).trans ((remains_trim _).append (.refl _))
  have hhead := remains_stripComments (join ['\n'] init)
  rw [hitems]
  split
  · next hnil =>
    rw [List.isEmpty_iff.1 hnil] at hhead
    simpa using hhead.append hlast
  · rw [items_symbol (by decide), List.append_assoc]
    exact hhead.append hlast

/-! ## Clauses -/

/-- What blanks and comments leave of a text: all of it, or a part behind a blank. -/
theorem exists_triviaEnd {u : Text} :
    ∀ (inComment : Bool) (passed : Nat) (before : Option Char),
      ∃ g, u = g ++ (triviaEnd inComment passed before u).rest
        ∧ (triviaEnd inComment passed before u).passed = passed + g.length
        ∧ (inComment = false → g.all isAsciiBlank = true ∨ g.any isMark = true)
        ∧ ((triviaEnd inComment passed before u).rest = [] ∨
          (triviaEnd inComment passed before u).rest.head?.any isAsciiBlank = false
            ∧ (inComment = true ∨ g ≠ [] → g.getLast?.any isIdentChar = false ∧ g ≠ [])) := by
  induction u with
  | nil => exact fun _ _ _ => ⟨[], rfl, rfl, fun _ => .inl rfl, .inl rfl⟩
  | cons c u ih =>
    intro inComment passed before
    have later : ∀ (b : Bool), (inComment = false → isAsciiBlank c = true ∧ b = false ∨ c = '-') →
        (b = false → isIdentChar c = false) →
        ∃ g, c :: u = g ++ (triviaEnd b (passed + 1) (some c) u).rest
          ∧ (triviaEnd b (passed + 1) (some c) u).passed = passed + g.length
          ∧ (inComment = false → g.all isAsciiBlank = true ∨ g.any isMark = true)
          ∧ ((triviaEnd b (passed + 1) (some c) u).rest = [] ∨
            (triviaEnd b (passed + 1) (some c) u).rest.head?.any isAsciiBlank = false
              ∧ (inComment = true ∨ g ≠ [] → g.getLast?.any isIdentChar = false ∧ g ≠ [])) := by
      intro b hc hident
      obtain ⟨g, hg, hpassed, hkind, hend⟩ := ih b (passed + 1) (some c)
      refine ⟨c :: g, by rw [List.cons_append, ← hg], by rw [hpassed, List.length_cons]; omega, ?_, ?_⟩
      · intro h
        obtain ⟨hblank, rfl⟩ | rfl := hc h
        · exact (hkind rfl).imp (fun hg => by rw [List.all_cons, hblank, hg]; rfl)
            fun hg => by rw [List.any_cons, hg, Bool.or_true]
        · exact .inr rfl
      · refine hend.imp_right fun ⟨hhead, hlast⟩ => ⟨hhead, fun _ => ⟨?_, List.cons_ne_nil c g⟩⟩
        cases g with
        | cons d g => exact (hlast (.inr (List.cons_ne_nil d g))).1
        | nil =>
          cases b with
          | true => exact absurd rfl (hlast (.inl rfl)).2
          | false => simpa using hident rfl
    rw [triviaEnd]
    split
    · next hcomment =>
      refine later (c != '\n') (fun h => by simp [h] at hcomment) fun h => ?_
      obtain rfl : c = '\n' := by simpa using h
      rfl
    · next hcomment =>
      rw [Bool.not_eq_true] at hcomment
      split
      · next hblank =>
        refine later false (fun _ => .inl ⟨hblank, rfl⟩) fun _ => ?_
        by_contra h
        rw [Bool.not_eq_false] at h
        rw [isAsciiBlank_eq_false_of_isIdentChar h] at hblank
        cases hblank
      · next hblank =>
        split
        · next hhyphen =>
          obtain rfl : c = '-' := by simpa using (Bool.and_eq_true_iff.1 hhyphen).1
          exact later true (fun _ => .inr rfl) fun h => by cases h
        · exact ⟨[], rfl, rfl, fun _ => .inl rfl, .inr ⟨by simpa using hblank,
            fun h => by simp [hcomment] at h⟩⟩

/-- Where a clause starts, what precedes it does not run into it. -/
theorem apart_of_clauseFrom? {words : List Text} {t : Text} {i k fuel : Nat} :
    ∀ {p : Place}, p.rest = t.drop p.passed → (t.take p.passed).getLast?.any isIdentChar = false →
      clauseFrom? words fuel p = some (i, k) →
      (t.take i).getLast?.any isIdentChar = false ∧ (t.drop i).head?.any isAsciiBlank = false := by
  induction fuel with
  | zero => exact fun _ _ h => nomatch h
  | succ fuel ih =>
    intro p hp hlast h
    obtain ⟨g, hg, hpassed, -, hend⟩ :=
      exists_triviaEnd (u := p.rest) false p.passed p.before
    have hdrop : (skipTrivia p).rest = t.drop (skipTrivia p).passed := rest_triviaEnd hp
    have htake : t.take (skipTrivia p).passed = t.take p.passed ++ g := by
      rw [show (skipTrivia p).passed = p.passed + g.length from hpassed, List.take_add, ← hp, hg,
        List.take_left]
    simp only [clauseFrom?] at h
    split at h
    · cases h
    · next hne =>
      obtain hnil | ⟨hhead, hg'⟩ := hend
      · exact absurd (show (skipTrivia p).rest = [] from hnil) (by simpa using hne)
      have hq : (t.take (skipTrivia p).passed).getLast?.any isIdentChar = false := by
        rw [htake]
        cases g with
        | nil => rwa [List.append_nil]
        | cons c g =>
          rw [List.getLast?_append_of_ne_nil _ (List.cons_ne_nil c g)]
          exact (hg' (.inr (List.cons_ne_nil c g))).1
      split at h
      · obtain ⟨rfl, rfl⟩ := Prod.mk.inj (Option.some.inj h)
        exact ⟨hq, hdrop ▸ hhead⟩
      · obtain ⟨n, hn, h⟩ := Option.bind_eq_some_iff.1 h
        refine ih ?_ ?_ h
        · rw [advance, hdrop, List.drop_drop]
        · have hsemicolon := getLast?_take_of_extent? hn
          have hne' : (skipTrivia p).rest.take n ≠ [] := by
            intro hnil
            rw [hnil] at hsemicolon
            cases hsemicolon
          rw [advance, List.take_add, ← hdrop, List.getLast?_append_of_ne_nil _ hne', hsemicolon]
          rfl

theorem apart_of_clause? {words : List Text} {t : Text} {i k : Nat} (h : clause? words t = some (i, k)) :
    (t.take i).getLast?.any isIdentChar = false ∧ (t.drop i).head?.any isAsciiBlank = false :=
  apart_of_clauseFrom? (p := ⟨0, none, t⟩) rfl rfl h

/-- A text that starts with a word, without as many bytes as the word has. -/
theorem remains_dropBytes {w t : Text} (hw : IsSilentWord w)
    (hstart : startsWith w t = true) (hhead : t.head?.any isAsciiBlank = false) :
    Remains (items t) (items (dropBytes (byteLength w) t)) := by
  obtain ⟨r, hr⟩ := Option.isSome_iff_exists.1 hstart
  obtain ⟨g, x, g', hg, hx, -, -, hnext, rfl⟩ := exists_of_afterWord? hr
  cases g with
  | nil =>
    rw [List.nil_append, ← byteLength_sameWord hx, dropBytes_append, ← List.nil_append (x ++ _),
      items_between_word hw hx rfl hnext]
    exact .refl _
  | cons c g =>
    -- a blank that is no ASCII blank is lost with the first byte
    rw [List.all_cons, Bool.and_eq_true] at hg
    have hmark : isMark c = true := by
      rw [List.cons_append, List.head?_cons, Option.any_some] at hhead
      rw [isMark, hg.1, hhead, Bool.not_false, Bool.and_true, Bool.or_true]
    have hbytes : byteLength w ≠ 0 := by
      obtain ⟨d, w', rfl⟩ := List.exists_cons_of_ne_nil hw.ne_nil
      have := d.utf8Size_pos
      rw [byteLength_cons]
      omega
    obtain ⟨n, hn⟩ := Nat.exists_eq_succ_of_ne_zero hbytes
    refine .inr ?_
    rw [hn, List.cons_append, dropBytes, count_mark_items, count_mark_items,
      List.countP_cons_of_pos hmark]
    exact Nat.lt_succ_of_le ((Branch.dropBytes_isSuffix _ _).sublist.countP_le)

/-- What precedes a clause, and the clause without its word. -/
theorem remains_clause {w t : Text} {words : List Text} {i k : Nat} (hw : IsSilentWord w)
    (h : clause? words t = some (i, k)) (hk : words[k]? = some w) :
    Remains (items t) (items (t.take i) ++ items (dropBytes (byteLength w) (t.drop i))) := by
  obtain ⟨hlast, hhead⟩ := apart_of_clause? h
  obtain ⟨v, hv, hstart⟩ := startsWith_of_clause? h
  obtain rfl := Option.some.inj (hk.symm.trans hv)
  conv_lhs => rw [← List.take_append_drop i t, items_append (.inl hlast)]
  exact (Remains.refl _).append (remains_dropBytes hw hstart hhead)

theorem remains_cutClause? {w t a b : Text} (hw : IsSilentWord w) (h : cutClause? w t = some (a, b)) :
    Remains (items t) (items a ++ items b) := by
  obtain ⟨⟨i, k⟩, hclause, h⟩ := Option.map_eq_some_iff.1 h
  obtain ⟨rfl, rfl⟩ := Prod.mk.inj h
  obtain ⟨v, hv, -⟩ := startsWith_of_clause? hclause
  obtain rfl : w = v := (List.mem_singleton.1 (List.mem_of_getElem? hv)).symm
  exact remains_clause hw hclause hv

/-! ## Pieces -/

theorem items_of_extent? {t : Text} {n : Nat} (h : extent? t = some n) :
    items t = items (t.take n) ++ items (t.drop n) := by
  conv_lhs => rw [← List.take_append_drop n t]
  refine items_append (.inl ?_)
  rw [getLast?_take_of_extent? h]
  rfl

/-- Past blanks and comments. -/
theorem remains_skipTrivia (p : Place) : Remains (items p.rest) (items (skipTrivia p).rest) := by
  obtain ⟨g, hg, -, hkind, hend⟩ :=
    exists_triviaEnd (u := p.rest) false p.passed p.before
  have hsplit : p.rest = g ++ (skipTrivia p).rest := hg
  have hparted : Parted g (skipTrivia p).rest := by
    obtain hnil | ⟨-, hlast⟩ := hend
    · rw [show (skipTrivia p).rest = [] from hnil]
      exact .of_nil_right g
    · cases g with
      | nil => exact .of_nil_left _
      | cons c g => exact .inl (hlast (.inr (List.cons_ne_nil c g))).1
  conv_lhs => rw [hsplit, items_append hparted]
  exact (Remains.drop ((hkind rfl).imp items_asciiBlank mark_mem_items)).append (.refl _)

/-- The items of a piece of a region. -/
def pieceItems : Piece → List Item
  | .code v trailer => items v ++ trailer.elim [] fun c => items ('-' :: '-' :: c)
  | .comment c => items ('-' :: '-' :: c)

theorem parted_atLineEnd {u : Text} (hu : AtLineEnd u) (a : Text) : Parted a u := by
  obtain rfl | ⟨v, rfl⟩ := hu.cases
  · exact .of_nil_right a
  · exact .of_break (by decide) a v

/-- The comment behind a statement, and what follows both. -/
theorem remains_behind (r : Text) :
    Remains (items r) (((behind r).1.elim [] fun c => items ('-' :: '-' :: c)) ++ items (behind r).2) := by
  rw [behind]
  cases h : trailer? r with
  | none => exact .refl _
  | some found =>
    obtain ⟨comment, after⟩ := found
    obtain ⟨g, x, rfl, hg, -, hafter, rfl⟩ := exists_of_trailer? h
    have hblank : g.all isBlank = true := List.all_eq_true.2 fun c hc => (hg c hc).2
    refine (remains_blank_append hblank _).trans ?_
    rw [← List.cons_append, ← List.cons_append, items_append (parted_atLineEnd hafter _)]
    exact (remains_comment x).append (.refl _)

theorem remains_of_cuts {ps : List Piece} {t : Text} (h : Piece.Cuts ps t) :
    Remains (items t) (ps.flatMap pieceItems) := by
  induction h with
  | nil ht =>
    rw [← items_dropWhile_asciiBlank, ht]
    exact .refl _
  | @comment t x r ps ht _ hr _ ih =>
    rw [← items_dropWhile_asciiBlank, ht, ← List.cons_append, ← List.cons_append,
      items_append (parted_atLineEnd hr _), List.flatMap_cons]
    exact (remains_comment x).append ih
  | @code t v r ps ht _ hend _ ih =>
    have hsplit := items_of_extent? hend
    rw [List.take_left, List.drop_left] at hsplit
    rw [← items_dropWhile_asciiBlank, ht, hsplit, List.flatMap_cons, pieceItems, List.append_assoc]
    exact (Remains.refl _).append ((remains_behind r).trans ((Remains.refl _).append ih))

theorem remains_pieces? {t : Text} {ps : List Piece} (h : pieces? t = some ps) :
    Remains (items t) (ps.flatMap pieceItems) :=
  remains_of_cuts (Piece.cuts_of_pieces? h)

/-- The pieces of a region, each with its entries. -/
theorem Yields.of_pieces? {α : Type} {read : Piece → Option α} {entries : α → List Entry} {t : Text}
    {ps : List Piece} {xs : List α} (hps : pieces? t = some ps) (hxs : ps.mapM read = some xs)
    (hread : ∀ p x, read p = some x → Bears (pieceItems p) (entries x)) :
    Yields t (xs.flatMap entries) :=
  (Bears.flatMap ((mapM_eq_some_iff.1 hxs).imp fun p x h => hread p x h)).of_remains
    (remains_pieces? hps)

/-! ## Closing clauses -/

theorem remains_beforeWord? {w t r : Text} (hw : IsSilentWord w) (h : beforeWord? w t = some r) :
    Remains (items t) (items r) := by
  obtain ⟨-, a, x, hsplit, hx, hlast, rfl⟩ := Bytewise.beforeWord?_eq_some_iff.1 h
  refine (remains_trimEnd t).trans ?_
  rw [hsplit, ← List.append_nil x, items_between_word (b := []) hw hx hlast rfl, items_nil,
    List.append_nil]
  exact remains_trimEnd a

/-- The closing clause of a construct without a name. -/
theorem remains_beforeEnd? {w t r : Text} (hw : IsSilentWord w)
    (h : beforeEnd? [w] true none t = some r) : Remains (items t) (items r) := by
  simp only [beforeEnd?, Option.bind_eq_bind] at h
  obtain ⟨u, hu, h⟩ := Option.bind_eq_some_iff.1 h
  rw [Option.bind_none, Option.getD_none] at h
  have hclosed : Remains (items t) (items (trimEnd u)) := by
    have := (remains_trimEnd t).trans (.inl (items_of_dropFinal? (by decide) hu).symm)
    exact this.trans (remains_trimEnd u)
  split at h
  · next v hv =>
    rw [beforeWords?_cons, show beforeWords? [] (trimEnd u) = some (trimEnd u) from rfl,
      Option.bind_some] at hv
    exact (hclosed.trans (remains_beforeWord? hw hv)).trans
      (remains_beforeWord? (.of_mem (by simp [silentWords])) h)
  · cases h

theorem head?_ident_of_blank {z : Text} (h : z.head?.any isBlank = true) :
    z.head?.any isIdentChar = false := by
  cases z with
  | nil => rfl
  | cons c z =>
    have hbreak := isBreak_of_isBlank (c := c) h
    simp only [isBreak, Bool.and_eq_true, Bool.not_eq_true'] at hbreak
    exact hbreak.1

/-- The words of a phrase, with blanks between them. -/
theorem bears_spellsRest {ws : List Text} (hws : ∀ w ∈ ws, w.all isIdentChar = true) :
    ∀ {x : Text}, SpellsRest true ws x → Bears (items x) (ws.flatMap fixed)
      ∧ (x = [] ∨ x.head?.any isBlank = true) := by
  induction ws with
  | nil =>
    intro x hx
    obtain rfl : x = [] := hx
    exact ⟨.nil, .inl rfl⟩
  | cons w ws ih =>
    intro x hx
    obtain ⟨-, g, y, z, rfl, hne, hg, hy, hz⟩ := hx
    obtain ⟨hrest, hhead⟩ := ih (fun v hv => hws v (List.mem_cons_of_mem w hv)) hz
    have hword := hws w List.mem_cons_self
    have hy' : sameWord w y = true := by simpa [Spells] using hy
    refine ⟨?_, .inr ?_⟩
    · refine Bears.of_remains ?_ (remains_blank_append hg _)
      have hz' : z.head?.any isIdentChar = false := by
        obtain rfl | hhead := hhead
        · rfl
        · exact head?_ident_of_blank hhead
      rw [items_run (all_isIdentChar_of_sameWord hword hy') hz', List.flatMap_cons]
      exact (bears_closeRun hword hy' _).append hrest
    · obtain ⟨c, g, rfl⟩ := List.exists_cons_of_ne_nil hne
      rw [List.all_cons, Bool.and_eq_true] at hg
      exact hg.1

theorem bears_spellsPhrase {ws : List Text} (hws : ∀ w ∈ ws, w.all isIdentChar = true) {x : Text}
    (h : SpellsPhrase true ws x) : Bears (items x) (ws.flatMap fixed) := by
  cases ws with
  | nil => exact h.elim
  | cons w ws =>
    obtain ⟨-, y, z, rfl, hy, hz⟩ := h
    obtain ⟨hrest, hhead⟩ := bears_spellsRest (fun v hv => hws v (List.mem_cons_of_mem w hv)) hz
    have hword := hws w List.mem_cons_self
    have hy' : sameWord w y = true := by simpa [Spells] using hy
    have hz' : z.head?.any isIdentChar = false := by
      obtain rfl | hhead := hhead
      · rfl
      · exact head?_ident_of_blank hhead
    rw [items_run (all_isIdentChar_of_sameWord hword hy') hz', List.flatMap_cons]
    exact (bears_closeRun hword hy' _).append hrest

/-- What stands before a sequence of words, and the items of these words. -/
theorem remains_beforeWords? {first : Text} {ws : List Text} (hws : ∀ w ∈ first :: ws, IsRun w)
    {t r : Text} (h : beforeWords? (first :: ws) t = some r) :
    ∃ ks, Remains (items t) (items r ++ ks) ∧ Bears ks ((first :: ws).flatMap fixed) := by
  obtain ⟨a, x, hsplit, hx, hlast, rfl⟩ := (beforeWords?_eq_some_iff hws).1 h
  refine ⟨items x, (remains_trimEnd t).trans ?_, bears_spellsPhrase (fun w hw => (hws w hw).ident) hx⟩
  rw [hsplit, items_append (.inl hlast)]
  exact (remains_trimEnd a).append (.refl _)

/-- A word that a text leaves out. -/
theorem bears_nil_fixed {w : Text} (hw : w.all isIdentChar = true) : Bears [] (fixed w) := by
  rw [fixed_word hw]
  split
  · exact .added [w]
  · exact .nil

theorem bears_nil_flatMap_fixed {ws : List Text} (hws : ∀ w ∈ ws, IsRun w) :
    Bears [] (ws.flatMap fixed) := by
  induction ws with
  | nil => exact .nil
  | cons w ws ih =>
    rw [List.flatMap_cons]
    exact (bears_nil_fixed (hws w List.mem_cons_self).ident).append
      (ih fun v hv => hws v (List.mem_cons_of_mem w hv))

/-- The closing clause of a construct, parts of which may be left out. -/
theorem Yields.of_beforeEnd? {keywords : List Text} {required : Bool} {name : Ident} {t r : Text}
    {es : List Entry} (hreserved : ∀ w ∈ keywords, isReserved w = true)
    (hend : ∀ w ∈ keywords, sameWord w "end".toList = false)
    (h : beforeEnd? keywords required (some name.text) t = some r) (hr : Yields r es) :
    Yields t (es ++ (keywords.flatMap fixed ++ fixed name.text)) := by
  obtain ⟨u, hu, words, hwords, hbefore⟩ := (beforeEnd?_eq_some_iff hreserved hend name).1 h
  have hclosed : Remains (items t) (items (trimEnd u)) :=
    ((remains_trimEnd t).trans (.inl (items_of_dropFinal? (by decide) hu).symm)).trans
      (remains_trimEnd u)
  have hruns : ∀ w ∈ keywords, IsRun w := fun w hw => isRun_of_isReserved (hreserved w hw)
  have hname : IsRun name.text := name.isRun
  have hword : IsSilentWord "end".toList := .of_mem (by simp [silentWords])
  obtain ⟨rest, rfl⟩ := hwords.exists_cons
  obtain ⟨ks, hks, hbears⟩ := remains_beforeWords? (hwords.isRun hruns hname) hbefore
  refine Bears.of_remains (hr.append ?_) (hclosed.trans hks)
  rw [List.flatMap_cons, hword.fixed_eq_nil, List.nil_append] at hbears
  cases hwords with
  | keywords =>
    rw [← List.append_nil ks]
    exact hbears.append (bears_nil_fixed hname.ident)
  | named =>
    rwa [List.flatMap_append, List.flatMap_singleton] at hbears
  | bare =>
    rw [← List.append_nil ks]
    exact hbears.append ((bears_nil_flatMap_fixed hruns).append (bears_nil_fixed hname.ident))
  | bareNamed =>
    rw [List.flatMap_singleton] at hbears
    exact (bears_nil_flatMap_fixed hruns).append hbears

end CanonicalVhdl.Text
