import CanonicalVhdl.Proofs.Comment.Free
import CanonicalVhdl.Proofs.Case.Scan

/-!
# Parts of a text without comments

Every part that a search cuts out of a text without comments is itself without comments, or
starts with a tick right after a word.  A search stops at a code point, and what it leaves
behind is plain code.

## Main statements

* `CommentFree.of_cutOuter?`, `CommentFree.of_parenthesised?`, `CommentFree.of_mem_splitOuter` —
  parts found outside parentheses.
* `CommentFree.of_afterWord?`, `isPrefix_of_beforeEnd?` — what words leave at the ends.
* `CommentFree.of_extent?`, `CommentFree.of_clause?` — what follows statements and clauses.
* `CommentFree.of_pieces?` — the pieces of a region are statements without comments.
-/

namespace CanonicalVhdl.Text

/-! ## Blanks and words at the start -/

theorem isPlain_toLower (c : Char) : isPlain c.toLower = isPlain c :=
  test_toLower isPlain (by decide) c

/-- A word is plain code in either case. -/
theorem all_isPlain_of_sameWord {w x : Text} (hw : w.all isPlain = true)
    (h : sameWord w x = true) : x.all isPlain = true := by
  rw [sameWord_iff] at h
  rw [← all_fold isPlain_toLower, ← h, all_fold isPlain_toLower, hw]

theorem bindsTick_lastOr_blank {g : Text} (hg : g.all isBlank = true) :
    Lexeme.bindsTick (lastOr none g) = false := by
  rw [lastOr, Option.or_none]
  cases h : g.getLast? with
  | none => rfl
  | some c =>
    have hc : isBlank c = true := List.all_eq_true.1 hg c (List.mem_of_getLast? h)
    rw [Lexeme.bindsTick, Option.any_some, Bool.or_eq_false_iff, beq_eq_false_iff_ne]
    constructor
    · cases hident : isIdentChar c with
      | false => rfl
      | true =>
        rw [isBlank_eq_false_of_isIdentChar hident] at hc
        cases hc
    · rintro rfl
      cases hc

/-- Blanks in front of a text without comments may be left out. -/
theorem CommentFree.of_blank {g t : Text} (hg : g.all isBlank = true)
    (h : CommentFree none (g ++ t)) : CommentFree none t :=
  (h.of_plain (all_isPlain_of_blank hg)).of_unbound (bindsTick_lastOr_blank hg)

theorem CommentFree.trimStart {t : Text} (h : CommentFree none t) :
    CommentFree none (trimStart t) := by
  refine CommentFree.of_blank (g := t.takeWhile isBlank) List.all_takeWhile ?_
  rwa [Text.trimStart, List.takeWhile_append_dropWhile]

theorem isPrefix_trimEnd (t : Text) : trimEnd t <+: t := by
  rw [trimEnd, ← List.reverse_suffix, List.reverse_reverse]
  exact List.dropWhile_suffix _

theorem CommentFree.trimEnd {before : Option Char} {t : Text} (h : CommentFree before t) :
    CommentFree before (trimEnd t) :=
  h.of_isPrefix (isPrefix_trimEnd t)

theorem CommentFree.trim {t : Text} (h : CommentFree none t) : CommentFree none (trim t) :=
  h.trimStart.trimEnd

theorem isAsciiBlank_isBlank {c : Char} (h : isAsciiBlank c = true) : isBlank c = true := by
  simp only [isAsciiBlank, Bool.or_eq_true, beq_iff_eq] at h
  rcases h with (((rfl | rfl) | rfl) | rfl) | rfl <;> rfl

theorem all_isBlank_of_ascii {g : Text} (h : g.all isAsciiBlank = true) : g.all isBlank = true := by
  rw [List.all_eq_true] at h ⊢
  exact fun c hc => isAsciiBlank_isBlank (h c hc)

theorem CommentFree.dropWhile_asciiBlank {t : Text} (h : CommentFree none t) :
    CommentFree none (t.dropWhile isAsciiBlank) := by
  refine CommentFree.of_blank (g := t.takeWhile isAsciiBlank)
    (all_isBlank_of_ascii List.all_takeWhile) ?_
  rwa [List.takeWhile_append_dropWhile]

/-- The word at the head of a text, the blanks around it, and the rest. -/
theorem exists_of_afterWord? {w t r : Text} (h : afterWord? w t = some r) :
    ∃ g x g', g.all isBlank = true ∧ sameWord w x = true ∧ g'.all isBlank = true
      ∧ r.head?.any isBlank = false ∧ (g' ++ r).head?.any isIdentChar = false
      ∧ t = g ++ (x ++ (g' ++ r)) := by
  rw [afterWord?, Option.map_eq_some_iff] at h
  obtain ⟨after, hafter, rfl⟩ := h
  simp only [wholeWord?, dropWordWith, if_true] at hafter
  split at hafter
  · cases hafter
  · obtain ⟨u, hu, hcut⟩ := Option.bind_eq_some_iff.1 hafter
    obtain ⟨x, hx, hword⟩ := dropWord?_eq_some_iff.1 hu
    split at hcut
    · cases hcut
    · next hhead =>
      obtain rfl := Option.some.inj hcut
      refine ⟨t.takeWhile isBlank, x, u.takeWhile isBlank, List.all_takeWhile, hword,
        List.all_takeWhile, ?_, ?_, ?_⟩
      · exact any_head?_dropWhile isBlank u
      · rwa [Text.trimStart, List.takeWhile_append_dropWhile, ← Bool.not_eq_true]
      · rw [Text.trimStart, List.takeWhile_append_dropWhile, ← hx, Text.trimStart,
          List.takeWhile_append_dropWhile]

/-- What `afterWord?` leaves out: blanks, the word, and blanks. -/
theorem eq_of_afterWord? {w t r : Text} (h : afterWord? w t = some r) :
    ∃ g x g', g.all isBlank = true ∧ sameWord w x = true ∧ g'.all isBlank = true
      ∧ r.head?.any isBlank = false ∧ t = g ++ (x ++ (g' ++ r)) := by
  obtain ⟨g, x, g', hg, hx, hg', hr, -, ht⟩ := exists_of_afterWord? h
  exact ⟨g, x, g', hg, hx, hg', hr, ht⟩

/-- What follows a word in a text without comments holds none, after some character. -/
theorem CommentFree.of_afterWord? {w t r : Text} (hw : w.all isPlain = true)
    (h : CommentFree none t) (hr : afterWord? w t = some r) : ∃ before, CommentFree before r := by
  obtain ⟨g, x, g', hg, hx, hg', -, rfl⟩ := eq_of_afterWord? hr
  exact ⟨_, ((h.of_blank hg).of_plain (all_isPlain_of_sameWord hw hx)).of_plain
    (all_isPlain_of_blank hg')⟩

/-- A text that starts with a tick starts with no word. -/
theorem head?_ne_tick_of_afterWord? {w t r : Text} (hw : IsRun w) (h : afterWord? w t = some r) :
    t.head? ≠ some '\'' := by
  obtain ⟨g, x, g', hg, hx, -, -, rfl⟩ := eq_of_afterWord? h
  have hplain : (g ++ x).all isPlain = true := by
    rw [List.all_append, Bool.and_eq_true]
    exact ⟨all_isPlain_of_blank hg, all_isPlain_of_sameWord (all_isPlain_of_ident hw.ident) hx⟩
  have hne : g ++ x ≠ [] := fun h => hw.ne_nil (List.length_eq_zero_iff.1
    ((length_eq_of_sameWord hx).trans (by rw [(List.append_eq_nil_iff.1 h).2]; rfl)))
  intro hhead
  rw [← List.append_assoc, List.head?_append_of_ne_nil _ hne] at hhead
  exact absurd (List.all_eq_true.1 hplain _ (List.mem_of_head? hhead)) (by decide)

theorem Quiet.commentFree {t : Text} (h : Quiet t) (ht : t.head? ≠ some '\'') :
    CommentFree none t :=
  h.resolve_right ht

theorem CommentFree.quiet_trimStart {before : Option Char} {t : Text} (h : CommentFree before t) :
    Quiet (Text.trimStart t) := by
  have hblank : (t.takeWhile isBlank).all isPlain = true := all_isPlain_of_blank List.all_takeWhile
  rw [← List.takeWhile_append_dropWhile (p := isBlank) (l := t)] at h
  exact (h.of_plain hblank).quiet

theorem Quiet.of_afterWord? {w t r : Text} (hw : IsRun w) (h : Quiet t)
    (hr : afterWord? w t = some r) : Quiet r := by
  obtain ⟨before, hfree⟩ := (h.commentFree (head?_ne_tick_of_afterWord? hw hr)).of_afterWord?
    (all_isPlain_of_ident hw.ident) hr
  exact hfree.quiet

theorem Quiet.of_afterWords? {ws : List Text} {t r : Text} (hws : ∀ w ∈ ws, IsRun w) (h : Quiet t)
    (hr : afterWords? ws t = some r) : Quiet r := by
  induction ws generalizing t with
  | nil =>
    obtain rfl := Option.some.inj hr
    exact h
  | cons w ws ih =>
    rw [afterWords?, List.foldlM_cons] at hr
    obtain ⟨u, hu, hr⟩ := Option.bind_eq_some_iff.1 hr
    exact ih (fun v hv => hws v (List.mem_cons_of_mem _ hv)) (h.of_afterWord? (hws w List.mem_cons_self) hu)
      hr

/-! ## Ends -/

theorem isPrefix_of_dropFinal? {c : Char} {t r : Text} (h : dropFinal? c t = some r) : r <+: t :=
  ⟨[c], (eq_of_dropFinal? h).symm⟩

theorem isPrefix_of_beforeWord? {w t r : Text} (h : beforeWord? w t = some r) : r <+: t := by
  rw [beforeWord?, Option.map_eq_some_iff] at h
  obtain ⟨u, hu, rfl⟩ := h
  rw [← List.reverse_suffix, List.reverse_reverse]
  refine (List.dropWhile_suffix _).trans (List.IsSuffix.trans ?_ (List.dropWhile_suffix isBlank))
  simp only [wholeWord?, dropWordWith, if_true] at hu
  split at hu
  · cases hu
  · obtain ⟨v, hv, hcut⟩ := Option.bind_eq_some_iff.1 hu
    obtain ⟨x, hx, -⟩ := dropWord?_eq_some_iff.1 hv
    split at hcut
    · cases hcut
    · obtain rfl := Option.some.inj hcut
      rw [hx]
      exact List.suffix_append x v

/-- Steps that leave a beginning leave a beginning. -/
theorem isPrefix_of_foldlM {step : Text → Text → Option Text}
    (h : ∀ w t r, step t w = some r → r <+: t) (ws : List Text) (t r : Text)
    (hr : ws.foldlM step t = some r) : r <+: t := by
  induction ws generalizing t with
  | nil =>
    obtain rfl := Option.some.inj hr
    exact List.prefix_refl _
  | cons w ws ih =>
    rw [List.foldlM_cons] at hr
    obtain ⟨u, hu, hr⟩ := Option.bind_eq_some_iff.1 hr
    exact (ih u hr).trans (h w t u hu)

/-- What precedes a closing clause is a beginning of the text. -/
theorem isPrefix_of_beforeEnd? {keywords : List Text} {required : Bool} {name : Option Text}
    {t r : Text} (h : beforeEnd? keywords required name t = some r) : r <+: t := by
  rw [beforeEnd?] at h
  obtain ⟨body, hbody, h⟩ := Option.bind_eq_some_iff.1 h
  have hclosed : trimEnd body <+: t :=
    (isPrefix_trimEnd body).trans ((isPrefix_of_dropFinal? hbody).trans (isPrefix_trimEnd t))
  have hunnamed : (name.bind fun n => beforeWord? n (trimEnd body)).getD (trimEnd body) <+: t := by
    cases hn : name.bind fun n => beforeWord? n (trimEnd body) with
    | none => exact hclosed
    | some u =>
      obtain ⟨n, -, hu⟩ := Option.bind_eq_some_iff.1 hn
      exact (isPrefix_of_beforeWord? hu).trans hclosed
  simp only at h
  split at h
  · rename_i rest hrest
    exact (isPrefix_of_beforeWord? h).trans ((isPrefix_of_foldlM
      (fun _ _ _ => isPrefix_of_beforeWord?) _ _ _ hrest).trans hunnamed)
  · split at h
    · cases h
    · exact (isPrefix_of_beforeWord? h).trans hunnamed

theorem Quiet.of_isPrefix {s t : Text} (h : Quiet t) (hs : s <+: t) : Quiet s := by
  rcases h with h | h
  · exact .inl (h.of_isPrefix hs)
  · obtain ⟨r, rfl⟩ := hs
    cases s with
    | nil => exact .inl rfl
    | cons c s => exact .inr h

theorem Quiet.of_beforeEnd? {keywords : List Text} {required : Bool} {name : Option Text}
    {t r : Text} (h : Quiet t) (hr : beforeEnd? keywords required name t = some r) : Quiet r :=
  h.of_isPrefix (isPrefix_of_beforeEnd? hr)

/-! ## Code points -/

/-- A code point stands where it says, and what follows it holds no comment if the text does not. -/
theorem mem_codePointsFrom {t : Text} {skip position depth : Nat} {before : Option Char}
    {p : CodePoint} (h : p ∈ codePointsFrom [] skip position depth before t) :
    ∃ s, t = s ++ p.rest ∧ p.position = position + s.length ∧ p.before = lastOr before s
      ∧ ∀ q, commentFrom? skip q before t = none → CommentFree p.before p.rest := by
  induction t generalizing skip position depth before with
  | nil => simp [codePointsFrom] at h
  | cons c t ih =>
    have later : ∀ {skip' depth'}, p ∈ codePointsFrom [] skip' (position + 1) depth' (some c) t →
        (∀ q, commentFrom? skip q before (c :: t) = none →
          commentFrom? skip' (q + 1) (some c) t = none) →
        ∃ s, c :: t = s ++ p.rest ∧ p.position = position + s.length ∧ p.before = lastOr before s
          ∧ ∀ q, commentFrom? skip q before (c :: t) = none → CommentFree p.before p.rest := by
      intro skip' depth' hp hfree
      obtain ⟨s, rfl, hpos, hbefore, hrest⟩ := ih hp
      refine ⟨c :: s, rfl, ?_, ?_, fun q hq => hrest (q + 1) (hfree q hq)⟩
      · rw [hpos, List.length_cons]; omega
      · rw [hbefore, lastOr_cons]
    cases skip with
    | succ skip => exact later h fun q hq => hq
    | zero =>
      have here : ∀ depth', p = ⟨position, before, c, t, depth'⟩ →
          ∃ s, c :: t = s ++ p.rest ∧ p.position = position + s.length ∧ p.before = lastOr before s
            ∧ ∀ q, commentFrom? 0 q before (c :: t) = none → CommentFree p.before p.rest := by
        rintro depth' rfl
        exact ⟨[], rfl, rfl, rfl, fun q hq => commentFrom?_position _ _ _ _ _ hq⟩
      simp only [codePointsFrom] at h
      split at h
      · rename_i n hat
        exact later h fun q hq => by rw [commentFrom?, hat] at hq; cases hq
      · rename_i n hat
        rw [codePointsFrom_append, List.reverse_singleton, List.singleton_append,
          List.mem_cons] at h
        rcases h with h | h
        · exact here _ h
        · exact later h fun q hq => by rwa [commentFrom?, hat] at hq
      · rename_i hat
        rw [codePointsFrom_append, List.reverse_singleton, List.singleton_append,
          List.mem_cons] at h
        rcases h with h | h
        · exact here _ h
        · exact later h fun q hq => by rwa [commentFrom?, hat] at hq

theorem mem_codePoints {t : Text} {p : CodePoint} (h : p ∈ codePoints t) :
    ∃ s, t = s ++ p.rest ∧ p.position = s.length ∧ p.before = lastOr none s
      ∧ (CommentFree none t → CommentFree p.before p.rest) := by
  obtain ⟨s, ht, hpos, hbefore, hfree⟩ := mem_codePointsFrom h
  exact ⟨s, ht, by rw [hpos, Nat.zero_add], hbefore, hfree 0⟩

/-- Code points are listed in the order of the text. -/
theorem codePointsFrom_pairwise (skip position depth : Nat) (before : Option Char) (t : Text) :
    (codePointsFrom [] skip position depth before t).Pairwise (·.position < ·.position) := by
  induction t generalizing skip position depth before with
  | nil => exact List.Pairwise.nil
  | cons c t ih =>
    have hcons : ∀ (p : CodePoint) (skip' depth' : Nat), p.position = position →
        (p :: codePointsFrom [] skip' (position + 1) depth' (some c) t).Pairwise
          (·.position < ·.position) := by
      intro p skip' depth' hp
      refine List.Pairwise.cons (fun q hq => ?_) (ih _ _ _ _)
      obtain ⟨s, -, hpos, -⟩ := mem_codePointsFrom hq
      omega
    cases skip with
    | succ skip => exact ih _ _ _ _
    | zero =>
      simp only [codePointsFrom]
      split
      · exact ih _ _ _ _
      · rw [codePointsFrom_append]
        exact hcons _ _ _ rfl
      · rw [codePointsFrom_append]
        exact hcons _ _ _ rfl

/-! ## Outside parentheses -/

/-- Where a pattern stands, the text goes on with it, in some case. -/
theorem exists_of_matchesAt {pattern : Text} {p : CodePoint} (h : matchesAt pattern p = true) :
    ∃ x u, p.rest = x ++ u ∧ sameWord pattern x = true := by
  cases pattern with
  | nil => cases h
  | cons first pattern =>
    simp only [matchesAt] at h
    split at h
    · obtain ⟨r, hr⟩ := Option.isSome_iff_exists.1 h
      simp only [wholeWord?, dropWordWith, if_true] at hr
      split at hr
      · cases hr
      · obtain ⟨u, hu, -⟩ := Option.bind_eq_some_iff.1 hr
        obtain ⟨x, hx, hword⟩ := dropWord?_eq_some_iff.1 hu
        exact ⟨x, u, hx, hword⟩
    · obtain ⟨u, hu⟩ := List.isPrefixOf_iff_prefix.1 h
      exact ⟨first :: pattern, u, hu.symm, sameWord_self _⟩

theorem mem_outerPoints {t : Text} {p : CodePoint} (h : p ∈ outerPoints t) : p ∈ codePoints t :=
  List.mem_of_mem_filter h

/-- What stands at a position where a pattern is found. -/
theorem mem_outerMatches {pattern t : Text} {i : Nat} (h : i ∈ outerMatches pattern t) :
    ∃ s x u, t = s ++ (x ++ u) ∧ i = s.length ∧ sameWord pattern x = true
      ∧ (CommentFree none t → CommentFree (lastOr none s) (x ++ u)) := by
  rw [outerMatches, List.mem_map] at h
  obtain ⟨p, hp, rfl⟩ := h
  rw [List.mem_filter] at hp
  obtain ⟨s, ht, hpos, hbefore, hfree⟩ := mem_codePoints (mem_outerPoints hp.1)
  obtain ⟨x, u, hx, hword⟩ := exists_of_matchesAt hp.2
  rw [hx] at ht hfree
  rw [hbefore] at hfree
  exact ⟨s, x, u, ht, hpos, hword, hfree⟩

theorem mem_of_outerMatch? {pattern t : Text} {i : Nat} (h : outerMatch? pattern t = some i) :
    i ∈ outerMatches pattern t :=
  List.mem_of_head? ((outerMatch?_eq_head? pattern t) ▸ h)

/-- The parts before and after a pattern, and the pattern in some case between them. -/
theorem eq_of_cutOuter? {pattern t a b : Text} (h : cutOuter? pattern t = some (a, b)) :
    ∃ x, t = a ++ (x ++ b) ∧ sameWord pattern x = true
      ∧ (CommentFree none t → CommentFree (lastOr none a) (x ++ b)) := by
  rw [cutOuter?, Option.map_eq_some_iff] at h
  obtain ⟨i, hi, hab⟩ := h
  obtain ⟨s, x, u, ht, rfl, hword, hfree⟩ := mem_outerMatches (mem_of_outerMatch? hi)
  obtain ⟨rfl, rfl⟩ := Prod.mk.inj hab
  have hlen := length_eq_of_sameWord hword
  have ha : t.take s.length = s := by rw [ht, List.take_left]
  have hb : t.drop (s.length + pattern.length) = u := by
    rw [ht, hlen, ← List.length_append, ← List.append_assoc, List.drop_left]
  rw [ha, hb]
  exact ⟨x, ht, hword, hfree⟩

theorem bindsTick_getLast? {w x : Text} (h : sameWord w x = true) :
    Lexeme.bindsTick x.getLast? = Lexeme.bindsTick w.getLast? := by
  rw [← Lexeme.bindsTick_fold, ← getLast?_fold, ← sameWord_iff.1 h, getLast?_fold,
    Lexeme.bindsTick_fold]

/-- What follows a pattern in a text without comments holds none. -/
theorem CommentFree.of_pattern {before : Option Char} {pattern x b : Text}
    (hne : pattern ≠ []) (hplain : pattern.all isPlain = true) (hword : sameWord pattern x = true)
    (h : CommentFree before (x ++ b)) : CommentFree pattern.getLast? b := by
  have hx : x ≠ [] := fun hx => hne (List.length_eq_zero_iff.1
    ((length_eq_of_sameWord hword).trans (by rw [hx]; rfl)))
  refine (h.of_plain (all_isPlain_of_sameWord hplain hword)).congr fun _ => ?_
  rw [lastOr_of_ne_nil hx, bindsTick_getLast? hword]

theorem CommentFree.of_cutOuter? {pattern t a b : Text} (hne : pattern ≠ [])
    (hplain : pattern.all isPlain = true) (h : CommentFree none t)
    (hcut : cutOuter? pattern t = some (a, b)) :
    CommentFree none a ∧ CommentFree pattern.getLast? b := by
  obtain ⟨x, ht, hword, hfree⟩ := eq_of_cutOuter? hcut
  refine ⟨?_, (hfree h).of_pattern hne hplain hword⟩
  rw [ht] at h
  exact h.of_append_left

/-! ## Groups -/

theorem exists_of_closeGroup {opening closing : Char} {start count : Nat} {ps : List CodePoint}
    {g : Option (Nat × Nat)} (h : closeGroup opening closing (some (start, count)) ps = some g) :
    ∃ p ∈ ps, p.char = closing ∧ g = some (start, p.position + 1) := by
  induction ps generalizing count with
  | nil => cases h
  | cons p ps ih =>
    have later : ∀ {count'}, closeGroup opening closing (some (start, count')) ps = some g →
        ∃ q ∈ p :: ps, q.char = closing ∧ g = some (start, q.position + 1) := by
      intro count' h
      obtain ⟨q, hq, hrest⟩ := ih h
      exact ⟨q, List.mem_cons_of_mem _ hq, hrest⟩
    simp only [closeGroup] at h
    split at h
    · exact later h
    · split at h
      · rename_i hp
        split at h
        · exact ⟨p, List.mem_cons_self, by simpa using hp, (Option.some.inj h).symm⟩
        · exact later h
      · exact later h

/-- A leading pair of parentheses, its interior, and what follows. -/
theorem eq_of_parenthesised? {t inner after : Text} (h : parenthesised? t = some (inner, after)) :
    t = '(' :: (inner ++ ')' :: after)
      ∧ (CommentFree none t → CommentFree none inner ∧ CommentFree (some ')') after) := by
  rw [parenthesised?] at h
  split at h
  · rename_i hhead
    obtain ⟨t, rfl⟩ : ∃ r, t = '(' :: r := by
      cases t with
      | nil => cases hhead
      | cons c t => exact ⟨t, by simpa using hhead⟩
    rw [Option.map_eq_some_iff] at h
    obtain ⟨⟨start, stop⟩, hspan, hcut⟩ := h
    simp only [balancedSpan?, show (('(' : Char).toNat < 128 && (')' : Char).toNat < 128) = true
      from rfl, if_true, Option.map_eq_some_iff] at hspan
    obtain ⟨g, hg, hspan⟩ := hspan
    have hcode : Lexeme.at none ('(' :: t) = .code := at_plain none (by decide) t
    rw [codePoints, codePointsFrom_code _ _ hcode] at hg
    simp only [closeGroup, beq_self_eq_true, if_true] at hg
    obtain ⟨p, hp, hchar, rfl⟩ := exists_of_closeGroup hg
    obtain ⟨rfl, rfl⟩ := Prod.mk.inj hspan
    obtain ⟨s, rfl, hpos, hbefore, hfree⟩ := mem_codePointsFrom hp
    have hrest : p.rest = ')' :: p.after := by rw [CodePoint.rest, hchar]
    rw [hrest] at hfree hcut
    rw [hrest]
    have hlen : p.position = s.length + 1 := by rw [hpos]; omega
    have hinner : (('(' :: (s ++ ')' :: p.after)).take (p.position + 1 - 1)).drop (0 + 1) = s := by
      simp [hlen]
    have hafter : ('(' :: (s ++ ')' :: p.after)).drop (p.position + 1) = p.after := by
      rw [hlen, List.drop_succ_cons, ← List.drop_drop, List.drop_left]
      rfl
    simp only [hinner, hafter] at hcut
    obtain ⟨rfl, rfl⟩ := Prod.mk.inj hcut
    refine ⟨rfl, fun h => ?_⟩
    have hopen : CommentFree none (s ++ ')' :: p.after) :=
      ((commentFree_cons_code (at_plain none (by decide) _)).1 h).of_unbound rfl
    exact ⟨hopen.of_append_left,
      (commentFree_cons_code (at_plain _ (by decide) _)).1 (hfree 0 (hopen.congr fun _ => by decide))⟩
  · cases h

theorem CommentFree.of_parenthesised? {t inner after : Text} (h : CommentFree none t)
    (hgroup : parenthesised? t = some (inner, after)) :
    CommentFree none inner ∧ CommentFree (some ')') after :=
  (eq_of_parenthesised? hgroup).2 h

/-! ## Separators -/

/-- The pieces between positions in order are beginnings of what follows them. -/
theorem commentFree_of_mem_piecesBetween {t piece : Text} {cuts : List Nat} {start : Nat}
    (hstart : CommentFree none (t.drop start)) (hcuts : ∀ i ∈ cuts, CommentFree none (t.drop (i + 1)))
    (hle : ∀ i ∈ cuts, start ≤ i) (hsorted : cuts.Pairwise (· < ·))
    (h : piece ∈ piecesBetween start (t.drop start) cuts) : CommentFree none piece := by
  induction cuts generalizing start with
  | nil => rwa [List.mem_singleton.1 h]
  | cons i cuts ih =>
    rw [piecesBetween, List.drop_drop] at h
    have hi : start + (i + 1 - start) = i + 1 := by
      have := hle i List.mem_cons_self
      omega
    rw [hi] at h
    rw [List.pairwise_cons] at hsorted
    rcases List.mem_cons.1 h with rfl | h
    · exact hstart.take _
    · exact ih (hcuts i List.mem_cons_self) (fun j hj => hcuts j (List.mem_cons_of_mem _ hj))
        (fun j hj => hsorted.1 j hj) hsorted.2 h

/-- The pieces between separators of a text without comments hold none. -/
theorem CommentFree.of_mem_splitOuter {separator : Char} {t piece : Text}
    (hs : isPlain separator = true) (hb : Lexeme.bindsTick (some separator) = false)
    (h : CommentFree none t) (hpiece : piece ∈ splitOuter separator t) : CommentFree none piece := by
  have hwhole : CommentFree none (t.drop 0) := h
  refine commentFree_of_mem_piecesBetween hwhole ?_ (fun _ _ => Nat.zero_le _) ?_ hpiece
  · intro i hi
    obtain ⟨p, hp, rfl⟩ := List.mem_map.1 hi
    rw [List.mem_filter] at hp
    obtain ⟨s, ht, hpos, -, hfree⟩ := mem_codePoints (mem_outerPoints hp.1)
    have hchar : p.char = separator := by simpa using hp.2
    have hafter : t.drop (p.position + 1) = p.after := by
      rw [hpos, ht, ← List.drop_drop, List.drop_left]
      rfl
    have hrest := hfree h
    rw [CodePoint.rest, hchar] at hrest
    rw [hafter]
    exact ((commentFree_cons_code (at_plain _ hs _)).1 hrest).of_unbound hb
  · rw [List.pairwise_map]
    exact ((codePointsFrom_pairwise 0 0 0 none t).filter _).filter _

/-! ## Statements -/

/-- A statement ends with a semicolon. -/
theorem exists_of_extentFrom {parens skip position n : Nat} {state : Nesting}
    {before : Option Char} {t : Text} (h : extentFrom parens state skip position before t = some n) :
    ∃ s u, t = s ++ ';' :: u ∧ n = position + s.length + 1
      ∧ ∀ q, (commentFrom? skip q before t = none ∨
          (t.take skip).all isPlain = true ∧ commentFrom? 0 q before t = none) →
        CommentFree (some ';') u := by
  induction t generalizing parens state skip position before with
  | nil => cases h
  | cons c t ih =>
    have later : ∀ {parens' state' skip'},
        extentFrom parens' state' skip' (position + 1) (some c) t = some n →
        (∀ q, (commentFrom? skip q before (c :: t) = none ∨
            ((c :: t).take skip).all isPlain = true ∧ commentFrom? 0 q before (c :: t) = none) →
          commentFrom? skip' (q + 1) (some c) t = none ∨
            (t.take skip').all isPlain = true ∧ commentFrom? 0 (q + 1) (some c) t = none) →
        ∃ s u, c :: t = s ++ ';' :: u ∧ n = position + s.length + 1
          ∧ ∀ q, (commentFrom? skip q before (c :: t) = none ∨
              ((c :: t).take skip).all isPlain = true ∧ commentFrom? 0 q before (c :: t) = none) →
            CommentFree (some ';') u := by
      intro parens' state' skip' hn hstep
      obtain ⟨s, u, rfl, rfl, hfree⟩ := ih hn
      refine ⟨c :: s, u, rfl, ?_, fun q hq => hfree (q + 1) (hstep q hq)⟩
      rw [List.length_cons]
      omega
    cases skip with
    | succ skip =>
      refine later h fun q hq => ?_
      rcases hq with hq | ⟨hall, hq⟩
      · exact .inl hq
      · rw [List.take_succ_cons, List.all_cons, Bool.and_eq_true] at hall
        rw [commentFrom?, at_plain before hall.1] at hq
        exact .inr ⟨hall.2, hq⟩
    | zero =>
      have hzero : ∀ {q}, (commentFrom? 0 q before (c :: t) = none ∨
          ((c :: t).take 0).all isPlain = true ∧ commentFrom? 0 q before (c :: t) = none) →
          commentFrom? 0 q before (c :: t) = none := fun hq => hq.elim id fun hq => hq.2
      simp only [extentFrom] at h
      split at h
      · rename_i k hat
        exact later h fun q hq => by
          have := hzero hq
          rw [commentFrom?, hat] at this
          cases this
      · rename_i k hat
        exact later h fun q hq => by
          have := hzero hq
          rw [commentFrom?, hat] at this
          exact .inl this
      · rename_i hat
        have hcode : ∀ {q}, (commentFrom? 0 q before (c :: t) = none ∨
            ((c :: t).take 0).all isPlain = true ∧ commentFrom? 0 q before (c :: t) = none) →
            commentFrom? 0 (q + 1) (some c) t = none := fun hq => by
          have := hzero hq
          rwa [commentFrom?, hat] at this
        have hword : (t.take (t.takeWhile isIdentChar).length).all isPlain = true := by
          rw [← List.prefix_iff_eq_take.1 (List.takeWhile_prefix isIdentChar)]
          exact all_isPlain_of_ident List.all_takeWhile
        split at h
        · split at h
          · split at h
            · cases h
            · exact later h fun q hq => .inr ⟨by simpa using hword, hcode hq⟩
          · exact later h fun q hq => .inr ⟨by simpa using hword, hcode hq⟩
        · split at h
          · exact later h fun q hq => .inl (hcode hq)
          · split at h
            · split at h
              · cases h
              · exact later h fun q hq => .inl (hcode hq)
            · split at h
              · split at h
                · rename_i hsemi _
                  rw [Bool.and_eq_true, beq_iff_eq] at hsemi
                  obtain ⟨rfl, -⟩ := hsemi
                  obtain rfl := Option.some.inj h
                  exact ⟨[], t, rfl, by simp, fun q hq =>
                    commentFrom?_position _ _ _ _ _ (hcode hq)⟩
                · exact later h fun q hq => .inl (hcode hq)
              · exact later h fun q hq => .inl (hcode hq)

/-- What follows a statement in a text without comments holds none. -/
theorem CommentFree.of_extent? {t : Text} {n : Nat} (h : CommentFree none t)
    (hn : extent? t = some n) : CommentFree none (t.drop n) := by
  obtain ⟨s, u, rfl, rfl, hfree⟩ := exists_of_extentFrom hn
  have hdrop : (s ++ ';' :: u).drop (0 + s.length + 1) = u := by
    rw [Nat.zero_add, ← List.drop_drop, List.drop_left]
    rfl
  rw [hdrop]
  exact (hfree 0 (.inl h)).of_unbound rfl

/-! ## Clauses -/

theorem triviaEnd_of_commentFree {before : Option Char} {t : Text} (h : CommentFree before t)
    (passed : Nat) :
    triviaEnd false passed before t
      = ⟨passed + (t.takeWhile isAsciiBlank).length, lastOr before (t.takeWhile isAsciiBlank),
        t.dropWhile isAsciiBlank⟩ := by
  induction t generalizing passed before with
  | nil => rfl
  | cons c t ih =>
    rw [triviaEnd]
    by_cases hc : isAsciiBlank c = true
    · have hplain : isPlain c = true := isPlain_of_isBlank (isAsciiBlank_isBlank hc)
      simp only [hc, if_true, Bool.false_eq_true, if_false, List.takeWhile_cons, List.dropWhile_cons,
        ih ((commentFree_cons_code (at_plain before hplain t)).1 h), List.length_cons, lastOr_cons]
      congr 1
      omega
    · have hstart : (c == '-' && t.head? == some '-') = false := by
        rw [Bool.eq_false_iff]
        intro hstart
        rw [Bool.and_eq_true, beq_iff_eq, beq_iff_eq] at hstart
        obtain ⟨rfl, hhead⟩ := hstart
        obtain ⟨t, rfl⟩ := List.head?_eq_some_iff.1 hhead
        exact not_commentFree_hyphens before t h
      simp [hc, hstart]

/-- In a text without comments only blanks stand between statements. -/
theorem skipTrivia_of_commentFree {p : Place} (h : CommentFree none p.rest) :
    (skipTrivia p).passed = p.passed + (p.rest.takeWhile isAsciiBlank).length
      ∧ (skipTrivia p).rest = p.rest.dropWhile isAsciiBlank := by
  cases hhead : p.rest.head? == some '\'' with
  | true =>
    obtain ⟨u, hu⟩ := List.head?_eq_some_iff.1 (by simpa using hhead)
    simp [skipTrivia, hu, triviaEnd, isAsciiBlank]
  | false =>
    rw [skipTrivia, triviaEnd_of_commentFree (h.congr fun ht => by simp [ht] at hhead)]
    exact ⟨rfl, rfl⟩

theorem drop_length_takeWhile (test : Char → Bool) (t : Text) :
    t.drop (t.takeWhile test).length = t.dropWhile test := by
  induction t with
  | nil => rfl
  | cons c t ih => by_cases hc : test c = true <;> simp [hc, ih]

theorem exists_of_clauseFrom? {words : List Text} {fuel : Nat} {p : Place} {t : Text} {i k : Nat}
    (hp : p.rest = t.drop p.passed) (hfree : CommentFree none p.rest)
    (h : clauseFrom? words fuel p = some (i, k)) :
    CommentFree none (t.drop i) ∧ ∃ w, words[k]? = some w ∧ startsWith w (t.drop i) = true := by
  induction fuel generalizing p with
  | zero => cases h
  | succ fuel ih =>
    obtain ⟨hpassed, hrest⟩ := skipTrivia_of_commentFree hfree
    have hdrop : (skipTrivia p).rest = t.drop (skipTrivia p).passed := by
      rw [hrest, hpassed, ← List.drop_drop, ← hp, drop_length_takeWhile]
    have hfree' : CommentFree none (skipTrivia p).rest := hrest ▸ hfree.dropWhile_asciiBlank
    simp only [clauseFrom?] at h
    split at h
    · cases h
    · split at h
      · rename_i k' hk
        obtain ⟨rfl, rfl⟩ := Prod.mk.inj (Option.some.inj h)
        rw [← hdrop]
        obtain ⟨hlt, hword, -⟩ := List.findIdx?_eq_some_iff_getElem.1 hk
        exact ⟨hfree', _, List.getElem?_eq_getElem hlt, hword⟩
      · obtain ⟨n, hn, h⟩ := Option.bind_eq_some_iff.1 h
        refine ih ?_ (hfree'.of_extent? hn) h
        rw [advance, hdrop, List.drop_drop]

/-- A clause starts with its word, and the text from there on holds no comment. -/
theorem CommentFree.of_clause? {words : List Text} {t : Text} {i k : Nat} (h : CommentFree none t)
    (hclause : clause? words t = some (i, k)) :
    CommentFree none (t.drop i) ∧ ∃ w, words[k]? = some w ∧ startsWith w (t.drop i) = true :=
  exists_of_clauseFrom? rfl h hclause

theorem le_triviaEnd (inComment : Bool) (passed : Nat) (before : Option Char) (t : Text) :
    passed ≤ (triviaEnd inComment passed before t).passed := by
  induction t generalizing inComment passed before with
  | nil => exact Nat.le_refl _
  | cons c t ih =>
    rw [triviaEnd]
    split
    · exact Nat.le_of_succ_le (ih _ _ _)
    · split
      · exact Nat.le_of_succ_le (ih _ _ _)
      · split
        · exact Nat.le_of_succ_le (ih _ _ _)
        · exact Nat.le_refl _

theorem le_of_clauseFrom? {words : List Text} {fuel : Nat} {p : Place} {i k : Nat}
    (h : clauseFrom? words fuel p = some (i, k)) : p.passed ≤ i := by
  induction fuel generalizing p with
  | zero => cases h
  | succ fuel ih =>
    have hle := le_triviaEnd false p.passed p.before p.rest
    simp only [clauseFrom?] at h
    split at h
    · cases h
    · split at h
      · obtain ⟨rfl, -⟩ := Prod.mk.inj (Option.some.inj h)
        exact hle
      · obtain ⟨n, -, h⟩ := Option.bind_eq_some_iff.1 h
        exact Nat.le_trans hle (Nat.le_trans (Nat.le_add_right _ n) (ih h))

/-- No clause stands where a text starts with a tick. -/
theorem pos_of_clause? {words : List Text} (hwords : ∀ w ∈ words, IsRun w) {t : Text} {i k : Nat}
    (ht : t.head? = some '\'') (h : clause? words t = some (i, k)) : 0 < i := by
  obtain ⟨t, rfl⟩ := List.head?_eq_some_iff.1 ht
  have hskip : skipTrivia ⟨0, none, '\'' :: t⟩ = ⟨0, none, '\'' :: t⟩ := by
    simp [skipTrivia, triviaEnd, isAsciiBlank]
  have hnone : (words.findIdx? fun w => startsWith w ('\'' :: t)) = none := by
    rw [List.findIdx?_eq_none_iff]
    intro w hw
    rw [startsWith, Option.isSome_eq_false_iff, Option.isNone_iff_eq_none,
      Option.eq_none_iff_forall_ne_some]
    exact fun r hr => head?_ne_tick_of_afterWord? (hwords w hw) hr rfl
  simp only [clause?, clauseFrom?, hskip, hnone, List.isEmpty_cons, Bool.false_eq_true,
    if_false] at h
  obtain ⟨n, hn, h⟩ := Option.bind_eq_some_iff.1 h
  obtain ⟨s, u, -, rfl, -⟩ := exists_of_extentFrom hn
  have := le_of_clauseFrom? h
  simp only [advance] at this
  omega

theorem dropBytes_split {n : Nat} {y : Text} (r : Text) (h : n ≤ byteLength y) :
    ∃ a s, y = a ++ s ∧ dropBytes n (y ++ r) = s ++ r := by
  induction y generalizing n with
  | nil =>
    obtain rfl := Nat.le_zero.1 h
    exact ⟨[], [], rfl, by cases r <;> rfl⟩
  | cons c y ih =>
    cases n with
    | zero => exact ⟨[], c :: y, rfl, rfl⟩
    | succ n =>
      rw [byteLength_cons] at h
      obtain ⟨a, s, rfl, hdrop⟩ := ih (n := n + 1 - c.utf8Size) (by omega)
      exact ⟨c :: a, s, rfl, by rw [List.cons_append, dropBytes, hdrop]⟩

/-- What follows as many bytes as a clause's word has holds no comment, after some character. -/
theorem CommentFree.of_dropBytes {w t : Text} {n : Nat} (hw : IsRun w) (h : CommentFree none t)
    (hstart : startsWith w t = true) (hn : n ≤ byteLength w) :
    ∃ before, CommentFree before (dropBytes n t) := by
  obtain ⟨r, hr⟩ := Option.isSome_iff_exists.1 hstart
  obtain ⟨g, x, g', hg, hx, -, -, rfl⟩ := eq_of_afterWord? hr
  have hbytes : n ≤ byteLength (g ++ x) := by
    have hxw : byteLength x = byteLength w := by
      rw [← byteLength_fold x, ← sameWord_iff.1 hx, byteLength_fold]
    rw [byteLength_append, hxw]
    omega
  obtain ⟨a, s, hgx, hdrop⟩ := dropBytes_split (g' ++ r) hbytes
  have hplain : (a ++ s).all isPlain = true := by
    rw [← hgx, List.all_append, Bool.and_eq_true]
    exact ⟨all_isPlain_of_blank hg, all_isPlain_of_sameWord (all_isPlain_of_ident hw.ident) hx⟩
  rw [List.all_append, Bool.and_eq_true] at hplain
  rw [← List.append_assoc, hdrop]
  rw [← List.append_assoc, hgx, List.append_assoc] at h
  exact ⟨_, h.of_plain hplain.1⟩

/-- The parts before and after a clause's word. -/
theorem CommentFree.of_cutClause? {w t a b : Text} (hw : IsRun w) (h : CommentFree none t)
    (hcut : cutClause? w t = some (a, b)) : CommentFree none a ∧ Quiet b := by
  rw [cutClause?, Option.map_eq_some_iff] at hcut
  obtain ⟨⟨i, k⟩, hclause, hab⟩ := hcut
  obtain ⟨rfl, rfl⟩ := Prod.mk.inj hab
  obtain ⟨hfree, v, hv, hstart⟩ := h.of_clause? hclause
  obtain ⟨before, hrest⟩ := hfree.of_dropBytes hw
    (by rw [List.mem_singleton.1 (List.mem_of_getElem? hv)] at hstart; exact hstart) (Nat.le_refl _)
  exact ⟨h.take i, hrest.quiet⟩

/-- Before a clause's word something is read, or the text holds no comment. -/
theorem Quiet.of_cutClause? {w t a b : Text} (hw : IsRun w) (h : Quiet t)
    (hcut : cutClause? w t = some (a, b)) (ha : a.head? ≠ some '\'') :
    CommentFree none a ∧ Quiet b := by
  refine (h.commentFree fun hhead => ha ?_).of_cutClause? hw hcut
  rw [cutClause?, Option.map_eq_some_iff] at hcut
  obtain ⟨⟨i, k⟩, hclause, hab⟩ := hcut
  have hpos := pos_of_clause? (fun v hv => (List.mem_singleton.1 hv).symm ▸ hw) hhead hclause
  rw [← (Prod.mk.inj hab).1, List.head?_take, if_neg (by omega), hhead]

/-! ## Pieces -/

/-- A piece of a region without comments: a statement and no comment after it. -/
def IsBare (p : Piece) : Prop :=
  ∃ code, p = .code code none ∧ CommentFree none code

theorem trailer?_eq_none {t : Text} (h : CommentFree none t) : trailer? t = none := by
  rw [trailer?, Option.map_eq_none_iff, dropLead?]
  split
  · rename_i hstart
    obtain ⟨u, hu⟩ := List.isPrefixOf_iff_prefix.1 hstart
    have hblank : (t.takeWhile fun c => c != '\n' && isBlank c).all isBlank = true := by
      have := List.all_takeWhile (p := fun c => c != '\n' && isBlank c) (l := t)
      rw [List.all_eq_true] at this ⊢
      exact fun c hc => (Bool.and_eq_true _ _ ▸ this c hc).2
    have hrest : CommentFree none (t.dropWhile fun c => c != '\n' && isBlank c) :=
      CommentFree.of_blank hblank (by rwa [List.takeWhile_append_dropWhile])
    rw [← hu] at hrest
    exact absurd hrest (not_commentFree_hyphens none u)
  · rfl

theorem isBare_of_piecesFrom? {found ps : List Piece} {fuel : Nat} {t : Text}
    (hfound : ∀ p ∈ found, IsBare p) (h : CommentFree none t)
    (hps : piecesFrom? found fuel t = some ps) : ∀ p ∈ ps, IsBare p := by
  induction fuel generalizing found t with
  | zero => cases hps
  | succ fuel ih =>
    have hrest := h.dropWhile_asciiBlank
    simp only [piecesFrom?] at hps
    split at hps
    · obtain rfl := Option.some.inj hps
      exact fun p hp => hfound p (List.mem_reverse.1 hp)
    · rename_i rest heq
      rw [heq] at hrest
      exact absurd hrest (not_commentFree_hyphens none rest)
    · split at hps
      · cases hps
      · rename_i n hn
        have hdrop := hrest.of_extent? hn
        rw [trailer?_eq_none hdrop] at hps
        refine ih (fun p hp => ?_) hdrop hps
        rcases List.mem_cons.1 hp with rfl | hp
        · exact ⟨_, rfl, hrest.take n⟩
        · exact hfound p hp

/-- The pieces of a region without comments are statements without comments. -/
theorem CommentFree.of_pieces? {t : Text} {ps : List Piece} (h : CommentFree none t)
    (hps : pieces? t = some ps) : ∀ p ∈ ps, IsBare p :=
  isBare_of_piecesFrom? (fun _ hp => absurd hp (List.not_mem_nil)) h hps

theorem mem_of_piecesFrom? {found ps : List Piece} {fuel : Nat} {t : Text}
    (hps : piecesFrom? found fuel t = some ps) {p : Piece} (hp : p ∈ found) : p ∈ ps := by
  induction fuel generalizing found t with
  | zero => cases hps
  | succ fuel ih =>
    simp only [piecesFrom?] at hps
    split at hps
    · obtain rfl := Option.some.inj hps
      exact List.mem_reverse.2 hp
    · exact ih hps (List.mem_cons_of_mem _ hp)
    · split at hps
      · cases hps
      · split at hps
        · exact ih hps (List.mem_cons_of_mem _ hp)
        · exact ih hps (List.mem_cons_of_mem _ hp)

/-- A region that starts with a tick has a piece that does. -/
theorem exists_piece_of_tick {t : Text} {ps : List Piece} (ht : t.head? = some '\'')
    (hps : pieces? t = some ps) : ∃ code trailer, .code code trailer ∈ ps ∧ code.head? = some '\'' := by
  obtain ⟨t, rfl⟩ := List.head?_eq_some_iff.1 ht
  have hdrop : ('\'' :: t).dropWhile isAsciiBlank = '\'' :: t := by simp [isAsciiBlank]
  rw [pieces?, piecesFrom?_code _ _ hdrop fun s hs => absurd (List.cons.inj hs).1 (by decide)] at hps
  obtain ⟨n, hn, hps⟩ := Option.bind_eq_some_iff.1 hps
  have hhead : (('\'' :: t).take n).head? = some '\'' := by
    obtain ⟨s, u, -, rfl, -⟩ := exists_of_extentFrom hn
    rfl
  split at hps
  · exact ⟨_, _, mem_of_piecesFrom? hps List.mem_cons_self, hhead⟩
  · exact ⟨_, _, mem_of_piecesFrom? hps List.mem_cons_self, hhead⟩

end CanonicalVhdl.Text
