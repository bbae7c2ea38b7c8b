import CanonicalVhdl.Proofs.Bytewise.Ends
import CanonicalVhdl.Proofs.Expr.Keyword
import CanonicalVhdl.Proofs.Search.Phrase

/-!
# The closing clause of a construct

A closing clause is taken off the end of a text word by word: first the name, if it stands there,
then the keywords, all of them or none, then the word `end`.  What stands last decides each step:
a name is no reserved word and no keyword is `end`, so the clause is found in whichever of its forms
it was written.

## Main definitions

* `Text.ClosingWords keywords required name words` — the words that a closing clause may have.
* `Text.HasClosing keywords required name space body t` — a text is a body with a closing clause.

## Main statements

* `Text.beforeWords?_eq_some_iff` — what it is for words to stand at the end of a text.
* `Text.beforeEnd?_eq_some_iff` — what precedes a closing clause.
-/

namespace CanonicalVhdl.Text

/-! ## Phrases and their last word -/

section Phrases

variable {ignoreCase : Bool} {first word x : Text} {words : List Text}

theorem spellsRest_concat :
    SpellsRest ignoreCase (words ++ [word]) x ↔
      word ≠ [] ∧ ∃ y g z, x = y ++ (g ++ z) ∧ SpellsRest ignoreCase words y ∧ g ≠ [] ∧
        g.all isBlank = true ∧ Spells ignoreCase word z := by
  induction words generalizing x with
  | nil =>
    constructor
    · rintro ⟨hword, g, z, _, rfl, hg, hblank, hz, rfl⟩
      exact ⟨hword, [], g, z, by simp, rfl, hg, hblank, hz⟩
    · rintro ⟨hword, _, g, z, rfl, rfl, hg, hblank, hz⟩
      exact ⟨hword, g, z, [], by simp, hg, hblank, hz, rfl⟩
  | cons v words ih =>
    constructor
    · rintro ⟨hv, h, u, r, rfl, hh, hhblank, hu, hr⟩
      obtain ⟨hword, y, g, z, rfl, hy, hg, hblank, hz⟩ := ih.1 hr
      have hfront : SpellsRest ignoreCase (v :: words) (h ++ (u ++ y)) :=
        ⟨hv, h, u, y, rfl, hh, hhblank, hu, hy⟩
      exact ⟨hword, h ++ (u ++ y), g, z, by simp, hfront, hg, hblank, hz⟩
    · rintro ⟨hword, _, g, z, rfl, ⟨hv, h, u, y, rfl, hh, hhblank, hu, hy⟩, hg, hblank, hz⟩
      have hrest := ih.2 ⟨hword, y, g, z, rfl, hy, hg, hblank, hz⟩
      exact ⟨hv, h, u, y ++ (g ++ z), by simp, hh, hhblank, hu, hrest⟩

/-- A phrase with one word more has blanks and the word at its end. -/
theorem spellsPhrase_concat :
    SpellsPhrase ignoreCase (first :: (words ++ [word])) x ↔
      word ≠ [] ∧ ∃ y g z, x = y ++ (g ++ z) ∧ SpellsPhrase ignoreCase (first :: words) y ∧ g ≠ [] ∧
        g.all isBlank = true ∧ Spells ignoreCase word z := by
  constructor
  · rintro ⟨hfirst, u, r, rfl, hu, hr⟩
    obtain ⟨hword, y, g, z, rfl, hy, hg, hblank, hz⟩ := spellsRest_concat.1 hr
    exact ⟨hword, u ++ y, g, z, by simp, ⟨hfirst, u, y, rfl, hu, hy⟩, hg, hblank, hz⟩
  · rintro ⟨hword, _, g, z, rfl, ⟨hfirst, u, y, rfl, hu, hy⟩, hg, hblank, hz⟩
    have hrest := spellsRest_concat.2 ⟨hword, y, g, z, rfl, hy, hg, hblank, hz⟩
    exact ⟨hfirst, u, y ++ (g ++ z), by simp, hu, hrest⟩

theorem spellsPhrase_singleton :
    SpellsPhrase ignoreCase [word] x ↔ word ≠ [] ∧ Spells ignoreCase word x := by
  constructor
  · rintro ⟨hword, y, _, rfl, hy, rfl⟩
    rw [List.append_nil]
    exact ⟨hword, hy⟩
  · rintro ⟨hword, hx⟩
    exact ⟨hword, x, [], (List.append_nil x).symm, hx, rfl⟩

theorem IsRun.of_spells (hword : IsRun word) (h : Spells ignoreCase word x) : IsRun x :=
  ⟨h.ne_nil hword.ne_nil, h.all_isIdentChar hword.ident⟩

/-- A phrase of runs ends with an identifier character. -/
theorem SpellsPhrase.exists_last (h : SpellsPhrase ignoreCase words x) (hwords : ∀ w ∈ words, IsRun w) :
    ∃ y z, x = y ++ z ∧ IsRun z := by
  cases words with
  | nil => exact h.elim
  | cons first words =>
    rcases List.eq_nil_or_concat words with rfl | ⟨words, word, rfl⟩
    · exact ⟨[], x, rfl, (hwords first List.mem_cons_self).of_spells (spellsPhrase_singleton.1 h).2⟩
    · rw [List.concat_eq_append] at h hwords
      obtain ⟨-, y, g, z, rfl, -, -, -, hz⟩ := spellsPhrase_concat.1 h
      exact ⟨y ++ g, z, by simp, (hwords word (by simp)).of_spells hz⟩

end Phrases

/-! ## Words at the end of a text -/

section Words

variable {t r : Text}

theorem IsRun.exists_getLast? {w : Text} (hw : IsRun w) (a : Text) :
    ∃ c, (a ++ w).getLast? = some c ∧ isIdentChar c = true := by
  obtain ⟨c, hc⟩ := Option.isSome_iff_exists.1 (List.getLast?_isSome.2 hw.ne_nil)
  refine ⟨c, ?_, List.all_eq_true.1 hw.ident c (List.mem_of_getLast? hc)⟩
  rw [List.getLast?_append_of_ne_nil a hw.ne_nil, hc]

theorem IsRun.trimEnd_append {w : Text} (hw : IsRun w) (a : Text) : trimEnd (a ++ w) = a ++ w := by
  rw [trimEnd_eq_self]
  rw [List.getLast?_append_of_ne_nil a hw.ne_nil]
  exact hw.trimmed.last

/-- Only one word can be the last one. -/
theorem sameWord_of_beforeWord? {v w s : Text} (hv : IsRun v) (hw : IsRun w)
    (hr : beforeWord? v t = some r) (hs : beforeWord? w t = some s) : sameWord v w = true := by
  obtain ⟨-, a, x, ha, hx, hclean, -⟩ := Bytewise.beforeWord?_eq_some_iff.1 hr
  obtain ⟨-, b, y, hb, hy, hclean', -⟩ := Bytewise.beforeWord?_eq_some_iff.1 hs
  have hsplit : x.reverse ++ a.reverse = y.reverse ++ b.reverse := by
    rw [← List.reverse_append, ← List.reverse_append, ← ha, hb]
  have hxrun : IsRun x := @IsRun.of_spells true _ _ hv hx
  have hyrun : IsRun y := @IsRun.of_spells true _ _ hw hy
  obtain ⟨hxy, -⟩ := run_unique hsplit hxrun.reverse.ident hyrun.reverse.ident
    (by simpa using hclean) (by simpa using hclean')
  obtain rfl := List.reverse_injective hxy
  rw [sameWord_iff] at hx hy ⊢
  rw [hx, hy]

/-- The first of the words is looked for last. -/
theorem beforeWords?_cons (w : Text) (ws : List Text) (t : Text) :
    beforeWords? (w :: ws) t = (beforeWords? ws t).bind (beforeWord? w) := by
  simp [beforeWords?, List.foldlM_append]

/-- The last of the words is looked for first. -/
theorem beforeWords?_concat (ws : List Text) (w t : Text) :
    beforeWords? (ws ++ [w]) t = (beforeWord? w t).bind (beforeWords? ws) := by
  simp [beforeWords?]
  rfl

/-- **Words at the end of a text** are those words, with blanks between them, and no identifier
character precedes them. -/
theorem beforeWords?_eq_some_iff {first : Text} {words : List Text}
    (hwords : ∀ w ∈ first :: words, IsRun w) :
    beforeWords? (first :: words) t = some r ↔
      ∃ a x, trimEnd t = a ++ x ∧ SpellsPhrase true (first :: words) x ∧
        a.getLast?.any isIdentChar = false ∧ r = trimEnd a := by
  induction words using List.reverseRecOn generalizing t with
  | nil =>
    have hone : beforeWords? [first] t = beforeWord? first t := beforeWords?_cons first [] t
    rw [hone, Bytewise.beforeWord?_eq_some_iff]
    constructor
    · rintro ⟨hfirst, a, x, ht, hx, hclean, hr⟩
      exact ⟨a, x, ht, spellsPhrase_singleton.2 ⟨hfirst, hx⟩, hclean, hr⟩
    · rintro ⟨a, x, ht, hx, hclean, hr⟩
      obtain ⟨hfirst, hx⟩ := spellsPhrase_singleton.1 hx
      exact ⟨hfirst, a, x, ht, hx, hclean, hr⟩
  | append_singleton words word ih =>
    have hinit : ∀ w ∈ first :: words, IsRun w := fun w hw => hwords w (by
      rw [← List.cons_append]
      exact List.mem_append_left _ hw)
    rw [← List.cons_append, beforeWords?_concat, Option.bind_eq_some_iff]
    constructor
    · rintro ⟨s, hs, hr⟩
      obtain ⟨hword, b, z, ht, hz, hbefore, rfl⟩ := Bytewise.beforeWord?_eq_some_iff.1 hs
      obtain ⟨a, y, hb, hy, hclean, rfl⟩ := (ih hinit).1 hr
      rw [trimEnd_eq_self (getLast?_trimEnd b)] at hb
      obtain ⟨g, hg, hgap⟩ := exists_pad_trimEnd b
      rw [hb] at hgap
      -- without a blank the word would continue the one before it
      have hne : g ≠ [] := by
        rintro rfl
        obtain ⟨u, v, rfl, hv⟩ := hy.exists_last hinit
        obtain ⟨c, hc, hident⟩ := hv.exists_getLast? (a ++ u)
        rw [hgap, List.append_nil, ← List.append_assoc, hc, Option.any_some, hident] at hbefore
        cases hbefore
      refine ⟨a, y ++ (g ++ z), by rw [ht, hgap]; simp only [List.append_assoc], ?_, hclean, rfl⟩
      exact spellsPhrase_concat.2 ⟨hword, y, g, z, rfl, hy, hne, hg, hz⟩
    · rintro ⟨a, x, ht, hx, hclean, rfl⟩
      obtain ⟨hword, y, g, z, rfl, hy, hne, hg, hz⟩ := spellsPhrase_concat.1 hx
      have hgap : (a ++ (y ++ g)).getLast?.any isIdentChar = false := by
        rw [← List.append_assoc]
        exact getLast?_gap hg hne (a ++ y)
      refine ⟨trimEnd (a ++ (y ++ g)), Bytewise.beforeWord?_eq_some_iff.2
        ⟨hword, a ++ (y ++ g), z, by rw [ht]; simp only [List.append_assoc], hz, hgap, rfl⟩, ?_⟩
      refine (ih hinit).2 ⟨a, y, ?_, hy, hclean, rfl⟩
      obtain ⟨u, v, rfl, hv⟩ := hy.exists_last hinit
      rw [trimEnd_eq_self (getLast?_trimEnd _), ← List.append_assoc, trimEnd_append hg,
        ← List.append_assoc, hv.trimEnd_append]

end Words

/-! ## Closing clauses -/

/-- The words of a closing clause: the keywords stand together or, unless they are required, may be
left out, and the name may be left out. -/
inductive ClosingWords (keywords : List Text) (required : Bool) (name : Text) : List Text → Prop where
  /-- The keywords. -/
  | keywords : ClosingWords keywords required name ("end".toList :: keywords)
  /-- The keywords and the name. -/
  | named : ClosingWords keywords required name ("end".toList :: (keywords ++ [name]))
  /-- No keywords. -/
  | bare (h : required = false) : ClosingWords keywords required name ["end".toList]
  /-- No keywords, but the name. -/
  | bareNamed (h : required = false) : ClosingWords keywords required name ["end".toList, name]

/-- Whether a text is a trimmed body and a closing clause, `space` being what stands between the
last word and the semicolon. -/
def HasClosing (keywords : List Text) (required : Bool) (name space body t : Text) : Prop :=
  ∃ words gap clause rest, ClosingWords keywords required name words ∧
    SpellsPhrase true words clause ∧ t = body ++ (gap ++ (clause ++ (space ++ ';' :: rest))) ∧
    gap.all isBlank = true ∧ rest.all isBlank = true ∧ body.getLast?.any isBlank = false ∧
    (body ++ gap).getLast?.any isIdentChar = false

section Clause

variable {keywords : List Text} {required : Bool} {name space body t : Text}

theorem isRun_of_isReserved {w : Text} (h : isReserved w = true) : IsRun w :=
  (Token.isName_of_isReserved h).isRun

/-- No name is a reserved word. -/
theorem sameWord_name_eq_false {w : Text} (h : isReserved w = true) (name : Ident) :
    sameWord w name.text = false := by
  by_contra hsame
  have := isReserved_congr (by simpa using hsame : sameWord w name.text = true)
  rw [h, name.not_isReserved] at this
  cases this

/-- Keywords are taken off if they stand there, and then no clause without them ends there. -/
theorem beforeKeywords_eq_some_iff (hreserved : ∀ w ∈ keywords, isReserved w = true)
    (hend : ∀ w ∈ keywords, sameWord w "end".toList = false) :
    (match beforeWords? keywords t with
      | some rest => beforeWord? "end".toList rest
      | none => if required then none else beforeWord? "end".toList t) = some body ↔
      beforeWords? ("end".toList :: keywords) t = some body ∨
        required = false ∧ beforeWords? ["end".toList] t = some body := by
  have hone : beforeWords? ["end".toList] t = beforeWord? "end".toList t :=
    beforeWords?_cons "end".toList [] t
  rw [beforeWords?_cons, hone]
  cases hrest : beforeWords? keywords t with
  | none => cases required <;> simp
  | some rest =>
    rw [Option.bind_some]
    constructor
    · exact .inl
    · rintro (h | ⟨-, h⟩)
      · exact h
      · rcases List.eq_nil_or_concat keywords with rfl | ⟨words, word, rfl⟩
        · obtain rfl : t = rest := Option.some.inj hrest
          exact h
        · -- the last keyword stands where `end` does
          rw [List.concat_eq_append] at hrest hreserved hend
          rw [beforeWords?_concat] at hrest
          obtain ⟨s, hs, -⟩ := Option.bind_eq_some_iff.1 hrest
          have hword : word ∈ words ++ [word] := by simp
          have := sameWord_of_beforeWord? (isRun_of_isReserved (hreserved word hword))
            (isRun_of_isReserved (by decide)) hs h
          rw [hend word hword] at this
          cases this

/-- The last word of a closing clause without the name is reserved. -/
theorem beforeWords?_eq_none_of_name (hreserved : ∀ w ∈ keywords, isReserved w = true) (name : Ident)
    {s : Text} (h : beforeWord? name.text t = some s) :
    beforeWords? ("end".toList :: keywords) t = none := by
  have hlast : ∀ w, isReserved w = true → beforeWord? w t = none := by
    intro w hw
    by_contra hsome
    obtain ⟨r, hr⟩ := Option.ne_none_iff_exists'.1 hsome
    have := sameWord_of_beforeWord? (isRun_of_isReserved hw) name.isRun hr h
    rw [sameWord_name_eq_false hw name] at this
    cases this
  rcases List.eq_nil_or_concat keywords with rfl | ⟨words, word, rfl⟩
  · exact (beforeWords?_cons "end".toList [] t).trans (hlast _ (by decide))
  · rw [List.concat_eq_append, ← List.cons_append, beforeWords?_concat,
      hlast word (hreserved word (by simp)), Option.bind_none]

/-- **The order of the steps does not matter**: what is taken off is a closing clause in one of its
forms. -/
theorem beforeEnd?_eq_some_iff (hreserved : ∀ w ∈ keywords, isReserved w = true)
    (hend : ∀ w ∈ keywords, sameWord w "end".toList = false) (name : Ident) :
    beforeEnd? keywords required (some name.text) t = some body ↔
      ∃ closed, dropFinal? ';' (trimEnd t) = some closed ∧
        ∃ words, ClosingWords keywords required name.text words ∧
          beforeWords? words (trimEnd closed) = some body := by
  have hforms : ∀ u, (∃ words, ClosingWords keywords required name.text words ∧
      beforeWords? words u = some body) ↔
        (beforeWords? ("end".toList :: keywords) u = some body ∨
          required = false ∧ beforeWords? ["end".toList] u = some body) ∨
        ∃ s, beforeWord? name.text u = some s ∧
          (beforeWords? ("end".toList :: keywords) s = some body ∨
            required = false ∧ beforeWords? ["end".toList] s = some body) := by
    intro u
    have hnamed : ∀ words, beforeWords? (words ++ [name.text]) u = some body ↔
        ∃ s, beforeWord? name.text u = some s ∧ beforeWords? words s = some body := by
      intro words
      rw [beforeWords?_concat, Option.bind_eq_some_iff]
    constructor
    · rintro ⟨words, hwords, h⟩
      cases hwords with
      | keywords => exact .inl (.inl h)
      | named =>
        obtain ⟨s, hs, h⟩ := (hnamed ("end".toList :: keywords)).1 h
        exact .inr ⟨s, hs, .inl h⟩
      | bare hrequired => exact .inl (.inr ⟨hrequired, h⟩)
      | bareNamed hrequired =>
        obtain ⟨s, hs, h⟩ := (hnamed ["end".toList]).1 h
        exact .inr ⟨s, hs, .inr ⟨hrequired, h⟩⟩
    · rintro ((h | ⟨hrequired, h⟩) | ⟨s, hs, h | ⟨hrequired, h⟩⟩)
      · exact ⟨_, .keywords, h⟩
      · exact ⟨_, .bare hrequired, h⟩
      · exact ⟨_, .named, (hnamed ("end".toList :: keywords)).2 ⟨s, hs, h⟩⟩
      · exact ⟨_, .bareNamed hrequired, (hnamed ["end".toList]).2 ⟨s, hs, h⟩⟩
  simp only [beforeEnd?, Option.bind_eq_bind, Option.bind_eq_some_iff, Option.bind_some]
  refine exists_congr fun closed => and_congr_right fun _ => ?_
  refine (beforeKeywords_eq_some_iff hreserved hend).trans ?_
  rw [hforms]
  cases hname : beforeWord? name.text (trimEnd closed) with
  | none => simp
  | some s =>
    have hkeywords := beforeWords?_eq_none_of_name hreserved name hname
    have hbare : beforeWords? ["end".toList] (trimEnd closed) = none :=
      beforeWords?_eq_none_of_name (fun w hw => absurd hw List.not_mem_nil) name hname
    rw [Option.getD_some, hkeywords, hbare]
    simp

/-- What stands before the semicolon that ends a text, blanks behind it aside. -/
theorem dropFinal?_trimEnd_eq_some_iff {closed : Text} :
    dropFinal? ';' (trimEnd t) = some closed ↔
      ∃ rest, rest.all isBlank = true ∧ t = closed ++ ';' :: rest := by
  constructor
  · intro h
    obtain ⟨rest, hrest, ht⟩ := exists_pad_trimEnd t
    rw [eq_of_dropFinal? h, List.append_assoc, List.singleton_append] at ht
    exact ⟨rest, hrest, ht⟩
  · rintro ⟨rest, hrest, rfl⟩
    rw [← List.singleton_append, ← List.append_assoc, trimEnd_append hrest, trimEnd_eq_self,
      dropFinal?_append]
    rw [List.getLast?_concat]
    rfl

theorem ClosingWords.isRun {words : List Text} (h : ClosingWords keywords required name words)
    (hkeywords : ∀ w ∈ keywords, IsRun w) (hname : IsRun name) : ∀ w ∈ words, IsRun w := by
  have hend : IsRun "end".toList := isRun_of_isReserved (by decide)
  intro w hw
  cases h with
  | keywords =>
    rcases List.mem_cons.1 hw with rfl | hw
    · exact hend
    · exact hkeywords w hw
  | named =>
    rw [List.mem_cons, List.mem_append, List.mem_singleton] at hw
    rcases hw with rfl | hw | rfl
    · exact hend
    · exact hkeywords w hw
    · exact hname
  | bare =>
    obtain rfl := List.mem_singleton.1 hw
    exact hend
  | bareNamed =>
    rw [List.mem_cons, List.mem_singleton] at hw
    rcases hw with rfl | rfl
    · exact hend
    · exact hname

theorem ClosingWords.exists_cons {words : List Text} (h : ClosingWords keywords required name words) :
    ∃ rest, words = "end".toList :: rest := by
  cases h <;> exact ⟨_, rfl⟩

/-- **A closing clause is taken off exactly where one stands.**  What precedes it is returned, with
no blanks at its end.  Keywords are reserved words other than `end`; blanks may stand between the
last word and the semicolon. -/
theorem beforeEnd?_exact (hreserved : ∀ w ∈ keywords, isReserved w = true)
    (hend : ∀ w ∈ keywords, sameWord w "end".toList = false) (required : Bool) (name : Ident)
    (t body : Text) :
    beforeEnd? keywords required (some name.text) t = some body ↔
      ∃ space, space.all isBlank = true ∧ HasClosing keywords required name.text space body t := by
  have hrun : ∀ words, ClosingWords keywords required name.text words → ∀ w ∈ words, IsRun w :=
    fun words h => h.isRun (fun w hw => isRun_of_isReserved (hreserved w hw)) name.isRun
  rw [beforeEnd?_eq_some_iff hreserved hend]
  constructor
  · rintro ⟨closed, hclosed, words, hwords, h⟩
    obtain ⟨rest, hrest, rfl⟩ := dropFinal?_trimEnd_eq_some_iff.1 hclosed
    obtain ⟨ws, rfl⟩ := hwords.exists_cons
    obtain ⟨a, clause, ha, hclause, hclean, rfl⟩ := (beforeWords?_eq_some_iff (hrun _ hwords)).1 h
    rw [trimEnd_eq_self (getLast?_trimEnd closed)] at ha
    obtain ⟨space, hspace, hgap⟩ := exists_pad_trimEnd closed
    obtain ⟨gap, hgap', hbody⟩ := exists_pad_trimEnd a
    refine ⟨space, hspace, _, gap, clause, rest, hwords, hclause, ?_, hgap', hrest,
      getLast?_trimEnd a, ?_⟩
    · have hwhole : closed = trimEnd a ++ gap ++ clause ++ space := by rw [← hbody, ← ha, ← hgap]
      rw [← List.append_assoc, ← List.append_assoc, ← List.append_assoc, ← hwhole]
    · rw [← hbody]
      exact hclean
  · rintro ⟨space, hspace, words, gap, clause, rest, hwords, hclause, rfl, hgap, hrest, htrim, hclean⟩
    refine ⟨body ++ (gap ++ (clause ++ space)), dropFinal?_trimEnd_eq_some_iff.2 ⟨rest, hrest, by simp⟩,
      words, hwords, ?_⟩
    obtain ⟨u, v, rfl, hv⟩ := hclause.exists_last (hrun words hwords)
    obtain ⟨ws, rfl⟩ := hwords.exists_cons
    refine (beforeWords?_eq_some_iff (hrun _ hwords)).2 ⟨body ++ gap, u ++ v, ?_, hclause, hclean, ?_⟩
    · have hsplit : body ++ (gap ++ (u ++ v ++ space)) = body ++ gap ++ u ++ v ++ space := by simp
      rw [hsplit, trimEnd_append hspace, hv.trimEnd_append, hv.trimEnd_append, List.append_assoc _ u v]
    · rw [trimEnd_append hgap, trimEnd_eq_self htrim]

/-- The closing clause of an entity, with the keyword, the name and blanks. -/
theorem beforeEnd?_exact_entity :
    (∀ w ∈ ["entity".toList], isReserved w = true) ∧
      (∀ w ∈ ["entity".toList], sameWord w "end".toList = false) ∧
      ∃ name : Ident, name.text = "e".toList ∧
        beforeEnd? ["entity".toList] false (some name.text) "x; END  entity E ; ".toList
          = some "x;".toList := by
  have hreserved : ∀ w ∈ ["entity".toList], isReserved w = true := by decide
  have hend : ∀ w ∈ ["entity".toList], sameWord w "end".toList = false := by decide
  have hfirst : sameWord "end".toList "END".toList = true := by decide
  have hkeyword : sameWord "entity".toList "entity".toList = true := by decide
  have hname : sameWord "e".toList "E".toList = true := by decide
  refine ⟨hreserved, hend, ⟨"e".toList, by decide⟩, rfl, ?_⟩
  rw [beforeEnd?_exact hreserved hend]
  refine ⟨[' '], by decide, _, [' '], "END  entity E".toList, [' '], .named, ?_, by decide⟩
  refine ⟨by decide, "END".toList, "  entity E".toList, by decide, hfirst, by decide, ?_⟩
  refine ⟨"  ".toList, "entity".toList, " E".toList, by decide, by decide, by decide, hkeyword,
    by decide, ?_⟩
  exact ⟨" ".toList, "E".toList, [], by decide, by decide, by decide, hname, rfl⟩

/-- Blanks before the semicolon do not keep a clause from being found. -/
theorem beforeEnd?_spaced :
    isIdent "e".toList = true ∧
      beforeEnd? [] false (some "e".toList) "x end ;".toList = some "x".toList ∧
      ¬ HasClosing [] false "e".toList [] "x".toList "x end ;".toList := by
  refine ⟨by decide, by decide, ?_⟩
  rintro ⟨words, gap, clause, rest, hwords, hclause, ht, -, hrest, -, -⟩
  have hrun := hwords.isRun (fun w hw => absurd hw List.not_mem_nil) (by decide)
  obtain ⟨u, v, rfl, hv⟩ := hclause.exists_last hrun
  have hclosed := dropFinal?_trimEnd_eq_some_iff.2 ⟨rest, hrest,
    (by simpa using ht : "x end ;".toList = "x".toList ++ (gap ++ u) ++ v ++ ';' :: rest)⟩
  have hblank : dropFinal? ';' (trimEnd "x end ;".toList) = some "x end ".toList := by decide
  -- the last word would end with the blank
  obtain ⟨c, hc, hident⟩ := hv.exists_getLast? ("x".toList ++ (gap ++ u))
  rw [← Option.some.inj (hblank.symm.trans hclosed)] at hc
  obtain rfl : ' ' = c := Option.some.inj hc
  cases hident

end Clause

end CanonicalVhdl.Text
