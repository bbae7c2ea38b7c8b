import CanonicalVhdl.Proofs.Room.Foreign
import CanonicalVhdl.Proofs.Settled.Extent
import CanonicalVhdl.Proofs.Settled.Tame

/-!
# What follows a settled statement

Where a scan ends a settled statement, the statement ends by itself: the words that look ahead
see no further than the first token behind it, and that token carries nothing on.  Blanks and
comment lines carry nothing on, and neither does a statement, unless it starts with a word that
does.

## Main definitions

* `Text.StartsAfresh t` — the first token of a text carries nothing on.

## Main statements

* `Text.extent?_of_append` — a settled statement ends by itself where it ends before a sequel.
* `Text.StartsAfresh.isSequel` — a statement that starts afresh carries nothing on.
-/

namespace CanonicalVhdl

open Text Token

namespace Text

/-! ## Statements before a sequel -/

section Cut

variable {u : Text}

/-- What a scan passes before it ends lies inside the statement. -/
theorem exists_of_extentFrom_append {parens position : Nat} {s : Nesting} {before : Option Char}
    {t x r : Text} (hsplit : t ++ u = x ++ r)
    (h : extentFrom parens s 0 (position + x.length) before r = some (position + t.length)) :
    ∃ v, t = x ++ v ∧ r = v ++ u ∧ v.length + x.length = t.length
      ∧ extentFrom parens s 0 (position + x.length) before (v ++ u)
        = some (position + x.length + v.length) := by
  have hlonger := (extentFrom_bounds h).1
  rcases List.append_eq_append_iff.1 hsplit with ⟨v, rfl, rfl⟩ | ⟨v, rfl, rfl⟩
  · rw [List.length_append] at hlonger
    omega
  · rw [List.length_append] at h
    refine ⟨v, rfl, rfl, ?_, ?_⟩
    · rw [List.length_append, Nat.add_comm]
    · rw [h, Nat.add_assoc]

/-- A word that a scan passes before it ends is a word of the statement. -/
theorem exists_of_extentFrom_run {parens position : Nat} {s : Nesting} {before : Option Char}
    {p : Phase} {t w r : Text} (hsplit : t ++ u = w ++ r) (hw : IsRun w)
    (hr : r.head?.any isIdentChar = false) (hp : p.IsAligned t)
    (hsound : (p.after t).isSound = true)
    (h : extentFrom parens s 0 (position + w.length) before r = some (position + t.length)) :
    ∃ v, t = w ++ v ∧ r = v ++ u ∧ v.length < t.length ∧ v.head?.any isIdentChar = false
      ∧ Settled v ∧ extentFrom parens s 0 (position + w.length) before (v ++ u)
        = some (position + w.length + v.length) := by
  obtain ⟨v, rfl, rfl, hlen, h⟩ := exists_of_extentFrom_append hsplit h
  have hne : v ≠ [] := by
    rintro rfl
    exact Nat.lt_irrefl _ (extentFrom_bounds h).1
  rw [List.head?_append_of_ne_nil _ hne] at hr
  rw [Phase.after_append, hp.after_run hw] at hsound
  have := List.length_pos_of_ne_nil hw.ne_nil
  exact ⟨v, rfl, rfl, by omega, hr, hsound, h⟩

/-- **What a scan has read that ends before a text that carries nothing on.** -/
theorem complete_of_extentFrom_append (hu : IsSequel u) (n : Nat) :
    ∀ (t : Text) (parens : Nat) (s : Nesting) (position : Nat) (before : Option Char) (p : Phase),
      t.length ≤ n → p.IsAligned t → (p.after t).isSound = true →
      extentFrom parens s 0 position before (t ++ u) = some (position + t.length) →
      Complete parens s position before t := by
  have hempty : ∀ {parens s position before}, extentFrom parens s 0 position before u ≠ some position :=
    fun h => Nat.lt_irrefl _ (extentFrom_bounds h).1
  induction n with
  | zero =>
    intro t parens s position before p ht hp hsound h
    rw [List.eq_nil_of_length_eq_zero (Nat.le_zero.1 ht)] at h
    exact absurd h hempty
  | succ n ih =>
    intro t parens s position before p ht hp hsound h
    rcases t with _ | ⟨c, t⟩
    · exact absurd h hempty
    rw [List.length_cons] at ht
    have hcons : position + (c :: t).length = position + 1 + t.length := by
      rw [List.length_cons]
      omega
    obtain hat | ⟨x, r, hsplit, hat⟩ := at_split before c (t ++ u)
    · have hcode := at_code_cut hat
      have hrest := hp.step hcode
      by_cases hident : isIdentChar c = true
      · -- a word, or the rest of one
        obtain ⟨w, r, hsplit, hrun, hr, -⟩ := exists_run hident (t ++ u)
        have hr := hr [] atLineEnd_nil
        rw [List.append_nil] at hr
        rw [← List.cons_append] at hsplit
        rw [hsplit] at h
        cases hbefore : before.any isIdentChar with
        | true =>
          rw [extentFrom_tail hrun.ident hbefore] at h
          obtain ⟨v, hv, rfl, hshort, hhead, hv', h⟩ :=
            exists_of_extentFrom_run hsplit hrun hr hp hsound h
          rw [hv]
          exact .run hrun (.inl hbefore) hhead (ih v _ _ _ _ .code (by omega) trivial hv' h)
        | false =>
          cases parens with
          | zero =>
            rw [extentFrom_word hrun hbefore hr] at h
            obtain ⟨next, hnext, h⟩ := Option.bind_eq_some_iff.1 h
            obtain ⟨v, hv, rfl, hshort, hhead, hv', h⟩ :=
              exists_of_extentFrom_run hsplit hrun hr hp hsound h
            have hcomplete := ih v _ _ _ _ .code (by omega) trivial hv' h
            rw [hcomplete.lexed.word_append hu (hcomplete.lexed.fresh hv')] at hnext
            rw [hv]
            exact .word hrun hbefore hhead hnext hcomplete
          | succ parens =>
            rw [extentFrom_word_inner hrun hbefore hr] at h
            obtain ⟨v, hv, rfl, hshort, hhead, hv', h⟩ :=
              exists_of_extentFrom_run hsplit hrun hr hp hsound h
            rw [hv]
            exact .run hrun (.inr (Nat.succ_ne_zero _)) hhead
              (ih v _ _ _ _ .code (by omega) trivial hv' h)
      · -- a single character
        rw [Bool.not_eq_true] at hident
        rw [List.cons_append, hcons] at h
        by_cases hopen : c = '('
        · subst hopen
          rw [extentFrom_open] at h
          exact .opening (ih _ _ _ _ _ _ (by omega) hrest hsound h)
        by_cases hclose : c = ')'
        · subst hclose
          cases parens with
          | zero => simp [extentFrom, at_close, isIdentChar] at h
          | succ parens =>
            rw [extentFrom_close] at h
            exact .closing (ih _ _ _ _ _ _ (by omega) hrest hsound h)
        by_cases hsemi : c = ';' ∧ parens = 0
        · obtain ⟨rfl, rfl⟩ := hsemi
          rw [extentFrom_semicolon] at h
          split at h
          · next hs =>
            have hnil : t = [] := List.eq_nil_of_length_eq_zero (by
              have := Option.some.inj h
              omega)
            subst hnil
            exact .final hs
          · next hs => exact .semicolon hs (ih _ _ _ _ _ _ (by omega) hrest hsound h)
        · rw [extentFrom_code hat (by simp [hident]) hopen hclose (by simpa using hsemi)] at h
          have hcomplete := ih _ _ _ _ _ _ (by omega) hrest hsound h
          exact .code (fun v hv => code_stable hcode hcomplete.lexed.ne_nil hv) hident hopen hclose
            (fun hc hparens => hsemi ⟨hc, hparens⟩) hcomplete
    · -- a comment or a literal
      rw [List.cons_append, hcons, hsplit] at h
      rw [hsplit] at hat
      rcases hat with hat | hat
      · rw [extentFrom_comment hat] at h
        obtain ⟨v, rfl, rfl, hlen, h⟩ := exists_of_extentFrom_append hsplit h
        have hcomment := at_comment_cut hat
        obtain ⟨hafter, hline⟩ := hp.after_comment hcomment
        rw [← List.cons_append, Phase.after_append, hafter] at hsound
        have hcomplete := ih v _ _ _ _ .comment (by omega) hline hsound h
        obtain ⟨d, v, rfl⟩ := List.exists_cons_of_ne_nil hcomplete.lexed.ne_nil
        exact .comment (fun u => comment_stable hcomment _) hcomplete
      · rw [extentFrom_literal hat] at h
        obtain ⟨v, rfl, rfl, hlen, h⟩ := exists_of_extentFrom_append hsplit h
        have hliteral := at_literal_cut hat
        have hrest := (hp.after_literal hsound hliteral).1
        rw [← List.cons_append, Phase.after_append] at hsound
        have hcomplete := ih v _ _ _ _ _ (by omega) hrest hsound h
        obtain ⟨d, v, rfl⟩ := List.exists_cons_of_ne_nil hcomplete.lexed.ne_nil
        exact .literal (fun u => literal_stable hliteral _) hcomplete

/-- **A settled statement that a text carrying nothing on follows ends where it ends.** -/
theorem extent?_of_append {t : Text} (ht : Settled t) (hu : IsSequel u)
    (h : extent? (t ++ u) = some t.length) : extent? t = some t.length := by
  have hcomplete := complete_of_extentFrom_append hu t.length t 0 .start 0 none .code (Nat.le_refl _)
    trivial ht (by rw [Nat.zero_add]; exact h)
  have hextent := hcomplete.extentFrom_append isSequel_nil (p := .code) trivial ht
  rwa [List.append_nil, Nat.zero_add] at hextent

end Cut

/-! ## Sequels -/

/-- A single character is no word that carries a statement on. -/
theorem sameWord_char {w : Text} (hw : w ∈ continuationWords) (c : Char) : sameWord w [c] = false := by
  have hlen : ∀ w ∈ continuationWords, w.length ≠ 1 := by decide
  rw [Bool.eq_false_iff]
  exact fun hsame => hlen w hw (length_eq_of_sameWord hsame)

/-- Blanks carry nothing on. -/
theorem IsSequel.cons_blank {c : Char} {u : Text} (hc : isBlank c = true) (hu : IsSequel u) :
    IsSequel (c :: u) := by
  have hgap := isGap_of_isBlank hc
  have hident : (some c).any isIdentChar = false := isIdentChar_of_isGap hgap
  refine ⟨fun h => ne_of_isGap (d := '\'') hgap (by decide) (Option.some.inj h), ?_, ?_⟩
  · intro position before token p hnext hbefore w hw
    cases hblank : isAsciiBlank c with
    | true =>
      have hskip : skipTrivia ⟨position, before, c :: u⟩ = skipTrivia ⟨position + 1, some c, u⟩ := by
        simp [skipTrivia, triviaEnd, hblank]
      rw [nextToken?_congr hskip] at hnext
      exact hu.token _ _ _ _ hnext hident w hw
    | false =>
      -- a blank that is not ASCII is a token of its own
      rw [nextToken?_code hblank hident (at_gap hgap before u)] at hnext
      obtain ⟨rfl, -⟩ := Prod.mk.inj (Option.some.inj hnext)
      exact sameWord_char hw c
  · intro test htest position depth before _
    rw [findPointFrom_inside htest (at_gap hgap before u) (ne_of_isGap hgap (by decide))
      (ne_of_isGap hgap (by decide))]
    exact hu.inside test htest _ _ _ hident

theorem IsSequel.blank_append {g u : Text} (hg : g.all isBlank = true) (hu : IsSequel u) :
    IsSequel (g ++ u) := by
  induction g with
  | nil => exact hu
  | cons c g ih =>
    rw [List.all_cons, Bool.and_eq_true] at hg
    exact (ih hg.2).cons_blank hg.1

theorem isSequel_blank {g : Text} (hg : g.all isBlank = true) : IsSequel g := by
  have h := isSequel_nil.blank_append hg
  rwa [List.append_nil] at h

/-- A comment line carries nothing on. -/
theorem IsSequel.comment {x u : Text} (hx : '\n' ∉ x) (hline : AtLineEnd u) (hu : IsSequel u) :
    IsSequel ('-' :: '-' :: (x ++ u)) := by
  refine ⟨by simp, ?_, ?_⟩
  · intro position before token p hnext _
    rw [nextToken?_congr (skipTrivia_comment hx hline position before)] at hnext
    obtain rfl | ⟨v, rfl⟩ := hline.cases
    · cases hnext
    · exact hu.token _ none _ _ hnext rfl
  · intro test htest position depth before _
    refine (findPointFrom_comment (x := '-' :: x) (at_comment hx hline before)).trans ?_
    obtain rfl | ⟨v, rfl⟩ := hline.cases
    · rfl
    · have hat : ∀ before, Lexeme.at before ('\n' :: v) = .code := fun before =>
        at_gap (by decide) before v
      have hrest := hu.inside test htest (position + 1 + ('-' :: x).length) depth none rfl
      rw [findPointFrom_inside htest (hat _) (by decide) (by decide)] at hrest ⊢
      exact hrest

/-- A text that starts neither with a tick nor with a word that carries a statement on. -/
structure StartsAfresh (t : Text) : Prop where
  /-- The text starts with no tick. -/
  head : t.head? ≠ some '\''
  /-- The text starts with no continuation. -/
  word : ∀ w ∈ continuationWords, standsAt w none t = false

/-- Continuations are reserved words. -/
theorem isBarred_of_mem_continuationWords {w : Text} (hw : w ∈ continuationWords) :
    IsBarred w ∧ w.head?.any Char.isAlpha = true := by
  have key : ∀ w ∈ continuationWords, IsBarred w ∧ w.head?.any Char.isAlpha = true := by decide
  exact key w hw

/-- If the first token of a text is a word, the text starts with it. -/
theorem exists_of_nextToken?_run {c : Char} {t token : Text} {position : Nat}
    {before : Option Char} {p : Place} (hblank : isAsciiBlank c = false)
    (hdash : c = '-' → t.head? ≠ some '-')
    (h : nextToken? ⟨position, before, c :: t⟩ = some (token, p)) (hrun : IsRun token) :
    ∃ r, c :: t = token ++ r ∧ r.head?.any isIdentChar = false := by
  by_cases hident : isIdentChar c = true
  · obtain ⟨x, r, hsplit, hx, hr, -⟩ := exists_run hident t
    have hrest := hr [] atLineEnd_nil
    rw [List.append_nil] at hrest
    rw [hsplit, nextToken?_word hx hrest] at h
    obtain ⟨rfl, -⟩ := Prod.mk.inj (Option.some.inj h)
    exact ⟨r, hsplit, hrest⟩
  · rw [nextToken?_of_skipTrivia (skipTrivia_here hblank hdash position)] at h
    obtain ⟨rfl, -⟩ := Prod.mk.inj (Option.some.inj h)
    cases hlen : tokenLength before c t with
    | zero =>
      rw [hlen] at hrun
      exact absurd rfl hrun.ne_nil
    | succ n =>
      rw [hlen] at hrun
      exact absurd (List.all_eq_true.1 hrun.ident c List.mem_cons_self) hident

/-- **A statement that starts afresh carries nothing on.** -/
theorem StartsAfresh.isSequel {c : Char} {t u : Text} (h : StartsAfresh (c :: t))
    (hblank : isAsciiBlank c = false) (hdash : c = '-' → t.head? ≠ some '-')
    (hend : extent? (c :: t) = some (c :: t).length) (hu : IsSequel u) : IsSequel (c :: t ++ u) := by
  have hlast := getLast?_take_of_extent? hend
  rw [List.take_length] at hlast
  refine ⟨h.head, ?_, ?_⟩
  · intro position before token p hnext hbefore w hw
    obtain ⟨hbarred, halpha⟩ := isBarred_of_mem_continuationWords hw
    have hrun := (hbarred.word halpha).1
    rw [Bool.eq_false_iff]
    intro hsame
    have htoken := hrun.of_sameWord hsame
    have hdash' : c = '-' → (t ++ u).head? ≠ some '-' := by
      intro hc
      rw [List.head?_append_of_ne_nil]
      · exact hdash hc
      · rintro rfl
        rw [hc] at hlast
        cases hlast
    obtain ⟨r, hsplit, hr⟩ := exists_of_nextToken?_run hblank hdash' hnext htoken
    -- the statement ends with its semicolon, so it is more than the word
    rcases List.append_eq_append_iff.1 (show c :: t ++ u = token ++ r from hsplit)
      with ⟨v, rfl, -⟩ | ⟨v, hv, rfl⟩
    · exact htoken.not_mem (c := ';') (by decide) (List.mem_append_left v (List.mem_of_getLast? hlast))
    · have hne : v ≠ [] := by
        rintro rfl
        rw [hv, List.append_nil] at hlast
        exact htoken.not_mem (c := ';') (by decide) (List.mem_of_getLast? hlast)
      rw [List.head?_append_of_ne_nil _ hne] at hr
      have hstands : standsAt w none (token ++ v) = true :=
        standsAt_of_word hrun halpha hsame hr rfl
      rw [← hv, h.word w hw] at hstands
      cases hstands
  · intro test htest position depth before hbefore
    rw [extent?, ← extentFrom_before h.head hbefore] at hend
    have hcomplete := complete_of_extentFrom _ (c :: t) 0 .start 0 before (Nat.le_refl _)
      (by rw [Nat.zero_add]; exact hend)
    obtain ⟨s, hs⟩ := hcomplete.lexed.exists_concat
    have hafter : (lastOr before (c :: t)).any isIdentChar = false := by
      rw [hs, lastOr_append]
      rfl
    exact (hcomplete.findPointFrom htest hu.head position depth).trans
      (hu.inside test htest _ _ _ hafter)

end Text
end CanonicalVhdl
