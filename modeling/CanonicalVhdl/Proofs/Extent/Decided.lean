import CanonicalVhdl.Proofs.Design.FinalLine
import CanonicalVhdl.Proofs.Extent.Ahead
import CanonicalVhdl.Proofs.Room.Foreign

/-!
# The extent of a statement is its own

Where a statement ends is decided inside it.  Cut off behind its final semicolon it ends
there all the same, and so it does in front of any other text, if no word that looks ahead
lacks what it looks for.  Two exceptions remain.  A search that starts afresh behind
`function` or `procedure` must not start with a tick, which means something else there; and
nothing that follows may start with one, since it could make the semicolon a literal.

## Main definitions

* `CodePoint.word`, `CodePoint.afterWord` — the word that starts at a code point.
* `Text.isTicked w p` — the word `w` starts a signature, and a tick stands behind it.
* `Text.EndsAt m` — a semicolon stands outside parentheses.
* `Text.EndsAlike u u'` — two scans of a statement that different texts follow end alike.

## Main statements

* `Text.endsAt_of_extentFrom` — a scan reaches the semicolon where it ends.
* `Text.extentFrom_swap` — what follows a statement does not change where its scan ends.
* `Text.extent?_decided` — the extent of a statement is its own.
-/

namespace CanonicalVhdl

open Text Token

namespace CodePoint

/-- The word that starts at a code point. -/
def word (p : CodePoint) : Text := p.rest.takeWhile isIdentChar

/-- The place behind that word. -/
def afterWord (p : CodePoint) : Place := advance p.word.length ⟨p.position, p.before, p.rest⟩

end CodePoint

namespace Text

/-! ## The words of the code -/

/-- Whether a property holds of every word of the code from some place on, together with the
place behind the word. -/
def AllWords (P : Text → Place → Prop) (position : Nat) (before : Option Char) (t : Text) : Prop :=
  ∃ depth, ∀ p ∈ codePointsFrom [] 0 position depth before t,
    p.startsWord = true → P p.word p.afterWord

section Words

variable {P : Text → Place → Prop} {position : Nat} {before : Option Char} {c : Char} {x w t : Text}

theorem AllWords.of_code (hat : Lexeme.at before (c :: t) = .code)
    (h : AllWords P position before (c :: t)) : AllWords P (position + 1) (some c) t := by
  obtain ⟨depth, h⟩ := h
  rw [codePointsFrom_code _ _ hat] at h
  exact ⟨_, fun p hp => h p (List.mem_cons_of_mem _ hp)⟩

theorem AllWords.of_lexeme (hat : Lexeme.at before (c :: (x ++ t)) = .literal (x.length + 1)
      ∨ Lexeme.at before (c :: (x ++ t)) = .comment (x.length + 1))
    (h : AllWords P position before (c :: (x ++ t))) :
    AllWords P (position + 1 + x.length) (lastOr (some c) x) t := by
  obtain ⟨depth, h⟩ := h
  rcases hat with hat | hat
  · rw [codePointsFrom_literal _ _ hat] at h
    exact ⟨depth, fun p hp => h p (List.mem_cons_of_mem _ hp)⟩
  · rw [codePointsFrom_comment _ _ hat] at h
    exact ⟨depth, h⟩

theorem AllWords.of_run (hw : w.all isIdentChar = true)
    (h : AllWords P position before (w ++ t)) :
    AllWords P (position + w.length) (lastOr before w) t := by
  induction w generalizing position before with
  | nil => exact h
  | cons c w ih =>
    rw [List.all_cons, Bool.and_eq_true] at hw
    have hrest := ih hw.2 (AllWords.of_code (at_ident _ hw.1) h)
    rw [lastOr_cons, List.length_cons, show position + (w.length + 1) = position + 1 + w.length by
      omega]
    exact hrest

/-- The property holds of the first word. -/
theorem AllWords.word (hw : IsRun w) (hbefore : before.any isIdentChar = false)
    (ht : t.head?.any isIdentChar = false) (h : AllWords P position before (w ++ t)) :
    P w ⟨position + w.length, lastOr before w, t⟩ := by
  obtain ⟨depth, h⟩ := h
  obtain ⟨c, v, rfl⟩ := List.exists_cons_of_ne_nil hw.ne_nil
  have hident : isIdentChar c = true := List.all_eq_true.1 hw.ident c List.mem_cons_self
  rw [List.cons_append, codePointsFrom_code _ _ (at_ident _ hident)] at h
  have hword := h _ List.mem_cons_self (by simp [CodePoint.startsWord, hident, hbefore])
  have hrun : (c :: v ++ t).takeWhile isIdentChar = c :: v := takeWhile_isIdentChar hw.ident ht
  simp only [CodePoint.word, CodePoint.afterWord, CodePoint.rest, hrun, advance,
    ← List.cons_append, List.take_left, List.drop_left] at hword
  exact hword

end Words

/-- Whether a word that starts a signature is followed by a tick, given the place behind it. -/
def isTicked (w : Text) (p : Place) : Bool :=
  (sameWord w "function".toList || sameWord w "procedure".toList) && p.rest.head? == some '\''

/-! ## Where a scan ends -/

section Scan

variable {parens position m : Nat} {st next : Nesting} {before : Option Char} {w v : Text}

/-- Only `end` closes a construct. -/
theorem Nesting.le_depth_of_word {p : Place} (h : st.word w p = some next)
    (hw : sameWord w "end".toList = false) : st.depth ≤ next.depth := by
  simp only [Nesting.word, hw, Bool.false_eq_true, if_false] at h
  split_ifs at h <;> obtain rfl := Option.some.inj h <;> simp

/-- A scan goes on behind a word with as many open constructs, unless the word is `end`. -/
theorem exists_extentFrom_run (hw : IsRun w) (hv : v.head?.any isIdentChar = false)
    (h : extentFrom parens st 0 position before (w ++ v) = some m) :
    ∃ next, (sameWord w "end".toList = false → st.depth ≤ next.depth)
      ∧ extentFrom parens next 0 (position + w.length) (lastOr before w) v = some m := by
  cases hbefore : before.any isIdentChar with
  | true =>
    rw [extentFrom_tail hw.ident hbefore] at h
    exact ⟨st, fun _ => Nat.le_refl _, h⟩
  | false =>
    cases parens with
    | zero =>
      rw [extentFrom_word hw hbefore hv] at h
      obtain ⟨next, hnext, h⟩ := Option.bind_eq_some_iff.1 h
      exact ⟨next, Nesting.le_depth_of_word hnext, h⟩
    | succ parens =>
      rw [extentFrom_word_inner hw hbefore hv] at h
      exact ⟨st, fun _ => Nat.le_refl _, h⟩

/-- Whether a semicolon stands in a text outside parentheses, `m` characters from the start of the
whole text through it. -/
def EndsAt (m parens position : Nat) (before : Option Char) (t : Text) : Prop :=
  ∃ s r, t = s ++ ';' :: r ∧ m = position + (s.length + 1) ∧ Reaches before parens s (';' :: r) 0

theorem EndsAt.run (hw : w.all isIdentChar = true)
    (h : EndsAt m parens (position + w.length) (lastOr before w) v) :
    EndsAt m parens position before (w ++ v) := by
  obtain ⟨s, r, rfl, rfl, hreach⟩ := h
  refine ⟨w ++ s, r, by rw [List.append_assoc], ?_, (reaches_run hw _).append hreach⟩
  rw [List.length_append]
  omega

theorem EndsAt.code {c : Char} {t : Text} (hat : Lexeme.at before (c :: t) = .code)
    (h : EndsAt m (depthAfter c parens) (position + 1) (some c) t) :
    EndsAt m parens position before (c :: t) := by
  obtain ⟨s, r, rfl, rfl, hreach⟩ := h
  refine ⟨c :: s, r, rfl, ?_, .code hat hreach⟩
  rw [List.length_cons]
  omega

theorem EndsAt.lexeme {c : Char} {x r : Text}
    (hat : Lexeme.at before (c :: (x ++ r)) = .literal (x.length + 1)
      ∨ Lexeme.at before (c :: (x ++ r)) = .comment (x.length + 1))
    (h : EndsAt m parens (position + 1 + x.length) (lastOr (some c) x) r) :
    EndsAt m parens position before (c :: (x ++ r)) := by
  obtain ⟨s, u, rfl, rfl, hreach⟩ := h
  refine ⟨c :: (x ++ s), u, by simp, ?_, .lexeme hat hreach⟩
  rw [List.length_cons, List.length_append]
  omega

/-- A scan that ends has reached the semicolon where it ends, outside parentheses. -/
theorem endsAt_of_extentFrom (n : Nat) :
    ∀ (t : Text) (parens : Nat) (st : Nesting) (position : Nat) (before : Option Char) (m : Nat),
      t.length ≤ n → extentFrom parens st 0 position before t = some m →
      EndsAt m parens position before t := by
  induction n with
  | zero =>
    intro t parens st position before m ht h
    rw [List.eq_nil_of_length_eq_zero (Nat.le_zero.1 ht)] at h
    cases h
  | succ n ih =>
    intro t parens st position before m ht h
    rcases t with _ | ⟨c, t⟩
    · cases h
    rw [List.length_cons] at ht
    obtain hat | ⟨x, r, rfl, hat⟩ := at_split before c t
    · by_cases hident : isIdentChar c = true
      · -- a word, or the rest of one
        obtain ⟨w, v, hsplit, hrun, hrest, -⟩ := exists_run hident t
        have hv := hrest [] atLineEnd_nil
        rw [List.append_nil] at hv
        have hlen := congrArg List.length hsplit
        rw [List.length_cons, List.length_append] at hlen
        have hpos := List.length_pos_of_ne_nil hrun.ne_nil
        rw [hsplit] at h ⊢
        obtain ⟨next, -, h⟩ := exists_extentFrom_run hrun hv h
        exact (ih v _ _ _ _ _ (by omega) h).run hrun.ident
      · -- a single character
        rw [Bool.not_eq_true] at hident
        by_cases hsemi : c = ';' ∧ parens = 0
        · obtain ⟨rfl, rfl⟩ := hsemi
          rw [extentFrom_semicolon] at h
          split at h
          · obtain rfl := Option.some.inj h
            exact ⟨[], t, rfl, rfl, .here⟩
          · exact (ih t _ _ _ _ _ (by omega) h).code hat
        by_cases hopen : c = '('
        · subst hopen
          rw [extentFrom_open] at h
          exact (ih t _ _ _ _ _ (by omega) h).code hat
        by_cases hclose : c = ')'
        · subst hclose
          cases parens with
          | zero => simp [extentFrom, at_close, isIdentChar] at h
          | succ parens =>
            rw [extentFrom_close] at h
            exact (ih t _ _ _ _ _ (by omega) h).code hat
        · rw [extentFrom_code hat (by simp [hident]) hopen hclose (by simpa using hsemi)] at h
          refine EndsAt.code hat ?_
          rw [depthAfter_self hopen hclose]
          exact ih t _ _ _ _ _ (by omega) h
    · -- a comment or a literal
      rw [List.length_append] at ht
      have hstep : extentFrom parens st 0 position before (c :: (x ++ r))
          = extentFrom parens st 0 (position + 1 + x.length) (lastOr (some c) x) r := by
        rcases hat with hat | hat
        · exact extentFrom_comment hat
        · exact extentFrom_literal hat
      rw [hstep] at h
      exact (ih r _ _ _ _ _ (by omega) h).lexeme hat.symm

end Scan

/-! ## Words whose tokens run out -/

section RunsOut

variable {r u w s : Text} {before : Option Char} {tokens : List Text} {p p' : Place}
  {st next : Nesting} {position : Nat}

/-- What a word opens depends on the word up to case. -/
theorem opensConstruct_of_sameWord {k : Text} (h : sameWord w k = true) (p : Place) :
    opensConstruct w p = opensConstruct k p := by
  have hfold : ∀ v, sameWord w v = sameWord k v := fun v => by
    rw [sameWord, sameWord, sameWord_iff.1 h]
  have hany : ∀ l : List Text, l.any (sameWord w) = l.any (sameWord k) := fun l => by
    rw [show sameWord w = sameWord k from funext hfold]
  simp only [opensConstruct, hfold, hany]

/-- A word of a unit opens nothing when only the semicolon is left to look at. -/
theorem RunsOut.opensConstruct_eq_false (hw : RunsOut w tokens)
    (h : HasTokens r before s tokens) (position : Nat) :
    opensConstruct w ⟨position, before, s ++ [';']⟩ = false := by
  have hnext : ∀ n ≤ 4, nextTokens n ⟨position, before, s ++ [';']⟩
      = (tokens ++ [[';']]).take n := fun n hn => h.nextTokens (harmless_nil r) 4 n hn position
  have hcomponent : ∀ p token body, nextTokens 4 p = token :: body →
      opensConstruct "component".toList p
        = opensComponent (if headed ["is"] body then body.drop 1 else body) := by
    intro p token body hp
    rw [opensConstruct, hp]
    rfl
  have hentity : ∀ p, opensConstruct "entity".toList p
    = headed ["is"] ((nextTokens 2 p).drop 1) := fun _ => rfl
  have hpackage : ∀ p, opensConstruct "package".toList p
    = if headed ["body"] (nextTokens 3 p) then headed ["is"] ((nextTokens 3 p).drop 2)
      else headed ["is"] ((nextTokens 3 p).drop 1) := fun _ => rfl
  rcases hw with ⟨hunit, rfl⟩ | ⟨hw, b, rfl, hbody⟩
  · obtain ⟨k, hk, hsame⟩ := List.any_eq_true.1 hunit
    rw [opensConstruct_of_sameWord hsame]
    simp only [unitWords, List.map_cons, List.map_nil, List.mem_cons, List.not_mem_nil,
      or_false] at hk
    rcases hk with rfl | rfl | rfl
    · rw [hcomponent _ [';'] [] (hnext 4 (by decide))]
      decide
    · rw [hentity, hnext 2 (by decide)]
      decide
    · rw [hpackage, hnext 3 (by decide)]
      decide
  · rw [opensConstruct_of_sameWord hw, hpackage, hnext 3 (by decide)]
    simp only [List.cons_append, List.nil_append, List.take_succ_cons, headed_cons, hbody, if_true]
    rfl

/-- Inside a construct the statement does not end with a semicolon that nothing but blanks and
comments precede. -/
theorem IsTrivia.extentFrom_ne {g : Text} (hg : IsTrivia r before g []) (hu : Harmless r u)
    (hdepth : st.depth ≠ 0) :
    extentFrom 0 st 0 position before (g ++ ';' :: u) ≠ some (position + (g.length + 1)) := by
  intro h
  have hskip := hg.extent u hu 0 st position
  rw [List.nil_append] at hskip
  rw [hskip, extentFrom_semicolon, if_neg hdepth] at h
  have := (extentFrom_bounds h).1
  omega

/-- Inside a construct the statement does not end where the tokens run out. -/
theorem RunsOut.extentFrom_ne (hw : RunsOut w tokens) (h : HasTokens r before s tokens)
    (hu : Harmless r u) (hdepth : st.depth ≠ 0) :
    extentFrom 0 st 0 position before (s ++ ';' :: u) ≠ some (position + (s.length + 1)) := by
  rcases hw with ⟨-, rfl⟩ | ⟨-, b, rfl, hbody⟩
  · obtain ⟨hg⟩ := h
    exact hg.extentFrom_ne hu hdepth
  · intro hend
    obtain _ | @⟨_, g, _, v, _, hg, htoken, hlast⟩ := h
    obtain ⟨hv⟩ := hlast
    have hrun : IsRun b := IsRun.of_sameWord (show IsRun "body".toList by decide) hbody
    have hhead : (v ++ ';' :: u).head?.any isIdentChar = false := by
      cases v with
      | nil => rfl
      | cons e v => exact htoken.whole hrun
    rw [List.append_assoc, hg.extent u hu, List.append_assoc] at hend
    obtain ⟨next, hle, hend⟩ := exists_extentFrom_run hrun hhead hend
    have hnot : sameWord b "end".toList = false := by
      rw [sameWord, ← sameWord_iff.1 hbody]
      decide
    refine hv.extentFrom_ne hu (by have := hle hnot; omega) (hend.trans ?_)
    rw [List.length_append, List.length_append]
    congr 1
    omega

end RunsOut

/-! ## Two scans of a statement -/

section Swap

variable {r u u' w s : Text} {before : Option Char} {tokens : List Text} {p p' : Place}
  {st next : Nesting} {parens position : Nat}

theorem Nesting.word_congr (h : opensConstruct w p = opensConstruct w p') (st : Nesting) :
    st.word w p = st.word w p' := by
  simp only [Nesting.word, h]

/-- A word of a unit that opens a construct counts it. -/
theorem Nesting.depth_of_opens (hunit : unitWords.any (sameWord w) = true)
    (hopens : opensConstruct w p = true) (hend : st.afterEnd = false)
    (h : st.word w p = some next) : next.depth ≠ 0 := by
  obtain ⟨k, hk, hsame⟩ := List.any_eq_true.1 hunit
  have hother : ∀ k ∈ unitWords,
      ∀ v ∈ ["end", "then", "is", "elsif", "else", "generate"], sameWord k v.toList = false := by
    decide
  have hfold : ∀ v ∈ ["end", "then", "is", "elsif", "else", "generate"],
      sameWord w v.toList = false := fun v hv => by
    rw [sameWord, sameWord_iff.1 hsame]
    exact hother k hk v hv
  simp only [List.forall_mem_cons] at hfold
  obtain ⟨h1, h2, h3, h4, h5, h6, -⟩ := hfold
  simp only [Nesting.word, hend, h1, h2, h3, h4, h5, h6, hopens, Bool.or_self, Bool.false_and,
    Bool.false_eq_true, if_false, if_true, Option.some.injEq] at h
  rw [← h]
  exact Nat.succ_ne_zero _

/-- **What a word makes of the nesting** is the same whatever follows the statement, when the
statement ends where the scan with one of the texts ends. -/
theorem word_swap (h : Reaches before 0 s (';' :: r) 0) (hu : Harmless r u) (hu' : Harmless r u')
    (htick : isTicked w ⟨position, before, s ++ ';' :: r⟩ = false)
    (hbare : u' = [] ∨ isBare w ⟨position, before, s ++ [';']⟩ = false)
    (hnext : st.word w ⟨position, before, s ++ ';' :: u⟩ = some next)
    (hend : extentFrom 0 next 0 position before (s ++ ';' :: u)
      = some (position + (s.length + 1))) :
    st.word w ⟨position, before, s ++ ';' :: u'⟩ = some next := by
  obtain ⟨tokens, htokens⟩ := Reaches.exists_hasTokens s.length (Nat.le_refl _) h
  by_cases hruns : RunsOut w tokens
  · -- the word would be bare, so nothing follows
    have hnil : u' = [] := hbare.resolve_right (by rw [htokens.isBare hruns]; decide)
    subst hnil
    have hfalse := hruns.opensConstruct_eq_false htokens position
    cases hafter : st.afterEnd with
    | true =>
      rw [← hnext]
      simp only [Nesting.word, hafter, if_true]
    | false =>
      rw [← hnext]
      refine Nesting.word_congr ?_ st
      rw [hfalse, eq_comm, Bool.eq_false_iff]
      intro hopens
      have hunit : unitWords.any (sameWord w) = true := by
        rcases hruns with ⟨hunit, -⟩ | ⟨hpackage, -⟩
        · exact hunit
        · exact List.any_eq_true.2 ⟨_, by decide, hpackage⟩
      exact hruns.extentFrom_ne htokens hu (Nesting.depth_of_opens hunit hopens hafter hnext) hend
  · rw [← hnext]
    refine Nesting.word_congr (h.opensConstruct_eq hu' hu htokens hruns (fun hw hhead => ?_) _) st
    rw [isTicked, hhead, beq_self_eq_true, Bool.and_true, Bool.or_eq_false_iff] at htick
    rcases hw with hw | hw
    · rw [hw] at htick
      exact absurd htick.1 (by decide)
    · rw [hw] at htick
      exact absurd htick.2 (by decide)

/-- Whether the scan of a statement that `u` follows, if it ends at the semicolon behind `s`, ends
there as well when `u'` follows. -/
def EndsAlike (u u' : Text) (parens position : Nat) (before : Option Char) (s : Text) : Prop :=
  ∀ st : Nesting,
    extentFrom parens st 0 position before (s ++ ';' :: u) = some (position + (s.length + 1)) →
    extentFrom parens st 0 position before (s ++ ';' :: u') = some (position + (s.length + 1))

/-- At the semicolon. -/
theorem endsAlike_nil : EndsAlike u u' 0 position before [] := by
  intro st hend
  rw [List.nil_append, extentFrom_semicolon] at hend ⊢
  split at hend
  · next hdepth =>
    rw [if_pos hdepth]
    rfl
  · exact absurd (extentFrom_bounds hend).1 (Nat.lt_irrefl _)

/-- Behind a word, or the rest of one. -/
theorem EndsAlike.run {v : Text} (hv : EndsAlike u u' parens (position + w.length) (lastOr before w) v)
    (hw : IsRun w) (hhead : ∀ u, (v ++ ';' :: u).head?.any isIdentChar = false)
    (hreach : Reaches (lastOr before w) parens v (';' :: r) 0) (hu : Harmless r u) (hu' : Harmless r u')
    (hticks : AllWords (fun w p => isTicked w p = false) position before (w ++ (v ++ ';' :: r)))
    (hbare : u' = [] ∨ AllWords (fun w p => isBare w p = false) position before (w ++ (v ++ [';']))) :
    EndsAlike u u' parens position before (w ++ v) := by
  intro st hend
  have hlen : position + ((w ++ v).length + 1) = position + w.length + (v.length + 1) := by
    rw [List.length_append]
    omega
  rw [hlen, List.append_assoc] at hend ⊢
  cases hbefore : before.any isIdentChar with
  | true =>
    rw [extentFrom_tail hw.ident hbefore] at hend ⊢
    exact hv st hend
  | false =>
    cases parens with
    | zero =>
      rw [extentFrom_word hw hbefore (hhead _)] at hend ⊢
      obtain ⟨next, hnext, hend⟩ := Option.bind_eq_some_iff.1 hend
      have hword := word_swap hreach hu hu' (hticks.word hw hbefore (hhead r))
        (hbare.imp_right fun h => h.word hw hbefore (hhead [])) hnext hend
      rw [hword, Option.bind_some]
      exact hv next hend
    | succ parens =>
      rw [extentFrom_word_inner hw hbefore (hhead _)] at hend ⊢
      exact hv st hend

/-- Behind a single character of code. -/
theorem EndsAlike.code {c : Char} (hs : EndsAlike u u' (depthAfter c parens) (position + 1) (some c) s)
    (hat : Lexeme.at before (c :: (s ++ ';' :: r)) = .code) (hident : isIdentChar c = false)
    (hu : Harmless r u) (hu' : Harmless r u') : EndsAlike u u' parens position before (c :: s) := by
  intro st hend
  have hlen : position + ((c :: s).length + 1) = position + 1 + (s.length + 1) := by
    rw [List.length_cons]
    omega
  rw [hlen, List.cons_append] at hend ⊢
  by_cases hsemi : c = ';' ∧ parens = 0
  · obtain ⟨rfl, rfl⟩ := hsemi
    rw [extentFrom_semicolon] at hend ⊢
    split at hend
    · have := Option.some.inj hend
      omega
    · next hdepth =>
      rw [if_neg hdepth]
      exact hs _ hend
  by_cases hopen : c = '('
  · subst hopen
    rw [extentFrom_open] at hend ⊢
    exact hs st hend
  by_cases hclose : c = ')'
  · subst hclose
    cases parens with
    | zero => simp [extentFrom, at_close, isIdentChar] at hend
    | succ parens =>
      rw [extentFrom_close] at hend ⊢
      exact hs st hend
  · have hstep : ∀ {u}, Harmless r u → extentFrom parens st 0 position before (c :: (s ++ ';' :: u))
        = extentFrom parens _ 0 (position + 1) (some c) (s ++ ';' :: u) := fun hu =>
      extentFrom_code (at_code_harmless hat hu) (by simp [hident]) hopen hclose (by simpa using hsemi)
    rw [depthAfter_self hopen hclose] at hs
    rw [hstep hu] at hend
    rw [hstep hu']
    exact hs _ hend

/-- Behind a literal or a comment. -/
theorem EndsAlike.lexeme {c : Char} {x : Text}
    (hs : EndsAlike u u' parens (position + 1 + x.length) (lastOr (some c) x) s)
    (hat : Lexeme.at before (c :: (x ++ (s ++ ';' :: r))) = .literal (x.length + 1)
      ∨ Lexeme.at before (c :: (x ++ (s ++ ';' :: r))) = .comment (x.length + 1)) :
    EndsAlike u u' parens position before (c :: (x ++ s)) := by
  intro st hend
  have hlen : position + ((c :: (x ++ s)).length + 1) = position + 1 + x.length + (s.length + 1) := by
    rw [List.length_cons, List.length_append]
    omega
  have hstep : ∀ u, extentFrom parens st 0 position before (c :: (x ++ (s ++ ';' :: u)))
      = extentFrom parens st 0 (position + 1 + x.length) (lastOr (some c) x) (s ++ ';' :: u) := by
    intro u
    rcases hat with hat | hat
    · exact extentFrom_literal (at_literal_harmless hat u)
    · exact extentFrom_comment (at_comment_harmless hat u)
  rw [hlen, List.cons_append, List.append_assoc, hstep] at hend ⊢
  exact hs st hend

/-- **Two scans of a statement that different texts follow** end alike. -/
theorem extentFrom_swap (hu : Harmless r u) (hu' : Harmless r u') (n : Nat) :
    ∀ (s : Text) (parens position : Nat) (before : Option Char),
      s.length ≤ n → Reaches before parens s (';' :: r) 0 →
      AllWords (fun w p => isTicked w p = false) position before (s ++ ';' :: r) →
      (u' = [] ∨ AllWords (fun w p => isBare w p = false) position before (s ++ [';'])) →
      EndsAlike u u' parens position before s := by
  induction n with
  | zero =>
    intro s parens position before hs h _ _
    obtain rfl := List.eq_nil_of_length_eq_zero (Nat.le_zero.1 hs)
    cases h
    exact endsAlike_nil
  | succ n ih =>
    intro s parens position before hs h hticks hbare
    cases h with
    | here => exact endsAlike_nil
    | @code _ _ _ c s _ hat h =>
      rw [List.length_cons] at hs
      have hcut : Lexeme.at before (c :: (s ++ [';'])) = .code :=
        at_code_harmless hat (harmless_nil r)
      by_cases hident : isIdentChar c = true
      · -- a word, or the rest of one
        obtain ⟨w, v, hsplit, hrun, hrest, hshort⟩ := exists_run hident s
        have hv := hrest [] atLineEnd_nil
        rw [List.append_nil] at hv
        have hhead : ∀ u, (v ++ ';' :: u).head?.any isIdentChar = false := by
          intro u
          cases v with
          | nil => rfl
          | cons e v => exact hv
        have hreach : Reaches (lastOr before w) parens v (';' :: r) 0 :=
          (show Reaches before parens (w ++ v) (';' :: r) 0 from hsplit ▸ .code hat h).of_run
            hrun.ident
        rw [hsplit, List.append_assoc] at hticks
        rw [hsplit, List.append_assoc] at hbare
        have hlater := ih v parens _ _ (by omega) hreach (hticks.of_run hrun.ident)
          (hbare.imp_right fun h => h.of_run hrun.ident)
        rw [hsplit]
        exact hlater.run hrun hhead hreach hu hu' hticks hbare
      · -- a single character
        rw [Bool.not_eq_true] at hident
        have hlater := ih s _ _ _ (by omega) h (hticks.of_code hat) (hbare.imp_right (·.of_code hcut))
        exact hlater.code hat hident hu hu'
    | @lexeme _ _ _ _ x s _ hat h =>
      have hcut := hat.imp (at_literal_harmless · []) (at_comment_harmless · [])
      rw [List.length_cons, List.length_append] at hs
      rw [List.cons_append, List.append_assoc] at hticks
      rw [List.cons_append, List.append_assoc] at hbare
      have hlater := ih s _ _ _ (by omega) h (hticks.of_lexeme hat) (hbare.imp_right (·.of_lexeme hcut))
      exact hlater.lexeme hat

end Swap

/-- **The extent of a statement is decided by the statement.**  If no tick stands directly
behind `function` or `procedure`, the text cut off behind the statement has the same extent;
and so has the statement in front of any text that starts with no tick, if no word of a unit
in the statement lacks what it looks for. -/
theorem extent?_decided {t : Text} {n : Nat}
    (hticks : ∀ p ∈ codePoints t, p.startsWord = true → isTicked p.word p.afterWord = false)
    (h : extent? t = some n) :
    extent? (t.take n) = some n ∧
      ((∀ p ∈ codePoints (t.take n), p.startsWord = true → isBare p.word p.afterWord = false) →
        ∀ u : Text, u.head? ≠ some '\'' → extent? (t.take n ++ u) = some n) := by
  obtain ⟨s, r, rfl, rfl, hreach⟩ :=
    endsAt_of_extentFrom t.length t 0 .start 0 none n (Nat.le_refl _) h
  have htake : (s ++ ';' :: r).take (0 + (s.length + 1)) = s ++ [';'] := by
    rw [Nat.zero_add, show s ++ ';' :: r = (s ++ [';']) ++ r by simp]
    exact List.take_left' (by simp)
  rw [htake]
  have hcut : extent? (s ++ [';']) = some (0 + (s.length + 1)) :=
    extentFrom_swap (harmless_self r) (harmless_nil r) s.length s 0 0 none (Nat.le_refl _)
      hreach ⟨0, hticks⟩ (.inl rfl) .start h
  refine ⟨hcut, fun hbare u hu => ?_⟩
  have hswap := extentFrom_swap (harmless_nil r) (.inr hu) s.length s 0 0 none
    (Nat.le_refl _) hreach ⟨0, hticks⟩ (.inr ⟨0, hbare⟩) .start hcut
  rwa [List.append_assoc]

-- a bare word looks on behind the semicolon
example : extent? "component;".toList = some 10 ∧ extent? "component; end;".toList = some 15 := by
  decide

theorem extent?_decided_function :
    let t := "function f is begin x; end;'0'".toList
    extent? (t.take 27) = some 27 ∧ extent? (t.take 27 ++ " is port".toList) = some 27 := by
  intro t
  obtain ⟨hcut, hextend⟩ := extent?_decided (t := t) (n := 27) (by decide) (by decide)
  exact ⟨hcut, hextend (by decide) _ (by decide)⟩

end Text
end CanonicalVhdl
