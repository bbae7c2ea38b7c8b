import CanonicalVhdl.Proofs.Room.Reach
import CanonicalVhdl.Proofs.Settled.Extent
import CanonicalVhdl.Proofs.Text.Closing

/-!
# Looking ahead from inside a statement

A search that goes through a statement up to its final semicolon reads the same lexemes
before that semicolon whatever follows it, unless a tick does.  The tokens before the
semicolon are therefore the same, and so is whether a signature goes on with `is`.  A word
that looks ahead sees something else behind the statement only when its tokens run out:
when the semicolon follows it directly, or follows `package body`.

## Main definitions

* `Text.Harmless r u` — `u` may stand behind a statement in place of `r`.
* `Text.isBare w p` — the word `w`, with the place behind it, lacks what it looks for.

## Main statements

* `Text.Reaches.isBeforeSemicolon_eq` — a signature ends with its statement.
* `Text.Reaches.opensConstruct_eq` — what a word that is not bare opens.
-/

namespace CanonicalVhdl.Text

open Token

/-! ## What may follow -/

/-- Whether a text may stand behind a final semicolon in place of `r`. -/
def Harmless (r u : Text) : Prop := u = r ∨ u.head? ≠ some '\''

theorem harmless_self (r : Text) : Harmless r r := .inl rfl

theorem harmless_nil (r : Text) : Harmless r [] := .inr (by simp)

section Harmless

variable {before : Option Char} {c : Char} {s x r u : Text}

/-- A semicolon keeps a text from being empty. -/
theorem exists_cons_semicolon (s : Text) :
    ∃ (d : Char) (v : Text → Text), ∀ u, s ++ ';' :: u = d :: v u := by
  cases s with
  | nil => exact ⟨';', id, fun u => rfl⟩
  | cons d s => exact ⟨d, fun u => s ++ ';' :: u, fun u => rfl⟩

theorem at_code_harmless (h : Lexeme.at before (c :: (s ++ ';' :: r)) = .code)
    (hu : Harmless r u) : Lexeme.at before (c :: (s ++ ';' :: u)) = .code := by
  rcases hu with rfl | hu
  · exact h
  · have hcut : Lexeme.at before (c :: (s ++ [';'])) = .code :=
      at_code_cut (u := r) (by rwa [List.append_assoc])
    simpa using code_stable hcut (by simp) hu

theorem at_literal_harmless
    (h : Lexeme.at before (c :: (x ++ (s ++ ';' :: r))) = .literal (x.length + 1)) (u : Text) :
    Lexeme.at before (c :: (x ++ (s ++ ';' :: u))) = .literal (x.length + 1) := by
  obtain ⟨d, v, hv⟩ := exists_cons_semicolon s
  rw [hv] at h ⊢
  exact literal_stable h _

theorem at_comment_harmless
    (h : Lexeme.at before (c :: (x ++ (s ++ ';' :: r))) = .comment (x.length + 1)) (u : Text) :
    Lexeme.at before (c :: (x ++ (s ++ ';' :: u))) = .comment (x.length + 1) := by
  obtain ⟨d, v, hv⟩ := exists_cons_semicolon s
  rw [hv] at h ⊢
  exact comment_stable h _

/-- What is reached before a semicolon is reached whatever follows it. -/
theorem Reaches.harmless {depth d : Nat} (h : Reaches before depth s (';' :: r) d)
    (hu : Harmless r u) : Reaches before depth s (';' :: u) d := by
  generalize hw : ';' :: r = w at h
  induction h with
  | here => exact .here
  | code hat h ih =>
    subst hw
    exact .code (at_code_harmless hat hu) (ih rfl)
  | lexeme hat h ih =>
    subst hw
    exact .lexeme (hat.imp (at_literal_harmless · u) (at_comment_harmless · u)) (ih rfl)

end Harmless

/-- What is behind a word. -/
theorem Reaches.of_run {before : Option Char} {depth d : Nat} {w s u : Text}
    (hw : w.all isIdentChar = true) (h : Reaches before depth (w ++ s) u d) :
    Reaches (lastOr before w) depth s u d := by
  obtain ⟨m, hm, -, hrest⟩ := (reaches_run hw (s ++ u)).split h (by rw [List.append_assoc])
    (by rw [List.length_append]; omega)
  obtain rfl := List.append_cancel_left hm
  exact hrest

/-! ## Tokens before the semicolon -/

/-- Blanks and comments `g` before `s`, which have no part in a statement. -/
structure IsTrivia (r : Text) (before : Option Char) (g s : Text) : Prop where
  /-- They are passed over on the way to the next token. -/
  skip : ∀ u, Harmless r u → ∀ position,
    skipTrivia ⟨position, before, g ++ (s ++ ';' :: u)⟩
      = skipTrivia ⟨position + g.length, lastOr before g, s ++ ';' :: u⟩
  /-- They change nothing for the end of the statement. -/
  extent : ∀ u, Harmless r u → ∀ parens state position,
    extentFrom parens state 0 position before (g ++ (s ++ ';' :: u))
      = extentFrom parens state 0 (position + g.length) (lastOr before g) (s ++ ';' :: u)

theorem isTrivia_nil (r : Text) (before : Option Char) (s : Text) : IsTrivia r before [] s :=
  ⟨fun _ _ _ => rfl, fun _ _ _ _ _ => rfl⟩

section Trivia

variable {r : Text} {before : Option Char} {c : Char} {x g s : Text}

theorem IsTrivia.blank (hc : isAsciiBlank c = true)
    (hat : ∀ u, Harmless r u → Lexeme.at before (c :: (g ++ (s ++ ';' :: u))) = .code)
    (h : IsTrivia r (some c) g s) : IsTrivia r before (c :: g) s := by
  have hne : ∀ d, isAsciiBlank d = false → c ≠ d := by
    rintro d hd rfl
    rw [hc] at hd
    cases hd
  have hident : isIdentChar c = false := by
    rw [Bool.eq_false_iff]
    intro hident
    rw [isAsciiBlank_eq_false_of_isIdentChar hident] at hc
    cases hc
  refine ⟨fun u hu position => ?_, fun u hu parens state position => ?_⟩
  · have hstep : skipTrivia ⟨position, before, c :: (g ++ (s ++ ';' :: u))⟩
        = skipTrivia ⟨position + 1, some c, g ++ (s ++ ';' :: u)⟩ := by
      simp [skipTrivia, triviaEnd, hc]
    rw [List.cons_append, hstep, h.skip u hu, lastOr_cons, List.length_cons]
    congr 2
    omega
  · rw [List.cons_append, extentFrom_code (hat u hu) (by simp [hident]) (hne '(' (by decide))
      (hne ')' (by decide)) (by simp [hne ';' (by decide)]), h.extent u hu, lastOr_cons,
      List.length_cons]
    congr 1
    omega

theorem IsTrivia.comment
    (hat : ∀ u, Lexeme.at before (c :: (x ++ (g ++ (s ++ ';' :: u)))) = .comment (x.length + 1))
    (h : IsTrivia r (lastOr (some c) x) g s) : IsTrivia r before (c :: (x ++ g)) s := by
  refine ⟨fun u hu position => ?_, fun u hu parens state position => ?_⟩
  · rw [List.cons_append, List.append_assoc, skipTrivia_of_comment (hat u), h.skip u hu, lastOr_cons,
      lastOr_append, List.length_cons, List.length_append]
    congr 2
    omega
  · rw [List.cons_append, List.append_assoc, extentFrom_comment (hat u), h.extent u hu, lastOr_cons,
      lastOr_append, List.length_cons, List.length_append]
    congr 1
    omega

end Trivia

/-- The next token is `token`, with `s` behind it. -/
structure IsToken (r : Text) (before : Option Char) (token s : Text) : Prop where
  /-- It is read there. -/
  next : ∀ u, Harmless r u → ∀ position,
    nextToken? ⟨position, before, token ++ (s ++ ';' :: u)⟩
      = some (token, ⟨position + token.length, lastOr before token, s ++ ';' :: u⟩)
  /-- A word is read as a whole. -/
  whole : IsRun token → s.head?.any isIdentChar = false

/-- The tokens of a statement before its final semicolon. -/
inductive HasTokens (r : Text) : Option Char → Text → List Text → Prop
  /-- Nothing but blanks and comments. -/
  | last {before : Option Char} {g : Text} (hg : IsTrivia r before g []) : HasTokens r before g []
  /-- A token and those behind it. -/
  | cons {before : Option Char} {g token s : Text} {tokens : List Text}
      (hg : IsTrivia r before g (token ++ s)) (htoken : IsToken r (lastOr before g) token s)
      (h : HasTokens r (lastOr (lastOr before g) token) s tokens) :
      HasTokens r before (g ++ (token ++ s)) (token :: tokens)

/-- The first token, if there is one before the semicolon. -/
theorem Reaches.exists_token {r : Text} {before : Option Char} {depth d : Nat} {s : Text}
    (h : Reaches before depth s (';' :: r) d) :
    IsTrivia r before s [] ∨ ∃ g token m depth', s = g ++ (token ++ m) ∧ token ≠ []
      ∧ IsTrivia r before g (token ++ m) ∧ IsToken r (lastOr before g) token m
      ∧ Reaches (lastOr (lastOr before g) token) depth' m (';' :: r) d := by
  generalize hw : ';' :: r = w at h
  induction h with
  | here => exact .inl (isTrivia_nil ..)
  | @code before depth d c s u hat h ih =>
    subst hw
    have hcode : ∀ u, Harmless r u → Lexeme.at before (c :: (s ++ ';' :: u)) = .code :=
      fun u hu => at_code_harmless hat hu
    by_cases hblank : isAsciiBlank c = true
    · rcases ih rfl with hs | ⟨g, token, m, depth', rfl, hne, hg, htoken, hm⟩
      · exact .inl (.blank hblank (by simpa using hcode) hs)
      · refine .inr ⟨c :: g, token, m, depth', rfl, hne, .blank hblank ?_ hg, ?_, ?_⟩
        · simpa only [List.append_assoc] using hcode
        · rwa [lastOr_cons]
        · rwa [lastOr_cons]
    rw [Bool.not_eq_true] at hblank
    refine .inr ⟨[], ?_⟩
    by_cases hident : isIdentChar c = true
    · -- a word
      obtain ⟨w, m, hsplit, hrun, hrest, -⟩ := exists_run hident s
      have hm := hrest [] atLineEnd_nil
      rw [List.append_nil] at hm
      have hreach : Reaches before depth (w ++ m) (';' :: r) d := hsplit ▸ .code hat h
      refine ⟨w, m, depth, hsplit, hrun.ne_nil, isTrivia_nil .., ⟨fun u hu position => ?_,
        fun _ => hm⟩, hreach.of_run hrun.ident⟩
      refine nextToken?_word hrun ?_ position
      cases m with
      | nil => rfl
      | cons e m => exact hm
    · -- a single character
      rw [Bool.not_eq_true] at hident
      refine ⟨[c], s, _, rfl, List.cons_ne_nil _ _, isTrivia_nil .., ⟨fun u hu position => ?_,
        fun hrun => ?_⟩, h⟩
      · exact nextToken?_code hblank hident (hcode u hu) position
      · have := List.all_eq_true.1 hrun.ident c List.mem_cons_self
        rw [hident] at this
        cases this
  | @lexeme before depth d c x s u hat h ih =>
    subst hw
    rcases hat with hat | hat
    · -- a literal
      refine .inr ⟨[], c :: x, s, depth, rfl, List.cons_ne_nil _ _, isTrivia_nil ..,
        ⟨fun u hu position => ?_, fun hrun => ?_⟩, by rwa [lastOr_nil, lastOr_cons]⟩
      · have hnext := nextToken?_literal (at_literal_harmless hat u) position
        rw [Nat.add_assoc, Nat.add_comm 1, ← lastOr_cons none] at hnext
        exact hnext
      · rw [at_ident _ (List.all_eq_true.1 hrun.ident c List.mem_cons_self)] at hat
        cases hat
    · rcases ih rfl with hs | ⟨g, token, m, depth', rfl, hne, hg, htoken, hm⟩
      · exact .inl (.comment (by simpa using at_comment_harmless hat) hs)
      · refine .inr ⟨c :: (x ++ g), token, m, depth', by simp, hne, .comment ?_ hg, ?_, ?_⟩
        · simpa only [List.append_assoc] using at_comment_harmless hat
        · rwa [lastOr_cons, lastOr_append]
        · rwa [lastOr_cons, lastOr_append]

theorem Reaches.exists_hasTokens {r : Text} (n : Nat) :
    ∀ {before : Option Char} {depth d : Nat} {s : Text}, s.length ≤ n →
      Reaches before depth s (';' :: r) d → ∃ tokens, HasTokens r before s tokens := by
  induction n with
  | zero =>
    intro before depth d s hs h
    rw [List.eq_nil_of_length_eq_zero (Nat.le_zero.1 hs)]
    exact ⟨[], .last (isTrivia_nil ..)⟩
  | succ n ih =>
    intro before depth d s hs h
    rcases h.exists_token with hg | ⟨g, token, m, depth', rfl, hne, hg, htoken, hm⟩
    · exact ⟨[], .last hg⟩
    · have := List.length_pos_of_ne_nil hne
      rw [List.length_append, List.length_append] at hs
      obtain ⟨tokens, htokens⟩ := ih (by omega) hm
      exact ⟨token :: tokens, .cons hg htoken htokens⟩

/-- The first tokens are those before the semicolon, the semicolon, and what follows. -/
theorem HasTokens.nextTokens {r : Text} {before : Option Char} {s : Text} {tokens : List Text}
    (h : HasTokens r before s tokens) {u : Text} (hu : Harmless r u) (N : Nat) :
    ∀ n ≤ N, ∀ position, nextTokens n ⟨position, before, s ++ ';' :: u⟩
      = (tokens ++ [';'] :: nextTokens N ⟨position + (s.length + 1), some ';', u⟩).take n := by
  induction h with
  | @last before g hg =>
    intro n hn position
    cases n with
    | zero => rfl
    | succ n =>
      have hnext : nextToken? ⟨position, before, g ++ ';' :: u⟩
          = some ([';'], ⟨position + (g.length + 1), some ';', u⟩) := by
        have hskip := hg.skip u hu position
        rw [List.nil_append] at hskip
        rw [nextToken?_congr hskip, nextToken?_code (by decide) (by decide) (at_code (by decide)
          (fun h => absurd h (by decide)) (fun h => absurd h (by decide))), Nat.add_assoc]
      obtain ⟨k, rfl⟩ := Nat.exists_eq_add_of_le (Nat.le_of_succ_le hn)
      rw [Text.nextTokens, hnext, List.nil_append, List.take_succ_cons, ← nextTokens_take]
  | @cons before g token s tokens hg htoken h ih =>
    intro n hn position
    cases n with
    | zero => rfl
    | succ n =>
      have hnext : nextToken? ⟨position, before, g ++ (token ++ s) ++ ';' :: u⟩
          = some (token, ⟨position + g.length + token.length, lastOr (lastOr before g) token,
              s ++ ';' :: u⟩) := by
        rw [List.append_assoc, nextToken?_congr (hg.skip u hu position), List.append_assoc,
          htoken.next u hu]
      rw [Text.nextTokens, hnext, List.cons_append, List.take_succ_cons]
      have hlength : position + g.length + token.length + (s.length + 1)
          = position + ((g ++ (token ++ s)).length + 1) := by
        rw [List.length_append, List.length_append]
        omega
      dsimp only
      rw [ih n (Nat.le_of_succ_le hn), hlength]

/-! ## Signatures -/

/-- The first place outside parentheses that a test accepts is the semicolon at the latest. -/
theorem Reaches.findPointFrom_eq {test : CodePoint → Bool} (htest : IsOuterTest test)
    {r u u' : Text} (hu : Harmless r u) (hu' : Harmless r u') {before : Option Char} {depth : Nat}
    {d : Nat} {s : Text} (h : Reaches before depth s (';' :: r) d) (hd : d = 0) :
    ∀ position, (findPointFrom test 0 position depth before (s ++ ';' :: u)).map (·.char)
      = (findPointFrom test 0 position depth before (s ++ ';' :: u')).map (·.char) := by
  have hsame : ∀ position before c s depth, test ⟨position, before, c, s ++ ';' :: u, depth⟩
      = test ⟨position, before, c, s ++ ';' :: u', depth⟩ := by
    intro position before c s depth
    rw [htest.append _ _ _ s _ _ (by rfl), htest.append _ _ _ s _ _ (by rfl)]
  generalize hw : ';' :: r = w at h
  induction h with
  | here =>
    subst hd
    intro position
    have hend : ∀ before u, findPointFrom test 0 position 0 before (';' :: u)
        = some ⟨position, before, ';', u, 0⟩ := by
      intro before u
      have hat : Lexeme.at before (';' :: u) = .code := at_code (by decide)
        (fun h => absurd h (by decide)) (fun h => absurd h (by decide))
      have hpass : test ⟨position, before, ';', u, 0⟩ = true := htest.semicolon _ rfl rfl
      simp [findPointFrom, hat, hpass]
    rw [List.nil_append, List.nil_append, hend, hend]
    rfl
  | @code before depth d c s w hat h ih =>
    subst hw
    intro position
    rw [List.cons_append, List.cons_append, findPointFrom, findPointFrom, at_code_harmless hat hu,
      at_code_harmless hat hu']
    dsimp only
    rw [hsame]
    by_cases hpass : test ⟨position, before, c, s ++ ';' :: u',
        if (c == ')') = true then depth - 1 else depth⟩ = true
    · rw [if_pos hpass, if_pos hpass]
      rfl
    · rw [if_neg hpass, if_neg hpass]
      exact ih hd rfl _
  | @lexeme before depth d c x s w hat h ih =>
    subst hw
    intro position
    rw [List.cons_append, List.cons_append, List.append_assoc, List.append_assoc]
    rcases hat with hat | hat
    · rw [findPointFrom, findPointFrom, at_literal_harmless hat, at_literal_harmless hat]
      dsimp only
      rw [← List.append_assoc x, hsame, List.append_assoc, List.append_assoc]
      split
      · rfl
      · rw [Nat.add_sub_cancel, findPointFrom_skip, findPointFrom_skip]
        exact ih hd rfl _
    · rw [findPointFrom_comment (at_comment_harmless hat u),
        findPointFrom_comment (at_comment_harmless hat u')]
      exact ih hd rfl _

/-- **A signature ends with its statement**, and goes on with `is` or not whatever follows. -/
theorem Reaches.isBeforeSemicolon_eq {r u u' : Text} (hu : Harmless r u) (hu' : Harmless r u')
    {s : Text} (h : Reaches none 0 s (';' :: r) 0) :
    isBeforeSemicolon (s ++ ';' :: u) = isBeforeSemicolon (s ++ ';' :: u') := by
  have hany : ∀ x : Option CodePoint,
      x.any (fun p => p.char != ';') = (x.map (·.char)).any (· != ';') := by
    intro x
    cases x <;> rfl
  rw [isBeforeSemicolon, isBeforeSemicolon, findPoint?, findPoint?, hany, hany,
    h.findPointFrom_eq isOuterTest_is hu hu' rfl]

/-! ## Words that look ahead -/

/-- The words that look for what a declaration says about its unit. -/
def unitWords : List Text := ["component", "entity", "package"].map String.toList

/-- Whether a word that looks ahead, with the place behind it, stands directly before a
semicolon, as one or as `package body`. -/
def isBare (w : Text) (p : Place) : Bool :=
  unitWords.any (sameWord w) && headed [";"] (nextTokens 1 p)
    || sameWord w "package".toList && headed ["body", ";"] (nextTokens 2 p)

/-- Whether the tokens that a word looks for run out behind it. -/
def RunsOut (w : Text) (tokens : List Text) : Prop :=
  unitWords.any (sameWord w) = true ∧ tokens = []
    ∨ sameWord w "package".toList = true ∧ ∃ b, tokens = [b] ∧ sameWord "body".toList b = true

/-- A word whose tokens run out is bare. -/
theorem HasTokens.isBare {r : Text} {before : Option Char} {s : Text} {tokens : List Text}
    (h : HasTokens r before s tokens) {w : Text} (hw : RunsOut w tokens) (position : Nat) :
    isBare w ⟨position, before, s ++ [';']⟩ = true := by
  have htokens := h.nextTokens (harmless_nil r) 2
  rcases hw with ⟨hunit, rfl⟩ | ⟨hpackage, b, rfl, hbody⟩
  · rw [Text.isBare, hunit, htokens 1 (by decide)]
    rfl
  · have hsemicolon : sameWord ";".toList [';'] = true := by decide
    have hheaded : headed ["body", ";"] [b, [';']] = true := by
      simp only [headed, List.zip_cons_cons, List.all_cons, hbody, hsemicolon]
      rfl
    rw [Text.isBare, hpackage, htokens 2 (by decide)]
    exact Bool.or_eq_true_iff.2 (.inr hheaded)

section Opens

variable {r u u' : Text} {before : Option Char} {s w : Text} {tokens : List Text}

/-- What follows the semicolon is out of sight when there are enough tokens before it. -/
theorem take_tokens {n : Nat} (hn : n ≤ tokens.length + 1) (us us' : List Text) :
    (tokens ++ [';'] :: us).take n = (tokens ++ [';'] :: us').take n := by
  have hsplit : ∀ us, tokens ++ [';'] :: us = (tokens ++ [[';']]) ++ us := by simp
  have hlen : n ≤ (tokens ++ [[';']]).length := by simpa using hn
  rw [hsplit us, hsplit us', List.take_append_of_le_length hlen, List.take_append_of_le_length hlen]

/-- What `component` makes of the tokens behind it. -/
theorem component_tokens (hne : tokens ≠ []) (us us' : List Text) :
    (match (tokens ++ [';'] :: us).take 4 with
      | [] => false
      | _ :: body => opensComponent (if headed ["is"] body then body.drop 1 else body))
    = match (tokens ++ [';'] :: us').take 4 with
      | [] => false
      | _ :: body => opensComponent (if headed ["is"] body then body.drop 1 else body) := by
  obtain _ | ⟨a, _ | ⟨b, _ | ⟨c, tokens⟩⟩⟩ := tokens
  · exact absurd rfl hne
  · simp only [List.cons_append, List.nil_append, List.take_succ_cons, headed_cons]
    rw [if_neg (by decide), if_neg (by decide), opensComponent_semicolon, opensComponent_semicolon]
  · simp only [List.cons_append, List.nil_append, List.take_succ_cons, headed_cons,
      List.drop_succ_cons, List.drop_zero]
    split
    · rw [opensComponent_semicolon, opensComponent_semicolon]
    · simp only [opensComponent, headed_cons, List.drop_succ_cons, List.drop_zero]
  · rw [take_tokens (by simp) us us']

/-- What `package` makes of the tokens behind it. -/
theorem package_tokens (hne : tokens ≠ [])
    (hbody : ∀ b, tokens = [b] → sameWord "body".toList b = false) (us us' : List Text) :
    (if headed ["body"] ((tokens ++ [';'] :: us).take 3)
      then headed ["is"] (((tokens ++ [';'] :: us).take 3).drop 2)
      else headed ["is"] (((tokens ++ [';'] :: us).take 3).drop 1))
    = if headed ["body"] ((tokens ++ [';'] :: us').take 3)
      then headed ["is"] (((tokens ++ [';'] :: us').take 3).drop 2)
      else headed ["is"] (((tokens ++ [';'] :: us').take 3).drop 1) := by
  obtain _ | ⟨a, _ | ⟨b, tokens⟩⟩ := tokens
  · exact absurd rfl hne
  · simp only [List.cons_append, List.nil_append, List.take_succ_cons, headed_cons, hbody a rfl,
      Bool.false_eq_true, if_false, List.drop_succ_cons, List.drop_zero]
  · rw [take_tokens (by simp) us us']

/-- **A word opens a construct or not, whatever follows the statement**, unless the tokens
that it looks for run out. -/
theorem Reaches.opensConstruct_eq (h : Reaches before 0 s (';' :: r) 0) (hu : Harmless r u)
    (hu' : Harmless r u') (htokens : HasTokens r before s tokens) (hruns : ¬ RunsOut w tokens)
    (htick : sameWord w "function".toList = true ∨ sameWord w "procedure".toList = true →
      (s ++ ';' :: r).head? ≠ some '\'') (position : Nat) :
    opensConstruct w ⟨position, before, s ++ ';' :: u⟩
      = opensConstruct w ⟨position, before, s ++ ';' :: u'⟩ := by
  have hnext : ∀ n ≤ 4, ∀ {u : Text}, Harmless r u → nextTokens n ⟨position, before, s ++ ';' :: u⟩
      = (tokens ++ [';'] :: nextTokens 4 ⟨position + (s.length + 1), some ';', u⟩).take n :=
    fun n hn _ hu => htokens.nextTokens hu 4 n hn position
  have hunit : ∀ k ∈ unitWords, sameWord w k = true → tokens ≠ [] := fun k hk hsame hnil =>
    hruns (.inl ⟨List.any_eq_true.2 ⟨k, hk, hsame⟩, hnil⟩)
  unfold opensConstruct
  split
  · rfl
  split
  · next hcomponent =>
    rw [hnext 4 (by decide) hu, hnext 4 (by decide) hu']
    exact component_tokens (hunit _ (by decide) hcomponent) _ _
  split
  · next hsignature =>
    rw [Bool.or_eq_true] at hsignature
    have hfresh : Reaches none 0 s (';' :: r) 0 :=
      h.congr fun hhead => absurd hhead (htick hsignature)
    exact hfresh.isBeforeSemicolon_eq hu hu'
  split
  · next hentity =>
    have hlen := List.length_pos_of_ne_nil (hunit _ (by decide) hentity)
    rw [hnext 2 (by decide) hu, hnext 2 (by decide) hu', take_tokens (by omega)]
  split
  · next hpackage =>
    rw [hnext 3 (by decide) hu, hnext 3 (by decide) hu']
    refine package_tokens (hunit _ (by decide) hpackage) (fun b hb => ?_) _ _
    rw [Bool.eq_false_iff]
    exact fun hbody => hruns (.inr ⟨hpackage, b, hb, hbody⟩)
  · rfl

end Opens

end CanonicalVhdl.Text
