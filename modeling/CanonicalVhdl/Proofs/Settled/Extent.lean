import CanonicalVhdl.Proofs.Region.Statement
import CanonicalVhdl.Proofs.Settled.Basic

/-!
# The extent of settled statements

A scan that starts in the middle of a text may take a tick for something else than the
scan that came from its beginning.  In a settled text both read the same lexemes, so the
search for the end of a signature, which starts afresh after its keyword, ends with the
statement at the latest.  With the words that look ahead, only the first token behind a
statement can tell where the statement ends, and only if it carries the statement on.

## Main definitions

* `Phase.IsAligned p t` — a lexeme starts where a pass is about to read `t`.
* `Text.IsSequel u` — a text that carries no statement on.

## Main statements

* `Text.Lexed.isBeforeSemicolon_append` — a signature ends with its statement.
* `Text.extent?_append` — a settled statement ends where it ends, whatever follows.
-/

namespace CanonicalVhdl

open Text Token

/-! ## Lexemes and the pass over the characters -/

namespace Phase

/-- Whether a pass in this phase stands at the start of a lexeme. -/
def IsAligned (p : Phase) (t : Text) : Prop :=
  match p with
  | code | tick => True
  | hyphen => t.head? ≠ some '-'
  | comment => AtLineEnd t
  | quoted | torn => False

/-- Other characters than ticks, quotation marks and hyphens lead to code. -/
theorem IsAligned.step_plain {p : Phase} {c : Char} {t : Text} (hp : p.IsAligned (c :: t))
    (hc : c ≠ '"' ∧ c ≠ '\'' ∧ c ≠ '-') : p.step c = code := by
  cases p with
  | code | hyphen | tick => simp [step, hc]
  | comment =>
    obtain h | ⟨v, h⟩ := AtLineEnd.cases hp
    · cases h
    · rw [(List.cons.inj h).1]
      rfl
  | quoted | torn => exact hp.elim

/-- After a word a lexeme starts. -/
theorem IsAligned.after_run {p : Phase} {w t : Text} (hp : p.IsAligned (w ++ t)) (hw : IsRun w) :
    p.after w = code := by
  have hplain : ∀ c ∈ w, c ≠ '"' ∧ c ≠ '\'' ∧ c ≠ '-' := by
    intro c hc
    have hident := List.all_eq_true.1 hw.ident c hc
    refine ⟨?_, ?_, ?_⟩ <;>
    · rintro rfl
      cases hident
  have hcode : ∀ w : Text, (∀ c ∈ w, c ≠ '"' ∧ c ≠ '\'' ∧ c ≠ '-') → code.after w = code := by
    intro w hw
    induction w with
    | nil => rfl
    | cons c w ih =>
      obtain ⟨hc, hw⟩ := List.forall_mem_cons.1 hw
      rw [after_cons, IsAligned.step_plain (t := w) (show code.IsAligned (c :: w) from trivial) hc]
      exact ih hw
  cases w with
  | nil => exact absurd rfl hw.ne_nil
  | cons c w =>
    obtain ⟨hc, hrest⟩ := List.forall_mem_cons.1 hplain
    rw [after_cons, hp.step_plain hc]
    exact hcode w hrest

/-- After a character of code a lexeme starts. -/
theorem IsAligned.step {p : Phase} {before : Option Char} {c : Char} {t : Text}
    (hp : p.IsAligned (c :: t)) (hat : Lexeme.at before (c :: t) = .code) :
    (p.step c).IsAligned t := by
  have hquote : c ≠ '"' := by
    rintro rfl
    cases hat
  have hdash : c = '-' → t.head? ≠ some '-' := by
    rintro rfl hhead
    obtain ⟨t, rfl⟩ := List.head?_eq_some_iff.1 hhead
    cases hat
  cases p with
  | quoted | torn => exact hp.elim
  | comment =>
    obtain h | ⟨v, h⟩ := AtLineEnd.cases hp
    · cases h
    · obtain ⟨rfl, rfl⟩ := List.cons.inj h
      exact trivial
  | hyphen =>
    have hne : c ≠ '-' := fun hc => hp (by rw [hc]; rfl)
    by_cases htick : c = '\''
    · simp [Phase.step, htick, IsAligned]
    · simp [Phase.step, hquote, htick, hne, IsAligned]
  | code | tick =>
    by_cases htick : c = '\''
    · simp [Phase.step, htick, IsAligned]
    by_cases hne : c = '-'
    · subst hne
      exact hdash rfl
    · simp [Phase.step, hquote, htick, hne, IsAligned]

/-- A quotation that a pass leaves ends where the literal does. -/
theorem exists_quoted {n : Nat} {t : Text} (h : (quoted.after t).isSound = true) :
    ∃ x r, t = x ++ r ∧ Lexeme.quotedLength n t = n + x.length ∧ x.getLast? = some '"'
      ∧ quoted.after x = code := by
  fun_induction Lexeme.quotedLength n t with
  | case1 n rest ih =>
    obtain ⟨x, r, rfl, hlen, hlast, hx⟩ := ih h
    have hne : x ≠ [] := by
      rintro rfl
      cases hlast
    refine ⟨'"' :: '"' :: x, r, rfl, ?_, ?_, hx⟩
    · rw [hlen, List.length_cons, List.length_cons]
      omega
    · rw [List.getLast?_cons_of_ne_nil (List.cons_ne_nil _ _),
        List.getLast?_cons_of_ne_nil hne, hlast]
  | case2 n rest hrest => exact ⟨['"'], rest, rfl, rfl, rfl, rfl⟩
  | case3 n rest =>
    rw [after_cons, show quoted.step '\n' = torn from rfl, after_torn] at h
    cases h
  | case4 n c rest h1 hquote hline ih =>
    have hstep : quoted.step c = quoted := by
      have hline : c ≠ '\n' := hline
      have hquote : c ≠ '"' := hquote
      simp [step, hquote, hline]
    rw [after_cons, hstep] at h
    obtain ⟨x, r, rfl, hlen, hlast, hx⟩ := ih h
    have hne : x ≠ [] := by
      rintro rfl
      cases hlast
    refine ⟨c :: x, r, rfl, ?_, ?_, ?_⟩
    · rw [hlen, List.length_cons]
      omega
    · rw [List.getLast?_cons_of_ne_nil hne, hlast]
    · rw [after_cons, hstep, hx]
  | case5 n => cases h

/-- After a literal a lexeme starts. -/
theorem IsAligned.after_literal {p : Phase} {before : Option Char} {c : Char} {x t : Text}
    (hp : p.IsAligned (c :: (x ++ t))) (hsound : (p.after (c :: (x ++ t))).isSound = true)
    (hat : Lexeme.at before (c :: (x ++ t)) = .literal (x.length + 1)) :
    (p.after (c :: x)).IsAligned t ∧ (c :: x).getLast? ≠ some ';' := by
  unfold Lexeme.at at hat
  split at hat
  · cases hat
  · next heq =>
    -- between quotation marks, which do not follow a tick
    obtain ⟨rfl, rfl⟩ := List.cons.inj heq
    have hstep : p.step '"' = quoted := by
      cases p with
      | code | hyphen => rfl
      | tick =>
        rw [after_cons, show tick.step '"' = torn from rfl, after_torn] at hsound
        cases hsound
      | comment =>
        obtain h | ⟨v, h⟩ := AtLineEnd.cases hp
        · cases h
        · exact absurd (List.cons.inj h).1 (by decide)
      | quoted | torn => exact hp.elim
    rw [after_cons, hstep] at hsound
    obtain ⟨y, r, hsplit, hlen, hlast, hy⟩ := exists_quoted (n := 1) hsound
    have hlength : x.length = y.length := by
      rw [hlen] at hat
      have := Lexeme.literal.inj hat
      omega
    obtain ⟨rfl, rfl⟩ := List.append_inj hsplit hlength
    refine ⟨?_, ?_⟩
    · rw [after_cons, hstep, hy]
      exact trivial
    · have hne : x ≠ [] := by
        rintro rfl
        cases hlast
      rw [List.getLast?_cons_of_ne_nil hne, hlast]
      decide
  · next d rest heq =>
    -- a character between ticks, which is no quotation mark
    obtain ⟨rfl, hx⟩ := List.cons.inj heq
    have hlength : x.length = 2 := by
      split at hat
      · exact (Nat.succ.inj (Lexeme.literal.inj hat)).symm
      · cases hat
    obtain ⟨rfl, rfl⟩ := List.append_inj (show x ++ t = [d, '\''] ++ rest from hx) hlength
    have hstep : p.step '\'' = tick := by
      cases p with
      | code | hyphen | tick => rfl
      | comment =>
        obtain h | ⟨v, h⟩ := AtLineEnd.cases hp
        · cases h
        · exact absurd (List.cons.inj h).1 (by decide)
      | quoted | torn => exact hp.elim
    have htick : (tick.step d).step '\'' = tick := by
      by_cases hquote : d = '"'
      · rw [after_cons, hstep, List.cons_append, after_cons, hquote,
          show tick.step '"' = torn from rfl, after_torn] at hsound
        cases hsound
      · by_cases htick : d = '\''
        · simp [Phase.step, htick]
        · by_cases hdash : d = '-'
          · simp [Phase.step, hdash]
          · simp [Phase.step, hquote, htick, hdash]
    refine ⟨?_, by simp⟩
    rw [after_cons, hstep, after_cons, after_cons, htick]
    exact trivial
  · cases hat

/-- After a comment its line ends. -/
theorem IsAligned.after_comment {p : Phase} {before : Option Char} {c : Char} {x t : Text}
    (hp : p.IsAligned (c :: (x ++ t)))
    (hat : Lexeme.at before (c :: (x ++ t)) = .comment (x.length + 1)) :
    p.after (c :: x) = comment ∧ AtLineEnd t := by
  obtain ⟨y, r, heq, hlen, hy, hr⟩ := exists_comment hat
  obtain ⟨rfl, htail⟩ := List.cons.inj heq
  have hx : x.length = ('-' :: y).length := by
    rw [List.length_cons]
    omega
  obtain ⟨rfl, rfl⟩ := List.append_inj (show x ++ t = ('-' :: y) ++ r from htail) hx
  have hopen : (p.step '-').step '-' = comment := by
    cases p with
    | code | tick => rfl
    | hyphen => exact absurd rfl hp
    | comment =>
      obtain h | ⟨v, h⟩ := AtLineEnd.cases hp
      · cases h
      · exact absurd (List.cons.inj h).1 (by decide)
    | quoted | torn => exact hp.elim
  refine ⟨?_, hr⟩
  rw [after_cons, after_cons, hopen, after_comment_line hy]

end Phase

namespace Text

open Phase

/-! ## Lexemes from anywhere -/

section Lexed

variable {before : Option Char} {t : Text}

/-- A pass over a text that ends with a semicolon of its code. -/
theorem Lexed.after_eq_code (h : Lexed before t) :
    ∀ {p : Phase}, p.IsAligned t → (p.after t).isSound = true → p.after t = .code := by
  induction h with
  | final => exact fun hp _ => hp.step_plain (by decide)
  | code hat ht ih =>
    intro p hp hsound
    have hcode := hat [] (fun h => nomatch h)
    rw [List.append_nil] at hcode
    exact ih (hp.step hcode) hsound
  | literal hat ht ih =>
    intro p hp hsound
    have hliteral := hat []
    rw [List.append_nil] at hliteral
    have hrest := (hp.after_literal hsound hliteral).1
    rw [← List.cons_append, after_append] at hsound ⊢
    exact ih hrest hsound
  | comment hat ht ih =>
    intro p hp hsound
    have hcomment := hat []
    rw [List.append_nil] at hcomment
    obtain ⟨hafter, hline⟩ := hp.after_comment hcomment
    rw [← List.cons_append, after_append] at hsound ⊢
    rw [hafter] at hsound ⊢
    exact ih hline hsound

/-- A text on which a pass starts and ends in code is read as lexemes, whatever
character precedes it. -/
theorem lexed_of_isAligned (n : Nat) :
    ∀ {t : Text} {p : Phase} {before : Option Char}, t.length ≤ n → p.IsAligned t →
      p.after t = code → t.getLast? = some ';' → Lexed before t := by
  induction n with
  | zero =>
    intro t p before ht _ _ hlast
    rw [List.eq_nil_of_length_eq_zero (Nat.le_zero.1 ht)] at hlast
    cases hlast
  | succ n ih =>
    intro t p before ht hp hafter hlast
    have hsound : (p.after t).isSound = true := by rw [hafter]; rfl
    rcases t with _ | ⟨c, t⟩
    · cases hlast
    rw [List.length_cons] at ht
    have htail : ∀ {x r : Text}, r ≠ [] → t = x ++ r → r.getLast? = some ';' := by
      rintro x r hr rfl
      rwa [← List.cons_append, List.getLast?_append_of_ne_nil _ hr] at hlast
    obtain hat | ⟨x, r, rfl, hat | hat⟩ := at_split before c t
    · by_cases hnil : t = []
      · subst hnil
        obtain rfl := Option.some.inj hlast
        exact .final before
      · exact .code (fun u hu => code_stable hat hnil hu)
          (ih (by omega) (hp.step hat) hafter (htail (x := []) hnil rfl))
    · obtain ⟨hcomment, hline⟩ := hp.after_comment hat
      rw [List.length_append] at ht
      rw [← List.cons_append, after_append, hcomment] at hafter
      rcases r with _ | ⟨d, r⟩
      · cases hafter
      · exact .comment (fun u => comment_stable hat _)
          (ih (by omega) (show comment.IsAligned (d :: r) from hline) hafter
            (htail (List.cons_ne_nil d r) rfl))
    · obtain ⟨hrest, hend⟩ := hp.after_literal hsound hat
      rw [List.length_append] at ht
      rw [← List.cons_append, after_append] at hafter
      rcases r with _ | ⟨d, r⟩
      · rw [List.append_nil] at hlast
        exact absurd hlast hend
      · exact .literal (fun u => literal_stable hat _)
          (ih (by omega) hrest hafter (htail (List.cons_ne_nil d r) rfl))

end Lexed

/-- The rest of a settled statement is read as the same lexemes when a scan starts there. -/
theorem Lexed.fresh {before : Option Char} {t : Text} (h : Lexed before t) (ht : Settled t) :
    Lexed none t := by
  obtain ⟨s, hs⟩ := h.exists_concat
  have hlast : t.getLast? = some ';' := by rw [hs, List.getLast?_concat]
  have hafter : Phase.code.after t = .code := h.after_eq_code trivial ht
  exact lexed_of_isAligned t.length (Nat.le_refl _) (p := .code) trivial hafter hlast

/-! ## What may follow a statement -/

/-- The words that carry a declaration on over a semicolon. -/
def continuationWords : List Text :=
  ["is", "end", "port", "generic"].map String.toList

/-- A text that carries no statement on: its first token is no word that would belong to
the statement before it, and it closes no parenthesis opened there. -/
structure IsSequel (u : Text) : Prop where
  /-- The text starts with no tick. -/
  head : u.head? ≠ some '\''
  /-- The first token is no continuation. -/
  token : ∀ position before token p, nextToken? ⟨position, before, u⟩ = some (token, p) →
    before.any isIdentChar = false → ∀ w ∈ continuationWords, sameWord w token = false
  /-- No place of the text stands outside a parenthesis opened before it. -/
  inside : ∀ test, IsOuterTest test → ∀ position depth before, before.any isIdentChar = false →
    findPointFrom test 0 position (depth + 1) before u = none

section Sequel

variable {before : Option Char} {t u : Text}

/-- The first place that a test accepts is in the text, or nowhere. -/
theorem Lexed.findPointFrom_append {test : CodePoint → Bool} (htest : IsOuterTest test)
    (hu : IsSequel u) (h : Lexed before t) :
    ∀ position depth, (findPointFrom test 0 position depth before (t ++ u)).map (·.char)
      = (findPointFrom test 0 position depth before t).map (·.char) := by
  have hstable : ∀ {before : Option Char} {t : Text}, Lexed before t →
      ∀ position before c x depth, test ⟨position, before, c, x ++ (t ++ u), depth⟩
        = test ⟨position, before, c, x ++ t, depth⟩ := by
    intro before t ht position before c x depth
    obtain ⟨s, rfl⟩ := ht.exists_concat
    have hsplit : x ++ (s ++ [';'] ++ u) = x ++ s ++ ';' :: u := by simp
    rw [hsplit, ← List.append_assoc x, htest.append _ _ _ (x ++ s) _ _ (by rfl),
      htest.append _ _ _ (x ++ s) _ _ (by rfl)]
  induction h with
  | final before =>
    intro position depth
    have hat : ∀ u, Lexeme.at before (';' :: u) = .code := fun u =>
      at_code (by decide) (fun h => absurd h (by decide)) (fun h => absurd h (by decide))
    rw [List.cons_append, List.nil_append]
    cases depth with
    | zero =>
      have hend : ∀ u, test ⟨position, before, ';', u, 0⟩ = true := fun u =>
        htest.semicolon _ rfl rfl
      simp [findPointFrom, hat, hend]
    | succ depth =>
      rw [findPointFrom_inside htest (hat u) (by decide) (by decide),
        findPointFrom_inside htest (hat []) (by decide) (by decide),
        hu.inside test htest _ _ _ (by decide)]
      rfl
  | @code before c t hat ht ih =>
    intro position depth
    have hcode := hat [] (by simp)
    rw [List.append_nil] at hcode
    have htests : ∀ depth, test ⟨position, before, c, t ++ u, depth⟩
        = test ⟨position, before, c, t, depth⟩ := hstable ht position before c []
    rw [List.cons_append, findPointFrom, findPointFrom, hat u hu.head, hcode]
    dsimp only
    generalize (if (c == ')') = true then depth - 1 else depth) = outer
    rw [htests]
    split
    · rfl
    · exact ih _ _
  | @literal before c x t hat ht ih =>
    intro position depth
    have hliteral := hat []
    rw [List.append_nil] at hliteral
    rw [List.cons_append, List.append_assoc, findPointFrom, findPointFrom, hat u, hliteral]
    simp only [hstable ht]
    split
    · rfl
    · rw [Nat.add_sub_cancel, findPointFrom_skip, findPointFrom_skip]
      exact ih _ _
  | comment hat ht ih =>
    intro position depth
    have hcomment := hat []
    rw [List.append_nil] at hcomment
    rw [List.cons_append, List.append_assoc, findPointFrom_comment (hat u),
      findPointFrom_comment hcomment]
    exact ih _ _

/-- **A signature ends with its statement** at the latest, and with the word `is` before
that or not, whatever follows. -/
theorem Lexed.isBeforeSemicolon_append (hu : IsSequel u) (h : Lexed none t) :
    isBeforeSemicolon (t ++ u) = isBeforeSemicolon t := by
  have hany : ∀ x : Option CodePoint,
      x.any (fun p => p.char != ';') = (x.map (·.char)).any (· != ';') := by
    intro x
    cases x <;> rfl
  rw [isBeforeSemicolon, isBeforeSemicolon, findPoint?, findPoint?, hany, hany,
    h.findPointFrom_append isOuterTest_is hu]

/-- The tokens of a text are its own, or go on with those of what follows after its final
semicolon. -/
theorem Lexed.nextTokens_append (h : Lexed before t) (n position : Nat) :
    (∃ tokens q k, n = tokens.length + 1 + k ∧ ∀ u : Text, u.head? ≠ some '\'' →
      nextTokens n ⟨position, before, t ++ u⟩
        = tokens ++ [';'] :: nextTokens k ⟨q, some ';', u⟩) ∨
    ∀ u : Text, u.head? ≠ some '\'' →
      nextTokens n ⟨position, before, t ++ u⟩ = nextTokens n ⟨position, before, t⟩ := by
  obtain ⟨tokens, q, htokens⟩ := h.exists_tokens t.length (Nat.le_refl _) position
  by_cases hn : tokens.length + 1 ≤ n
  · obtain ⟨k, rfl⟩ := Nat.exists_eq_add_of_le hn
    exact .inl ⟨tokens, q, k, rfl, fun u hu => htokens u hu k⟩
  · obtain ⟨k, hk⟩ := Nat.exists_eq_add_of_le (Nat.le_of_not_le hn)
    refine .inr fun u hu => ?_
    have hnil := htokens [] (fun h => nomatch h) 0
    rw [List.append_nil] at hnil
    rw [nextTokens_take n k, nextTokens_take n k ⟨_, _, t⟩, ← hk]
    exact congrArg _ ((htokens u hu 0).trans hnil.symm)

theorem headed_cons (w : String) (token : Text) (tokens : List Text) :
    headed [w] (token :: tokens) = sameWord w.toList token := by
  simp [headed]

/-- What follows a statement starts with no continuation. -/
theorem IsSequel.headed (hu : IsSequel u) {w : String} (hw : w.toList ∈ continuationWords)
    (k position : Nat) : Text.headed [w] (nextTokens k ⟨position, some ';', u⟩) = false := by
  cases k with
  | zero => rfl
  | succ k =>
    rw [nextTokens]
    cases hnext : nextToken? ⟨position, some ';', u⟩ with
    | none => rfl
    | some next =>
      obtain ⟨token, p⟩ := next
      rw [headed_cons]
      exact hu.token _ _ _ _ hnext (by decide) _ hw

theorem isSequel_nil : IsSequel [] where
  head := by simp
  token _ _ _ _ h := nomatch h
  inside _ _ _ _ _ _ := rfl

theorem opensComponent_semicolon (tokens : List Text) :
    opensComponent ([';'] :: tokens) = false := by
  simp only [opensComponent, headed_cons]
  rfl

theorem IsSequel.opensComponent (hu : IsSequel u) (k position : Nat) :
    Text.opensComponent (nextTokens k ⟨position, some ';', u⟩) = false := by
  simp only [Text.opensComponent, hu.headed (show "end".toList ∈ continuationWords by decide),
    hu.headed (show "port".toList ∈ continuationWords by decide),
    hu.headed (show "generic".toList ∈ continuationWords by decide), Bool.or_self, Bool.false_and]

/-- What a component's keyword makes of the tokens after it. -/
theorem Lexed.component_append (hu : IsSequel u) (h : Lexed before t) (position : Nat) :
    (match nextTokens 4 ⟨position, before, t ++ u⟩ with
      | [] => false
      | _ :: body => opensComponent (if headed ["is"] body then body.drop 1 else body))
    = match nextTokens 4 ⟨position, before, t⟩ with
      | [] => false
      | _ :: body => opensComponent (if headed ["is"] body then body.drop 1 else body) := by
  obtain ⟨tokens, q, k, hk, htokens⟩ | hsame := h.nextTokens_append 4 position
  · have hnil := htokens [] (fun h => nomatch h)
    rw [List.append_nil] at hnil
    rw [htokens u hu.head, hnil]
    have his := (show "is".toList ∈ continuationWords by decide)
    obtain _ | ⟨a, _ | ⟨b, _ | ⟨c, tokens⟩⟩⟩ := tokens
    · simp [hu.headed his, hu.opensComponent, isSequel_nil.headed his, isSequel_nil.opensComponent]
    · simp only [List.cons_append, List.nil_append, headed_cons]
      rw [if_neg (by decide), if_neg (by decide), opensComponent_semicolon,
        opensComponent_semicolon]
    · simp only [List.cons_append, List.nil_append, headed_cons, List.drop_succ_cons,
        List.drop_zero]
      split
      · rw [opensComponent_semicolon, opensComponent_semicolon]
      · simp only [opensComponent, headed_cons, List.drop_succ_cons, List.drop_zero]
    · obtain rfl : k = 0 := by
        simp only [List.length_cons] at hk
        omega
      rfl
  · rw [hsame u hu.head]

/-- A word opens a construct or not, whatever follows the statement. -/
theorem Lexed.opensConstruct_append (hu : IsSequel u) (h : Lexed before t) (hfresh : Lexed none t)
    (w : Text) (position : Nat) :
    opensConstruct w ⟨position, before, t ++ u⟩ = opensConstruct w ⟨position, before, t⟩ := by
  have his := (show "is".toList ∈ continuationWords by decide)
  have hentity : headed ["is"] ((nextTokens 2 ⟨position, before, t ++ u⟩).drop 1)
      = headed ["is"] ((nextTokens 2 ⟨position, before, t⟩).drop 1) := by
    obtain ⟨tokens, q, k, hk, htokens⟩ | hsame := h.nextTokens_append 2 position
    · have hnil := htokens [] (fun h => nomatch h)
      rw [List.append_nil] at hnil
      rw [htokens u hu.head, hnil]
      obtain _ | ⟨a, tokens⟩ := tokens
      · simp [hu.headed his, isSequel_nil.headed his]
      · obtain rfl : k = 0 := by
          simp only [List.length_cons] at hk
          omega
        rfl
    · rw [hsame u hu.head]
  have hpackage : (if headed ["body"] (nextTokens 3 ⟨position, before, t ++ u⟩)
        then headed ["is"] ((nextTokens 3 ⟨position, before, t ++ u⟩).drop 2)
        else headed ["is"] ((nextTokens 3 ⟨position, before, t ++ u⟩).drop 1))
      = if headed ["body"] (nextTokens 3 ⟨position, before, t⟩)
        then headed ["is"] ((nextTokens 3 ⟨position, before, t⟩).drop 2)
        else headed ["is"] ((nextTokens 3 ⟨position, before, t⟩).drop 1) := by
    obtain ⟨tokens, q, k, hk, htokens⟩ | hsame := h.nextTokens_append 3 position
    · have hnil := htokens [] (fun h => nomatch h)
      rw [List.append_nil] at hnil
      rw [htokens u hu.head, hnil]
      obtain _ | ⟨a, _ | ⟨b, tokens⟩⟩ := tokens
      · simp only [List.nil_append, headed_cons, List.drop_succ_cons, List.drop_zero]
        rw [if_neg (by decide), if_neg (by decide), hu.headed his, isSequel_nil.headed his]
      · simp only [List.cons_append, List.nil_append, headed_cons, List.drop_succ_cons,
          List.drop_zero, hu.headed his, isSequel_nil.headed his]
      · obtain rfl : k = 0 := by
          simp only [List.length_cons] at hk
          omega
        rfl
    · rw [hsame u hu.head]
  simp only [opensConstruct, hfresh.isBeforeSemicolon_append hu, hentity, hpackage]
  split
  · rfl
  · split
    · exact h.component_append hu position
    · rfl

/-- The nesting after a word is the same whatever follows the statement. -/
theorem Lexed.word_append (hu : IsSequel u) (h : Lexed before t) (hfresh : Lexed none t)
    (s : Nesting) (w : Text) (position : Nat) :
    s.word w ⟨position, before, t ++ u⟩ = s.word w ⟨position, before, t⟩ := by
  simp only [Nesting.word, h.opensConstruct_append hu hfresh]

/-- The scan of a statement that it reads to its end stops there, whatever follows. -/
theorem Complete.extentFrom_append (hu : IsSequel u) {parens position : Nat} {s : Nesting}
    (h : Complete parens s position before t) :
    ∀ {p : Phase}, p.IsAligned t → (p.after t).isSound = true →
      extentFrom parens s 0 position before (t ++ u) = some (position + t.length) := by
  have hsemi : ∀ before (u : Text), Lexeme.at before (';' :: u) = .code := fun _ _ =>
    at_code (by decide) (fun h => absurd h (by decide)) (fun h => absurd h (by decide))
  induction h with
  | final hs =>
    intro p _ _
    rw [List.cons_append, extentFrom_semicolon, if_pos hs]
    rfl
  | semicolon hs ht ih =>
    intro p hp hsound
    rw [List.cons_append, extentFrom_semicolon, if_neg hs, ih (hp.step (hsemi none _)) hsound,
      List.length_cons]
    congr 1
    omega
  | comment hat ht ih =>
    intro p hp hsound
    have hcomment := hat []
    rw [List.append_nil] at hcomment
    obtain ⟨hafter, hline⟩ := hp.after_comment hcomment
    rw [← List.cons_append, after_append, hafter] at hsound
    rw [List.cons_append, List.append_assoc, extentFrom_comment (hat u),
      ih (p := .comment) hline hsound, List.length_cons, List.length_append]
    congr 1
    omega
  | literal hat ht ih =>
    intro p hp hsound
    have hliteral := hat []
    rw [List.append_nil] at hliteral
    have hrest := (hp.after_literal hsound hliteral).1
    rw [← List.cons_append, after_append] at hsound
    rw [List.cons_append, List.append_assoc, extentFrom_literal (hat u), ih hrest hsound,
      List.length_cons, List.length_append]
    congr 1
    omega
  | @word s next position before w t hw hbefore hrest hnext ht ih =>
    intro p hp hsound
    rw [after_append, hp.after_run hw] at hsound
    have hfresh := ht.lexed.fresh hsound
    have hhead : (t ++ u).head?.any isIdentChar = false := by rwa [ht.lexed.head?_append]
    rw [List.append_assoc, extentFrom_word hw hbefore hhead, ht.lexed.word_append hu hfresh, hnext,
      Option.bind_some, ih (p := .code) trivial hsound, List.length_append, Nat.add_assoc]
  | @run parens s position before w t hw hpass hrest ht ih =>
    intro p hp hsound
    rw [after_append, hp.after_run hw] at hsound
    have hhead : (t ++ u).head?.any isIdentChar = false := by rwa [ht.lexed.head?_append]
    have hstep : extentFrom parens s 0 position before (w ++ (t ++ u))
        = extentFrom parens s 0 (position + w.length) (lastOr before w) (t ++ u) := by
      cases hbefore : before.any isIdentChar with
      | true => exact extentFrom_tail hw.ident hbefore
      | false =>
        obtain h | h := hpass
        · rw [hbefore] at h
          cases h
        · obtain ⟨parens, rfl⟩ := Nat.exists_eq_succ_of_ne_zero h
          exact extentFrom_word_inner hw hbefore hhead
    rw [List.append_assoc, hstep, ih (p := .code) trivial hsound, List.length_append, Nat.add_assoc]
  | opening ht ih =>
    intro p hp hsound
    rw [List.cons_append, extentFrom_open, ih (hp.step (@at_open none _)) hsound,
      List.length_cons]
    congr 1
    omega
  | closing ht ih =>
    intro p hp hsound
    rw [List.cons_append, extentFrom_close, ih (hp.step (@at_close none _)) hsound,
      List.length_cons]
    congr 1
    omega
  | code hat hident hopen hclose hinner ht ih =>
    intro p hp hsound
    have hcode := hat [] (by simp)
    rw [List.append_nil] at hcode
    rw [List.cons_append, extentFrom_code (hat u hu.head) (by simp [hident]) hopen hclose
      (by simpa using hinner), ih (hp.step hcode) hsound, List.length_cons]
    congr 1
    omega

/-- **A settled statement ends where it ends**, whatever follows it that does not carry it
on. -/
theorem extent?_append (ht : Settled t) (hu : IsSequel u) (h : extent? t = some t.length) :
    extent? (t ++ u) = some t.length := by
  have hcomplete := complete_of_extentFrom t.length t 0 .start 0 none (Nat.le_refl _)
    (by rw [Nat.zero_add]; exact h)
  have hextent := hcomplete.extentFrom_append hu (p := .code) trivial ht
  rwa [Nat.zero_add] at hextent

end Sequel

end Text
end CanonicalVhdl
