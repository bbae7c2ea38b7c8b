import CanonicalVhdl.Proofs.Expr.Parts
import CanonicalVhdl.Text.Extent

/-!
# The extent of texts made of tokens

What a reader of statements has opened and not yet closed after a sequence of
tokens.

## Main definitions

* `Nesting.after` — the nesting after a sequence of tokens.

## Main statements

* `Token.extentFrom_render` — the scan for the end of a statement follows the tokens.
-/

namespace CanonicalVhdl

open Text Token

/-! ## Steps of the scan -/

section Steps

variable {parens : Nat} {s : Nesting} {position : Nat} {before : Option Char}

theorem extentFrom_skip (x u : Text) :
    extentFrom parens s x.length position before (x ++ u)
      = extentFrom parens s 0 (position + x.length) (lastOr before x) u := by
  induction x generalizing position before with
  | nil => rfl
  | cons c x ih =>
    rw [List.cons_append, List.length_cons, extentFrom_inside, ih, lastOr_cons]
    congr 1; omega

theorem extentFrom_comment {c : Char} {x u : Text}
    (h : Lexeme.at before (c :: (x ++ u)) = .comment (x.length + 1)) :
    extentFrom parens s 0 position before (c :: (x ++ u))
      = extentFrom parens s 0 (position + 1 + x.length) (lastOr (some c) x) u := by
  rw [extentFrom, h]
  exact extentFrom_skip x u

theorem extentFrom_literal {c : Char} {x u : Text}
    (h : Lexeme.at before (c :: (x ++ u)) = .literal (x.length + 1)) :
    extentFrom parens s 0 position before (c :: (x ++ u))
      = extentFrom parens s 0 (position + 1 + x.length) (lastOr (some c) x) u := by
  rw [extentFrom, h]
  exact extentFrom_skip x u

/-- A character that is part of no word and no mark of structure. -/
theorem extentFrom_code {c : Char} {u : Text} (h : Lexeme.at before (c :: u) = .code)
    (hi : (isIdentChar c && !before.any isIdentChar) = false) (ho : c ≠ '(') (hc : c ≠ ')')
    (hs : (c == ';' && parens == 0) = false) :
    extentFrom parens s 0 position before (c :: u)
      = extentFrom parens s 0 (position + 1) (some c) u := by
  rw [extentFrom, h]
  simp only [hi, hs, beq_iff_eq, ho, hc, Bool.false_eq_true, if_false]

theorem extentFrom_open (u : Text) :
    extentFrom parens s 0 position before ('(' :: u)
      = extentFrom (parens + 1) s 0 (position + 1) (some '(') u := by
  rw [extentFrom, at_open]
  rfl

theorem extentFrom_close (u : Text) :
    extentFrom (parens + 1) s 0 position before (')' :: u)
      = extentFrom parens s 0 (position + 1) (some ')') u := by
  rw [extentFrom, at_close]
  rfl

/-- The first character of a word and the rest of the word. -/
theorem takeWhile_isIdentChar {w u : Text} (hw : w.all isIdentChar = true)
    (hu : u.head?.any isIdentChar = false) : (w ++ u).takeWhile isIdentChar = w := by
  rw [List.takeWhile_append_of_pos fun c hc => List.all_eq_true.1 hw c hc]
  cases u with
  | nil => simp
  | cons c u => simp_all

/-- A word outside parentheses. -/
theorem extentFrom_word {w u : Text} (hw : IsRun w) (hb : before.any isIdentChar = false)
    (hu : u.head?.any isIdentChar = false) :
    extentFrom 0 s 0 position before (w ++ u)
      = (s.word w ⟨position + w.length, lastOr before w, u⟩).bind fun next =>
          extentFrom 0 next 0 (position + w.length) (lastOr before w) u := by
  have hne := hw.ne_nil
  cases w with
  | nil => exact absurd rfl hne
  | cons c w =>
    have hall := List.all_cons.symm.trans hw.ident
    rw [Bool.and_eq_true] at hall
    have htake := takeWhile_isIdentChar hall.2 hu
    have hplace : advance (w.length + 1) ⟨position, before, c :: (w ++ u)⟩
        = ⟨position + (w.length + 1), lastOr before (c :: w), u⟩ := by
      simp [advance, lastOr]
    have hskip : ∀ next : Nesting, extentFrom 0 next w.length (position + 1) (some c) (w ++ u)
        = extentFrom 0 next 0 (position + (w.length + 1)) (lastOr before (c :: w)) u := by
      intro next
      rw [extentFrom_skip, lastOr_cons]
      congr 1; omega
    rw [List.cons_append, extentFrom, at_ident _ hall.1]
    simp only [hall.1, hb, Bool.not_false, Bool.and_self, if_true, beq_self_eq_true, htake,
      List.length_cons, Nat.add_sub_cancel, hplace]
    cases s.word (c :: w) ⟨position + (w.length + 1), lastOr before (c :: w), u⟩ with
    | none => rfl
    | some next => exact hskip next

/-- A word inside parentheses. -/
theorem extentFrom_word_inner {w u : Text} (hw : IsRun w) (hb : before.any isIdentChar = false)
    (hu : u.head?.any isIdentChar = false) :
    extentFrom (parens + 1) s 0 position before (w ++ u)
      = extentFrom (parens + 1) s 0 (position + w.length) (lastOr before w) u := by
  have hne := hw.ne_nil
  cases w with
  | nil => exact absurd rfl hne
  | cons c w =>
    have hall := List.all_cons.symm.trans hw.ident
    rw [Bool.and_eq_true] at hall
    have htake := takeWhile_isIdentChar hall.2 hu
    rw [List.cons_append, extentFrom, at_ident _ hall.1]
    simp only [hall.1, hb, Bool.not_false, Bool.and_self, if_true, htake, List.length_cons,
      Nat.add_sub_cancel]
    rw [if_neg (by simp), extentFrom_skip, lastOr_cons]
    congr 1; omega

/-- Characters of code that start no word are passed over. -/
theorem extentFrom_pass {u : Text} :
    ∀ (x : Text) (position : Nat) (before : Option Char),
      (∀ a c b, x = a ++ c :: b → Lexeme.at (lastOr before a) (c :: (b ++ u)) = .code
        ∧ c ≠ '(' ∧ c ≠ ')' ∧ isIdentChar c = false ∧ (c = ';' → parens ≠ 0)) →
      extentFrom parens s 0 position before (x ++ u)
        = extentFrom parens s 0 (position + x.length) (lastOr before x) u
  | [], _, _, _ => rfl
  | c :: x, position, before, h => by
    obtain ⟨hcode, ho, hc, hi, hs⟩ := h [] c x rfl
    rw [lastOr_nil] at hcode
    have hsemi : (c == ';' && parens == 0) = false := by
      by_cases hcs : c = ';'
      · simp [hs hcs]
      · simp [hcs]
    rw [List.cons_append, extentFrom_code hcode (by simp [hi]) ho hc hsemi,
      extentFrom_pass x _ _ fun a d b hx => by
        have := h (c :: a) d b (by rw [hx]; rfl)
        rwa [lastOr_cons] at this,
      lastOr_cons, List.length_cons]
    congr 1; omega

end Steps

/-! ## Words without a part in the structure -/

/-- The words that look ahead for what makes them open a construct. -/
def lookingWords : List Text :=
  ["component", "function", "procedure", "entity", "package"].map String.toList

/-- The words that open, divide or close constructs. -/
def structureWords : List Text :=
  ["end", "then", "is", "elsif", "else", "generate"].map String.toList ++ constructWords ++ lookingWords

theorem sameWord_eq_false_of_not_mem {words : List Text} (hwords : ∀ v ∈ words, fold v = v)
    {w : Text} (h : words.contains (fold w) = false) {v : Text} (hv : v ∈ words) :
    sameWord w v = false := by
  rw [Bool.eq_false_iff]
  intro hsame
  rw [sameWord_iff.1 hsame, hwords v hv] at h
  rw [List.contains_iff_mem.2 hv] at h
  cases h

theorem fold_structureWords : ∀ v ∈ structureWords, fold v = v := by
  decide

/-- An identifier is no reserved word in either case. -/
theorem Ident.sameWord_eq_false (i : Ident) {w : Text} (h : isReserved w = true) :
    sameWord i.text w = false := by
  rw [Bool.eq_false_iff]
  intro hsame
  have := isReserved_congr hsame
  rw [i.not_isReserved, h] at this
  cases this

/-- An identifier is no word of the structure. -/
theorem Ident.not_mem_structureWords (i : Ident) :
    structureWords.contains (Text.fold i.text) = false := by
  have key : ∀ v ∈ structureWords, isReserved v = true := by decide
  rw [Bool.eq_false_iff]
  intro hmem
  have hsame : sameWord i.text (Text.fold i.text) = true := by
    rw [sameWord_iff, fold_structureWords _ (List.contains_iff_mem.1 hmem)]
  rw [i.sameWord_eq_false (key _ (List.contains_iff_mem.1 hmem))] at hsame
  cases hsame

theorem lookingWords_of_structureWords {w : Text} (h : structureWords.contains (fold w) = false) :
    lookingWords.contains (fold w) = false := by
  rw [Bool.eq_false_iff] at h ⊢
  exact fun hmem => h (List.contains_iff_mem.2
    (List.mem_append_right _ (List.contains_iff_mem.1 hmem)))

/-- A word that does not look ahead opens a construct everywhere or nowhere. -/
theorem opensConstruct_place {w : Text} (h : lookingWords.contains (fold w) = false) (p q : Place) :
    opensConstruct w p = opensConstruct w q := by
  have hlook : ∀ v ∈ lookingWords, sameWord w v = false := fun v hv =>
    sameWord_eq_false_of_not_mem
      (fun v hv => fold_structureWords v (List.mem_append_right _ hv)) h hv
  simp only [opensConstruct, hlook _ (show "component".toList ∈ lookingWords by decide),
    hlook _ (show "function".toList ∈ lookingWords by decide),
    hlook _ (show "procedure".toList ∈ lookingWords by decide),
    hlook _ (show "entity".toList ∈ lookingWords by decide),
    hlook _ (show "package".toList ∈ lookingWords by decide)]
  rfl

/-- A word that does not look ahead has the same effect wherever it stands. -/
theorem Nesting.word_congr {w : Text} (h : lookingWords.contains (fold w) = false) (s : Nesting)
    (p q : Place) : s.word w p = s.word w q := by
  simp only [Nesting.word, opensConstruct_place h p q]

/-- A word without a part in the structure changes nothing. -/
theorem Nesting.word_eq_self {w : Text} (h : structureWords.contains (fold w) = false) {s : Nesting}
    (hs : s.afterEnd = false) (p : Place) : s.word w p = some s := by
  have hall : ∀ v ∈ structureWords, sameWord w v = false := fun v hv =>
    sameWord_eq_false_of_not_mem fold_structureWords h hv
  have hopens : opensConstruct w p = false := by
    have hany : constructWords.any (sameWord w) = false := by
      rw [List.any_eq_false]
      intro v hv
      rw [hall v (List.mem_append_left _ (List.mem_append_right _ hv))]
      decide
    simp only [opensConstruct, hany, hall _ (show "component".toList ∈ structureWords by decide),
      hall _ (show "function".toList ∈ structureWords by decide),
      hall _ (show "procedure".toList ∈ structureWords by decide),
      hall _ (show "entity".toList ∈ structureWords by decide),
      hall _ (show "package".toList ∈ structureWords by decide)]
    rfl
  simp only [Nesting.word, hs, hopens, hall _ (show "end".toList ∈ structureWords by decide),
    hall _ (show "then".toList ∈ structureWords by decide),
    hall _ (show "is".toList ∈ structureWords by decide),
    hall _ (show "elsif".toList ∈ structureWords by decide),
    hall _ (show "else".toList ∈ structureWords by decide),
    hall _ (show "generate".toList ∈ structureWords by decide)]
  rfl

/-- A word that has no effect is passed over. -/
theorem extentFrom_plain_word {parens : Nat} {s : Nesting} {position : Nat} {before : Option Char}
    {w u : Text} (hw : IsRun w) (hb : before.any isIdentChar = false)
    (hu : u.head?.any isIdentChar = false) (hs : parens = 0 → ∀ p, s.word w p = some s) :
    extentFrom parens s 0 position before (w ++ u)
      = extentFrom parens s 0 (position + w.length) (lastOr before w) u := by
  cases parens with
  | zero =>
    rw [extentFrom_word hw hb hu, hs rfl]
    rfl
  | succ parens => exact extentFrom_word_inner hw hb hu

/-- A run of digits is no word of the structure. -/
theorem Nesting.word_digits {w : Text} (hne : w ≠ []) (hw : w.all Char.isDigit = true) {s : Nesting}
    (hs : s.afterEnd = false) (p : Place) : s.word w p = some s := by
  apply Nesting.word_eq_self _ hs
  rw [Bool.eq_false_iff]
  intro hmem
  have halpha : ∀ v ∈ structureWords, v.head?.any Char.isAlpha = true := by decide
  have hhead := halpha _ (List.contains_iff_mem.1 hmem)
  cases w with
  | nil => exact hne rfl
  | cons c w =>
    rw [List.all_cons, Bool.and_eq_true] at hw
    rw [fold, List.map_cons, List.head?_cons, Option.any_some, isAlpha_toLower] at hhead
    rw [isDigit_eq_false_of_isAlpha hhead] at hw
    exact absurd hw.1 (by decide)

/-- A number is passed over, digits and point by point. -/
theorem extentFrom_number {parens : Nat} {s : Nesting} {u : Text}
    (hs : parens = 0 → s.afterEnd = false) (hu : u.head?.any isIdentChar = false) :
    ∀ (n : Nat) (x : Text) (position : Nat) (before : Option Char), x.length ≤ n →
      x.all isNumberChar = true →
      extentFrom parens s 0 position before (x ++ u)
        = extentFrom parens s 0 (position + x.length) (lastOr before x) u := by
  intro n
  induction n with
  | zero =>
    intro x position before hn hx
    rw [List.eq_nil_of_length_eq_zero (Nat.le_zero.1 hn)]
    rfl
  | succ n ih =>
    intro x position before hn hx
    cases x with
    | nil => rfl
    | cons c x =>
      rw [List.all_cons, Bool.and_eq_true] at hx
      have hlen : x.length ≤ n := Nat.le_of_succ_le_succ hn
      by_cases hstart : (isIdentChar c && !before.any isIdentChar) = true
      · -- a run of digits starts here
        rw [Bool.and_eq_true, Bool.not_eq_true'] at hstart
        have hdigit : c.isDigit = true := by
          rcases Bool.or_eq_true_iff.1 hx.1 with h | h
          · exact h
          · rw [beq_iff_eq.1 h] at hstart
            exact absurd hstart.1 (by decide)
        have hrun : (c :: x.takeWhile Char.isDigit).all Char.isDigit = true := by
          rw [List.all_cons, hdigit]
          simp
        have hrest : ((x.dropWhile Char.isDigit) ++ u).head?.any isIdentChar = false := by
          cases hd : x.dropWhile Char.isDigit with
          | nil => exact hu
          | cons d r =>
            have hnot := List.head?_dropWhile_not Char.isDigit x
            rw [hd] at hnot
            have hmem : d ∈ x := (List.dropWhile_sublist _).subset (by rw [hd]; simp)
            have hnum := List.all_eq_true.1 hx.2 d hmem
            rcases Bool.or_eq_true_iff.1 hnum with h | h
            · simp [h] at hnot
            · rw [beq_iff_eq.1 h]
              rfl
        have hident : IsRun (c :: x.takeWhile Char.isDigit) :=
          ⟨List.cons_ne_nil _ _, List.all_eq_true.2 fun d hd =>
            isIdentChar_of_isDigit (List.all_eq_true.1 hrun d hd)⟩
        have hsplit : c :: x ++ u
            = (c :: x.takeWhile Char.isDigit) ++ (x.dropWhile Char.isDigit ++ u) := by
          rw [List.cons_append, List.cons_append, ← List.append_assoc, List.takeWhile_append_dropWhile]
        have hword : parens = 0 → ∀ p, s.word (c :: x.takeWhile Char.isDigit) p = some s :=
          fun h p => Nesting.word_digits (List.cons_ne_nil _ _) hrun (hs h) p
        have hshort : (x.dropWhile Char.isDigit).length ≤ n :=
          Nat.le_trans (List.dropWhile_sublist _).length_le hlen
        have hall : (x.dropWhile Char.isDigit).all isNumberChar = true :=
          List.all_eq_true.2 fun d hd =>
            List.all_eq_true.1 hx.2 d ((List.dropWhile_sublist _).subset hd)
        rw [hsplit, extentFrom_plain_word hident hstart.2 hrest hword, ih _ _ _ hshort hall,
          ← lastOr_append]
        rw [List.cons_append, List.takeWhile_append_dropWhile, Nat.add_assoc, ← List.length_append,
          List.cons_append, List.takeWhile_append_dropWhile]
      · -- the point, or a digit inside a run
        rw [Bool.not_eq_true] at hstart
        have hne : c ≠ '(' ∧ c ≠ ')' ∧ c ≠ ';' := by
          refine ⟨?_, ?_, ?_⟩
          · rintro rfl
            exact absurd hx.1 (by decide)
          · rintro rfl
            exact absurd hx.1 (by decide)
          · rintro rfl
            exact absurd hx.1 (by decide)
        have hsemi : (c == ';' && parens == 0) = false := by simp [hne.2.2]
        rw [List.cons_append, extentFrom_code (at_number _ hx.1) hstart hne.1 hne.2.1 hsemi,
          ih _ _ _ hlen hx.2, lastOr_cons, List.length_cons]
        congr 1; omega

/-! ## Tokens -/

section Tokens

variable {parens : Nat} {s : Nesting} {position : Nat} {before : Option Char}

/-- Literals, symbols and marks are passed over, a semicolon inside parentheses only. -/
theorem extentFrom_flat {token : Token} {u : Text} (h : token.Fits before u.head?)
    (hw : ∀ w, token ≠ word w) (hn : ∀ digits, token ≠ number digits)
    (hg : ∀ inner, token ≠ group inner) (hs : token = mark ';' → parens ≠ 0) :
    extentFrom parens s 0 position before (token.text ++ u)
      = extentFrom parens s 0 (position + token.text.length) (lastOr before token.text) u := by
  cases token with
  | word w => exact absurd rfl (hw w)
  | number digits => exact absurd rfl (hn digits)
  | group inner => exact absurd rfl (hg inner)
  | symbol t =>
    have key : ∀ t ∈ symbols, ∀ c ∈ t, isIdentChar c = false ∧ c ≠ ';' := by decide
    refine extentFrom_pass _ _ _ fun a c b hx => ?_
    obtain ⟨hcode, ho, hc⟩ := h.code rfl (by simp) (by simp) (by simp) hx
    have hmem : c ∈ t := by rw [← text_symbol t, hx]; simp
    obtain ⟨hi, hne⟩ := key t h.1 c hmem
    exact ⟨hcode, ho, hc, hi, fun h => absurd h hne⟩
  | mark d =>
    have key : ∀ d ∈ marks, isIdentChar d = false := by decide
    refine extentFrom_pass _ _ _ fun a c b hx => ?_
    obtain ⟨hcode, ho, hc⟩ := h.code rfl (by simp) (by simp) (by simp) hx
    have hmem : c ∈ [d] := by rw [← text_mark d, hx]; simp
    rw [List.mem_singleton] at hmem
    subst hmem
    exact ⟨hcode, ho, hc, key c h.1, fun hc => hs (by rw [hc])⟩
  | quoted body =>
    have hat : Lexeme.at before ('"' :: ((body ++ ['"']) ++ u))
        = .literal ((body ++ ['"']).length + 1) := by simpa using at_quoted h rfl
    rw [text_quoted, List.cons_append, extentFrom_literal hat, lastOr_cons, List.length_cons]
    congr 1; omega
  | ticked c =>
    have hat : Lexeme.at before ('\'' :: ([c, '\''] ++ u)) = .literal 3 := at_ticked u h
    rw [text_ticked, List.cons_append, extentFrom_literal hat]
    rfl

end Tokens

mutual

/-- Inside parentheses every token is passed over. -/
theorem extentFrom_inner (s : Nesting) :
    ∀ (token : Token) (u : Text) (parens position : Nat) (before : Option Char),
      token.Fits before u.head? →
      extentFrom (parens + 1) s 0 position before (token.text ++ u)
        = extentFrom (parens + 1) s 0 (position + token.text.length) (lastOr before token.text) u
  | .group inner, u, parens, position, before, h => by
    rw [text_group, List.cons_append, List.append_assoc, List.singleton_append, extentFrom_open,
      extentFrom_innerAll s inner _ _ _ _ (by exact h), extentFrom_close, lastOr_cons, lastOr_append,
      List.length_cons, List.length_append]
    congr 1; simp only [List.length_singleton]; omega
  | .word w, u, _, _, _, h => extentFrom_plain_word h.1 h.2.1 h.2.2.1 fun h => by cases h
  | .number digits, u, _, _, _, h =>
    extentFrom_number (fun h => by cases h)
      (by
        have := h.2.2.2
        cases u with
        | nil => rfl
        | cons c u => simp_all)
      _ _ _ _ (Nat.le_refl _) h.2.1
  | .quoted body, u, _, _, _, h => extentFrom_flat h (by simp) (by simp) (by simp) (by simp)
  | .ticked c, u, _, _, _, h => extentFrom_flat h (by simp) (by simp) (by simp) (by simp)
  | .symbol t, u, _, _, _, h => extentFrom_flat h (by simp) (by simp) (by simp) (by simp)
  | .mark c, u, _, _, _, h => extentFrom_flat h (by simp) (by simp) (by simp) (by simp)

/-- Inside parentheses every sequence is passed over. -/
theorem extentFrom_innerAll (s : Nesting) :
    ∀ (tokens : List Token) (u : Text) (parens position : Nat) (before : Option Char),
      FitAll before tokens u.head? →
      extentFrom (parens + 1) s 0 position before (render tokens ++ u)
        = extentFrom (parens + 1) s 0 (position + (render tokens).length)
            (lastOr before (render tokens)) u
  | [], _, _, _, _, _ => rfl
  | token :: tokens, u, parens, position, before, h => by
    obtain ⟨ht, hts⟩ := h
    rw [firstOr, ← List.head?_append] at ht
    rw [render_cons, List.append_assoc, extentFrom_inner s token _ _ _ _ ht,
      extentFrom_innerAll s tokens _ _ _ _ hts, lastOr_append, List.length_append, Nat.add_assoc]

end

namespace Nesting

/-- The nesting after a token outside parentheses.  There is none for a word that
looks ahead, and none for the semicolon that ends the whole statement. -/
def token (s : Nesting) : Token → Option Nesting
  | .word w => if lookingWords.contains (fold w) then none else s.word w ⟨0, none, []⟩
  | .number _ => if s.afterEnd then none else some s
  | .mark c =>
    if c == ';' then if s.depth == 0 then none else some s.semicolon
    else some s
  | .quoted _ | .ticked _ | .symbol _ | .group _ => some s

/-- The nesting after a sequence of tokens outside parentheses. -/
def after (s : Nesting) : List Token → Option Nesting
  | [] => some s
  | token :: tokens => (s.token token).bind (·.after tokens)

theorem after_append (s : Nesting) (ts us : List Token) :
    s.after (ts ++ us) = (s.after ts).bind (·.after us) := by
  induction ts generalizing s with
  | nil => rfl
  | cons t ts ih =>
    simp only [List.cons_append, after]
    cases s.token t with
    | none => rfl
    | some s' => exact ih s'

/-- Whether a token has no part in the structure of statements. -/
def isInert : Token → Bool
  | .word w => !structureWords.contains (fold w)
  | .mark c => c != ';'
  | .number _ | .quoted _ | .ticked _ | .symbol _ | .group _ => true

/-- Tokens without a part in the structure change nothing. -/
theorem after_eq_self {s : Nesting} (hs : s.afterEnd = false) {tokens : List Token}
    (h : ∀ t ∈ tokens, isInert t = true) : s.after tokens = some s := by
  induction tokens with
  | nil => rfl
  | cons t ts ih =>
    have ht := h t List.mem_cons_self
    have hstep : s.token t = some s := by
      cases t with
      | word w =>
        have hw : structureWords.contains (fold w) = false := by simpa [isInert] using ht
        rw [token, lookingWords_of_structureWords hw]
        exact word_eq_self hw hs _
      | number digits => simp [token, hs]
      | mark c =>
        have hc : (c == ';') = false := by simpa [isInert] using ht
        rw [token, hc]
        rfl
      | quoted | ticked | symbol | group => rfl
    rw [after, hstep]
    exact ih fun t ht => h t (List.mem_cons_of_mem _ ht)

/-- No token of an expression has a part in the structure of statements. -/
theorem isInert_of_isCalm {t : Token} (h : t.isCalm = true) : isInert t = true := by
  cases t with
  | word w =>
    have key : ∀ v ∈ structureWords, isReserved v = true ∧ expressionWords.contains v = false := by
      decide
    simp only [isInert, Bool.not_eq_true']
    rw [Bool.eq_false_iff]
    intro hmem
    obtain ⟨hres, hexpr⟩ := key _ (List.contains_iff_mem.1 hmem)
    have hfold : isReserved (fold w) = isReserved w :=
      isReserved_congr (by rw [sameWord_iff, fold_structureWords _ (List.contains_iff_mem.1 hmem)])
    rw [hfold] at hres
    simp only [Token.isCalm, hexpr, hres, Bool.not_true, Bool.or_self] at h
    cases h
  | mark c =>
    have hc : c ∈ [' ', '.', '\'', '-'] := by simpa [Token.isCalm] using h
    have key : ∀ c ∈ [' ', '.', '\'', '-'], isInert (mark c) = true := by decide
    exact key c hc
  | number | quoted | ticked | symbol | group => rfl

end Nesting

namespace Token

variable {s s' : Nesting} {position : Nat} {before : Option Char}

/-- **The scan for the end of a statement follows a token.** -/
theorem extentFrom_token {token : Token} {u : Text} (h : token.Fits before u.head?)
    (hs : s.token token = some s') :
    extentFrom 0 s 0 position before (token.text ++ u)
      = extentFrom 0 s' 0 (position + token.text.length) (lastOr before token.text) u := by
  cases token with
  | word w =>
    simp only [Nesting.token] at hs
    split at hs
    · cases hs
    · rename_i hlook
      rw [Bool.not_eq_true] at hlook
      rw [text_word, extentFrom_word h.1 h.2.1 h.2.2.1, Nesting.word_congr hlook s _ ⟨0, none, []⟩, hs]
      rfl
  | number digits =>
    simp only [Nesting.token] at hs
    split at hs
    · cases hs
    · rename_i hend
      cases hs
      rw [Bool.not_eq_true] at hend
      have hu : u.head?.any isIdentChar = false := by
        have := h.2.2.2
        cases u with
        | nil => rfl
        | cons c u => simp_all
      exact extentFrom_number (fun _ => hend) hu _ _ _ _ (Nat.le_refl _) h.2.1
  | group inner =>
    cases hs
    rw [text_group, List.cons_append, List.append_assoc, List.singleton_append, extentFrom_open,
      extentFrom_innerAll s inner _ _ _ _ (by exact h), extentFrom_close, lastOr_cons, lastOr_append,
      List.length_cons, List.length_append]
    congr 1; simp only [List.length_singleton]; omega
  | mark c =>
    by_cases hc : c = ';'
    · subst hc
      have hdepth : s.depth ≠ 0 := by
        rintro hdepth
        simp [Nesting.token, hdepth] at hs
      simp only [Nesting.token, beq_self_eq_true, if_true, beq_iff_eq, hdepth, if_false,
        Option.some.injEq] at hs
      subst hs
      rw [text_mark, List.singleton_append, extentFrom, at_mark h rfl]
      simp [hdepth, isIdentChar]
    · have hs : s = s' := by simpa [Nesting.token, hc] using hs
      subst hs
      exact extentFrom_flat h (by simp) (by simp) (by simp) (by simp [hc])
  | quoted body =>
    cases hs
    exact extentFrom_flat h (by simp) (by simp) (by simp) (by simp)
  | ticked c =>
    cases hs
    exact extentFrom_flat h (by simp) (by simp) (by simp) (by simp)
  | symbol t =>
    cases hs
    exact extentFrom_flat h (by simp) (by simp) (by simp) (by simp)

/-- **The scan for the end of a statement follows the tokens.** -/
theorem extentFrom_render {tokens : List Token} {u : Text} (h : FitAll before tokens u.head?)
    (hs : s.after tokens = some s') :
    extentFrom 0 s 0 position before (render tokens ++ u)
      = extentFrom 0 s' 0 (position + (render tokens).length) (lastOr before (render tokens)) u := by
  induction tokens generalizing s position before with
  | nil => cases hs; rfl
  | cons token tokens ih =>
    obtain ⟨ht, hts⟩ := h
    obtain ⟨next, hnext, hs⟩ := Option.bind_eq_some_iff.1 hs
    rw [firstOr, ← List.head?_append] at ht
    rw [render_cons, List.append_assoc, extentFrom_token ht hnext, ih hts hs, lastOr_append,
      List.length_append, Nat.add_assoc]

end Token
end CanonicalVhdl
