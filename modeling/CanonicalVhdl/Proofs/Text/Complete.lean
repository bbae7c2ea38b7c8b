import CanonicalVhdl.Proofs.Text.Continuation

/-!
# Complete statements

A scan that ends with the last semicolon of a text reads the text lexeme by lexeme.
Every lexeme before that semicolon has something behind it inside the text, so it
is the same lexeme whatever follows the text, unless a tick does.

## Main definitions

* `Text.Lexed before t` — a text read as lexemes, the last one its final semicolon.
* `Text.Complete parens s position before t` — a statement that a scan reads to its end.

## Main statements

* `Text.complete_of_extentFrom` — what the scan for the end of a statement has read.
* `Text.Complete.findPointFrom` — a statement closes the parentheses it opens.
-/

namespace CanonicalVhdl

open Text Token

namespace Text

/-! ## Lexemes with something behind them -/

theorem le_quotedLength (n : Nat) (t : Text) : n ≤ Lexeme.quotedLength n t := by
  obtain ⟨x, r, -, hlen⟩ := quotedLength_split n t
  omega

/-- Where a quoted literal ends, one character behind it decides. -/
theorem quotedLength_stable {d : Char} {r r' x : Text} {n : Nat}
    (h : Lexeme.quotedLength n (x ++ d :: r) = n + x.length) :
    Lexeme.quotedLength n (x ++ d :: r') = n + x.length := by
  induction hm : x.length using Nat.strongRecOn generalizing x n with
  | ind m ih =>
    subst hm
    rcases x with _ | ⟨e, x⟩
    · rw [List.nil_append, List.length_nil, Nat.add_zero] at h ⊢
      by_cases hquote : d = '"'
      · subst hquote
        rcases r with _ | ⟨e, r⟩
        · simp [Lexeme.quotedLength] at h
        · by_cases he : e = '"'
          · subst he
            have := le_quotedLength (n + 2) r
            rw [Lexeme.quotedLength] at h
            omega
          · simp [Lexeme.quotedLength, he] at h
      · by_cases hline : d = '\n'
        · subst hline
          rfl
        · have := le_quotedLength (n + 1) r
          rw [Lexeme.quotedLength] at h
          · omega
          · intro r hd
            exact absurd hd hquote
          · exact hquote
          · exact hline
    · by_cases hquote : e = '"'
      · subst hquote
        rcases x with _ | ⟨f, x⟩
        · by_cases hd : d = '"'
          · subst hd
            have := le_quotedLength (n + 2) r
            simp only [List.cons_append, List.nil_append, Lexeme.quotedLength, List.length_cons,
              List.length_nil] at h
            omega
          · simp [Lexeme.quotedLength, hd]
        · by_cases hf : f = '"'
          · subst hf
            have hlen : n + ('"' :: '"' :: x).length = n + 2 + x.length := by
              simp only [List.length_cons]
              omega
            simp only [List.cons_append, Lexeme.quotedLength] at h ⊢
            rw [hlen] at h ⊢
            exact ih _ (by simp only [List.length_cons]; omega) h rfl
          · simp only [List.cons_append, List.length_cons] at h
            rw [Lexeme.quotedLength] at h
            · omega
            · rintro r ⟨⟩
              exact hf rfl
      · by_cases hline : e = '\n'
        · subst hline
          simp [Lexeme.quotedLength] at h
        · have hstep : ∀ t, Lexeme.quotedLength n (e :: t) = Lexeme.quotedLength (n + 1) t := by
            intro t
            rw [Lexeme.quotedLength]
            · intro r he
              exact absurd he hquote
            · exact hquote
            · exact hline
          have hlen : n + (e :: x).length = n + 1 + x.length := by
            simp only [List.length_cons]
            omega
          rw [List.cons_append, hstep, hlen] at h
          rw [List.cons_append, hstep, hlen]
          exact ih _ (by simp only [List.length_cons]; omega) h rfl

theorem lineLength_stable {d : Char} {r r' x : Text} {n : Nat}
    (h : Lexeme.lineLength n (x ++ d :: r) = n + x.length) :
    Lexeme.lineLength n (x ++ d :: r') = n + x.length := by
  have hle : ∀ n (t : Text), n ≤ Lexeme.lineLength n t := by
    intro n t
    obtain ⟨x, r, -, hlen, -⟩ := lineLength_split n t
    omega
  induction x generalizing n with
  | nil =>
    rw [List.nil_append, Lexeme.lineLength] at h ⊢
    split at h
    · next hd => rw [if_pos hd, List.length_nil, Nat.add_zero]
    · have := hle (n + 1) r
      rw [List.length_nil] at h
      omega
  | cons e x ih =>
    rw [List.cons_append, Lexeme.lineLength, List.length_cons] at h ⊢
    split at h
    · omega
    · next he =>
      rw [if_neg he]
      rw [show n + (x.length + 1) = n + 1 + x.length by omega] at h ⊢
      exact ih h

/-- A comment with something behind it. -/
theorem comment_stable {before : Option Char} {c d : Char} {x r : Text}
    (h : Lexeme.at before (c :: (x ++ d :: r)) = .comment (x.length + 1)) (r' : Text) :
    Lexeme.at before (c :: (x ++ d :: r')) = .comment (x.length + 1) := by
  unfold Lexeme.at at h
  split at h
  · next rest heq =>
    obtain ⟨rfl, hx⟩ := List.cons.inj heq
    have hlen := Lexeme.comment.inj h
    rcases x with _ | ⟨e, x⟩
    · obtain ⟨rfl, rfl⟩ := List.cons.inj hx
      obtain ⟨x, r, -, hlen', -⟩ := lineLength_split 2 r
      rw [List.length_nil] at hlen
      omega
    · obtain ⟨rfl, rfl⟩ := List.cons.inj hx
      rw [List.length_cons, show x.length + 1 + 1 = 2 + x.length by omega] at hlen
      rw [List.cons_append, Lexeme.at, lineLength_stable hlen, List.length_cons]
      congr 1
      omega
  · cases h
  · split at h <;> cases h
  · cases h

/-- A literal with something behind it. -/
theorem literal_stable {before : Option Char} {c d : Char} {x r : Text}
    (h : Lexeme.at before (c :: (x ++ d :: r)) = .literal (x.length + 1)) (r' : Text) :
    Lexeme.at before (c :: (x ++ d :: r')) = .literal (x.length + 1) := by
  unfold Lexeme.at at h
  split at h
  · cases h
  · next rest heq =>
    obtain ⟨rfl, rfl⟩ := List.cons.inj heq
    have hlen := Lexeme.literal.inj h
    rw [Nat.add_comm] at hlen
    rw [Lexeme.at, quotedLength_stable hlen]
    congr 1
    omega
  · next e rest heq =>
    obtain ⟨rfl, hx⟩ := List.cons.inj heq
    split at h
    · next hcond =>
      have hlen := Lexeme.literal.inj h
      obtain _ | ⟨a, _ | ⟨b, _ | ⟨f, x⟩⟩⟩ := x
      · simp at hlen
      · simp at hlen
      · simp only [List.cons_append, List.nil_append, List.cons.injEq] at hx
        obtain ⟨rfl, rfl, -⟩ := hx
        simp [Lexeme.at, hcond]
      · simp at hlen
    · cases h
  · cases h

/-- A character of code with something behind it, unless a tick follows the text. -/
theorem code_stable {before : Option Char} {c : Char} {t : Text}
    (h : Lexeme.at before (c :: t) = .code) (hne : t ≠ []) {u : Text} (hu : u.head? ≠ some '\'') :
    Lexeme.at before (c :: (t ++ u)) = .code := by
  obtain ⟨d, t, rfl⟩ := List.exists_cons_of_ne_nil hne
  by_cases htick : c = '\''
  · subst htick
    rcases t with _ | ⟨e, t⟩
    · rcases u with _ | ⟨e, u⟩
      · rfl
      · have he : e ≠ '\'' := fun he => hu (by rw [he]; rfl)
        simp [Lexeme.at, he]
    · by_cases he : e = '\''
      · subst he
        exact h
      · simp [Lexeme.at, he]
  · refine at_code ?_ (fun h => absurd h htick) ?_
    · rintro rfl
      cases h
    · rintro rfl hdash
      obtain rfl := Option.some.inj hdash
      cases h

/-- A comment, by its characters. -/
theorem exists_comment {before : Option Char} {t : Text} {n : Nat}
    (h : Lexeme.at before t = .comment n) :
    ∃ x r, t = '-' :: '-' :: (x ++ r) ∧ n = x.length + 2 ∧ '\n' ∉ x ∧ AtLineEnd r := by
  unfold Lexeme.at at h
  split at h
  · next rest =>
    obtain ⟨x, r, rfl, hlen, hx, hr⟩ := lineLength_split 2 rest
    refine ⟨x, r, rfl, ?_, hx, hr⟩
    rw [hlen] at h
    have := Lexeme.comment.inj h
    omega
  · cases h
  · split at h <;> cases h
  · cases h

/-! ## Texts read as lexemes -/

/-- A text read as lexemes after a character, the last of them its final semicolon.
They are the same whatever follows, unless a tick does. -/
inductive Lexed : Option Char → Text → Prop
  /-- The final semicolon. -/
  | final (before : Option Char) : Lexed before [';']
  /-- A character of code. -/
  | code {before : Option Char} {c : Char} {t : Text}
      (hat : ∀ u : Text, u.head? ≠ some '\'' → Lexeme.at before (c :: (t ++ u)) = .code)
      (ht : Lexed (some c) t) : Lexed before (c :: t)
  /-- A literal. -/
  | literal {before : Option Char} {c : Char} {x t : Text}
      (hat : ∀ u : Text, Lexeme.at before (c :: (x ++ (t ++ u))) = .literal (x.length + 1))
      (ht : Lexed (lastOr (some c) x) t) : Lexed before (c :: (x ++ t))
  /-- A comment. -/
  | comment {before : Option Char} {c : Char} {x t : Text}
      (hat : ∀ u : Text, Lexeme.at before (c :: (x ++ (t ++ u))) = .comment (x.length + 1))
      (ht : Lexed (lastOr (some c) x) t) : Lexed before (c :: (x ++ t))

/-- The final semicolon and what precedes it. -/
theorem Lexed.exists_concat {before : Option Char} {t : Text} (h : Lexed before t) :
    ∃ s, t = s ++ [';'] := by
  induction h with
  | final => exact ⟨[], rfl⟩
  | code hat ht ih =>
    obtain ⟨s, rfl⟩ := ih
    exact ⟨_ :: s, rfl⟩
  | literal hat ht ih | comment hat ht ih =>
    obtain ⟨s, rfl⟩ := ih
    exact ⟨_ :: (_ ++ s), by rw [← List.append_assoc, List.cons_append]⟩

theorem Lexed.ne_nil {before : Option Char} {t : Text} (h : Lexed before t) : t ≠ [] := by
  obtain ⟨s, rfl⟩ := h.exists_concat
  simp

/-- The head of a text with something behind it. -/
theorem Lexed.head?_append {before : Option Char} {t : Text} (h : Lexed before t) (u : Text) :
    (t ++ u).head? = t.head? :=
  List.head?_append_of_ne_nil _ h.ne_nil

/-- A word before lexemes. -/
theorem Lexed.run {w : Text} (hw : w.all isIdentChar = true) {t : Text} :
    ∀ {before : Option Char}, Lexed (lastOr before w) t → Lexed before (w ++ t) := by
  induction w with
  | nil => exact fun h => h
  | cons c w ih =>
    intro before h
    rw [List.all_cons, Bool.and_eq_true] at hw
    rw [lastOr_cons] at h
    exact .code (fun u _ => at_ident _ hw.1) (ih hw.2 h)

/-! ## Statements read to their end -/

/-- A statement that a scan reads to its end, as it stands at a place with so many open
parentheses and constructs. -/
inductive Complete : Nat → Nesting → Nat → Option Char → Text → Prop
  /-- The semicolon that ends the statement. -/
  | final {s : Nesting} {position : Nat} {before : Option Char} (hs : s.depth = 0) :
      Complete 0 s position before [';']
  /-- A semicolon inside a construct. -/
  | semicolon {s : Nesting} {position : Nat} {before : Option Char} {t : Text} (hs : s.depth ≠ 0)
      (ht : Complete 0 s.semicolon (position + 1) (some ';') t) :
      Complete 0 s position before (';' :: t)
  /-- A comment. -/
  | comment {parens : Nat} {s : Nesting} {position : Nat} {before : Option Char} {c : Char}
      {x t : Text}
      (hat : ∀ u : Text, Lexeme.at before (c :: (x ++ (t ++ u))) = .comment (x.length + 1))
      (ht : Complete parens s (position + 1 + x.length) (lastOr (some c) x) t) :
      Complete parens s position before (c :: (x ++ t))
  /-- A literal. -/
  | literal {parens : Nat} {s : Nesting} {position : Nat} {before : Option Char} {c : Char}
      {x t : Text}
      (hat : ∀ u : Text, Lexeme.at before (c :: (x ++ (t ++ u))) = .literal (x.length + 1))
      (ht : Complete parens s (position + 1 + x.length) (lastOr (some c) x) t) :
      Complete parens s position before (c :: (x ++ t))
  /-- A word outside parentheses. -/
  | word {s next : Nesting} {position : Nat} {before : Option Char} {w t : Text} (hw : IsRun w)
      (hbefore : before.any isIdentChar = false) (hrest : t.head?.any isIdentChar = false)
      (hnext : s.word w ⟨position + w.length, lastOr before w, t⟩ = some next)
      (ht : Complete 0 next (position + w.length) (lastOr before w) t) :
      Complete 0 s position before (w ++ t)
  /-- A word in parentheses, or the rest of a word. -/
  | run {parens : Nat} {s : Nesting} {position : Nat} {before : Option Char} {w t : Text}
      (hw : IsRun w) (hpass : before.any isIdentChar = true ∨ parens ≠ 0)
      (hrest : t.head?.any isIdentChar = false)
      (ht : Complete parens s (position + w.length) (lastOr before w) t) :
      Complete parens s position before (w ++ t)
  /-- An opening parenthesis. -/
  | opening {parens : Nat} {s : Nesting} {position : Nat} {before : Option Char} {t : Text}
      (ht : Complete (parens + 1) s (position + 1) (some '(') t) :
      Complete parens s position before ('(' :: t)
  /-- A closing parenthesis. -/
  | closing {parens : Nat} {s : Nesting} {position : Nat} {before : Option Char} {t : Text}
      (ht : Complete parens s (position + 1) (some ')') t) :
      Complete (parens + 1) s position before (')' :: t)
  /-- Another character of code. -/
  | code {parens : Nat} {s : Nesting} {position : Nat} {before : Option Char} {c : Char} {t : Text}
      (hat : ∀ u : Text, u.head? ≠ some '\'' → Lexeme.at before (c :: (t ++ u)) = .code)
      (hident : isIdentChar c = false) (hopen : c ≠ '(') (hclose : c ≠ ')')
      (hsemi : c = ';' → parens ≠ 0) (ht : Complete parens s (position + 1) (some c) t) :
      Complete parens s position before (c :: t)

section Complete

variable {parens position : Nat} {s : Nesting} {before : Option Char} {t : Text}

/-- A statement read to its end is read as lexemes. -/
theorem Complete.lexed (h : Complete parens s position before t) : Lexed before t := by
  induction h with
  | final => exact .final _
  | semicolon hs ht ih =>
    exact .code (fun u _ => at_code (by decide) (fun h => absurd h (by decide))
      (fun h => absurd h (by decide))) ih
  | comment hat ht ih => exact .comment hat ih
  | literal hat ht ih => exact .literal hat ih
  | word hw hbefore hrest hnext ht ih => exact .run hw.ident ih
  | run hw hpass hrest ht ih => exact .run hw.ident ih
  | opening ht ih => exact .code (fun u _ => at_open ..) ih
  | closing ht ih => exact .code (fun u _ => at_close ..) ih
  | code hat hident hopen hclose hsemi ht ih => exact .code hat ih

/-- The rest of a word changes nothing. -/
theorem extentFrom_tail {w u : Text} (hw : w.all isIdentChar = true) :
    ∀ {position : Nat} {before : Option Char}, before.any isIdentChar = true →
      extentFrom parens s 0 position before (w ++ u)
        = extentFrom parens s 0 (position + w.length) (lastOr before w) u := by
  induction w with
  | nil => exact fun _ => rfl
  | cons c w ih =>
    intro position before hbefore
    rw [List.all_cons, Bool.and_eq_true] at hw
    have hne : ∀ d, isIdentChar d = false → c ≠ d := by
      rintro d hd rfl
      rw [hw.1] at hd
      cases hd
    rw [List.cons_append, extentFrom_code (at_ident _ hw.1) (by simp [hbefore])
      (hne '(' (by decide)) (hne ')' (by decide)) (by simp [hne ';' (by decide)]),
      ih hw.2 (show (some c).any isIdentChar = true from hw.1), lastOr_cons, List.length_cons]
    congr 1
    omega

/-- What a scan has read that ends with the text. -/
theorem complete_of_extentFrom (n : Nat) :
    ∀ (t : Text) (parens : Nat) (s : Nesting) (position : Nat) (before : Option Char),
      t.length ≤ n → extentFrom parens s 0 position before t = some (position + t.length) →
      Complete parens s position before t := by
  induction n with
  | zero =>
    intro t parens s position before ht h
    rw [List.eq_nil_of_length_eq_zero (Nat.le_zero.1 ht)] at h
    cases h
  | succ n ih =>
    intro t parens s position before ht h
    cases t with
    | nil => cases h
    | cons c t =>
      rw [List.length_cons] at ht
      obtain hat | ⟨x, r, rfl, hat⟩ := at_split before c t
      · by_cases hident : isIdentChar c = true
        · -- a word, or the rest of one
          obtain ⟨w, r, hsplit, hrun, hrest, hshort⟩ := exists_run hident t
          have hr := hrest [] atLineEnd_nil
          rw [List.append_nil] at hr
          rw [hsplit, List.length_append, ← Nat.add_assoc] at h
          rw [hsplit]
          cases hbefore : before.any isIdentChar with
          | true =>
            rw [extentFrom_tail hrun.ident hbefore] at h
            exact .run hrun (.inl hbefore) hr (ih _ _ _ _ _ (by omega) h)
          | false =>
            cases parens with
            | zero =>
              rw [extentFrom_word hrun hbefore hr] at h
              obtain ⟨next, hnext, h⟩ := Option.bind_eq_some_iff.1 h
              exact .word hrun hbefore hr hnext (ih _ _ _ _ _ (by omega) h)
            | succ parens =>
              rw [extentFrom_word_inner hrun hbefore hr] at h
              exact .run hrun (.inr (Nat.succ_ne_zero _)) hr (ih _ _ _ _ _ (by omega) h)
        · -- a single character
          rw [Bool.not_eq_true] at hident
          rw [List.length_cons, show position + (t.length + 1) = position + 1 + t.length by omega]
            at h
          by_cases hopen : c = '('
          · subst hopen
            rw [extentFrom_open] at h
            exact .opening (ih _ _ _ _ _ (by omega) h)
          by_cases hclose : c = ')'
          · subst hclose
            cases parens with
            | zero => simp [extentFrom, at_close, isIdentChar] at h
            | succ parens =>
              rw [extentFrom_close] at h
              exact .closing (ih _ _ _ _ _ (by omega) h)
          by_cases hsemi : c = ';' ∧ parens = 0
          · obtain ⟨rfl, rfl⟩ := hsemi
            simp only [extentFrom, hat, hident, Bool.false_and, Bool.false_eq_true, if_false,
              Char.reduceBEq, Bool.true_and, beq_self_eq_true, if_true] at h
            split at h
            · next hs =>
              have hnil : t = [] := List.eq_nil_of_length_eq_zero (by
                have := Option.some.inj h
                omega)
              subst hnil
              exact .final (beq_iff_eq.1 hs)
            · next hs => exact .semicolon (by simpa using hs) (ih _ _ _ _ _ (by omega) h)
          · rw [extentFrom_code hat (by simp [hident]) hopen hclose (by simpa using hsemi)] at h
            have hrest := ih _ _ _ _ _ (by omega) h
            exact .code (fun u hu => code_stable hat hrest.lexed.ne_nil hu) hident hopen hclose
              (fun hc hparens => hsemi ⟨hc, hparens⟩) hrest
      · -- a comment or a literal
        rw [List.length_append] at ht
        rw [List.length_cons, List.length_append,
          show position + (x.length + r.length + 1) = position + 1 + x.length + r.length by omega]
          at h
        rcases hat with hat | hat
        · rw [extentFrom_comment hat] at h
          have hrest := ih _ _ _ _ _ (by omega) h
          obtain ⟨d, r, rfl⟩ := List.exists_cons_of_ne_nil hrest.lexed.ne_nil
          exact .comment (fun u => comment_stable hat _) hrest
        · rw [extentFrom_literal hat] at h
          have hrest := ih _ _ _ _ _ (by omega) h
          obtain ⟨d, r, rfl⟩ := List.exists_cons_of_ne_nil hrest.lexed.ne_nil
          exact .literal (fun u => literal_stable hat _) hrest

end Complete

/-! ## Searches inside parentheses -/

section Inside

variable {test : CodePoint → Bool}

theorem findPointFrom_skip (x u : Text) (position depth : Nat) (before : Option Char) :
    findPointFrom test x.length position depth before (x ++ u)
      = findPointFrom test 0 (position + x.length) depth (lastOr before x) u := by
  induction x generalizing position before with
  | nil => rfl
  | cons c x ih =>
    rw [List.cons_append, List.length_cons, findPointFrom, ih, lastOr_cons]
    congr 1; omega

theorem IsOuterTest.eq_false (htest : IsOuterTest test) {p : CodePoint} (h : p.depth ≠ 0) :
    test p = false := by
  rw [Bool.eq_false_iff]
  exact fun hp => h (htest.outer p hp)

/-- A character of code inside parentheses is passed over. -/
theorem findPointFrom_inside (htest : IsOuterTest test) {c : Char} {u : Text} {position depth : Nat}
    {before : Option Char} (hcode : Lexeme.at before (c :: u) = .code) (ho : c ≠ '(') (hc : c ≠ ')') :
    findPointFrom test 0 position (depth + 1) before (c :: u)
      = findPointFrom test 0 (position + 1) (depth + 1) (some c) u := by
  simp [findPointFrom, hcode, ho, hc, htest.eq_false]

theorem findPointFrom_open (htest : IsOuterTest test) (u : Text) (position depth : Nat)
    (before : Option Char) :
    findPointFrom test 0 position (depth + 1) before ('(' :: u)
      = findPointFrom test 0 (position + 1) (depth + 1 + 1) (some '(') u := by
  simp [findPointFrom, at_open, htest.eq_false]

theorem findPointFrom_close (htest : IsOuterTest test) (u : Text) (position depth : Nat)
    (before : Option Char) :
    findPointFrom test 0 position (depth + 1 + 1) before (')' :: u)
      = findPointFrom test 0 (position + 1) (depth + 1) (some ')') u := by
  simp [findPointFrom, at_close, htest.eq_false]

/-- A literal inside parentheses is passed over. -/
theorem findPointFrom_literal (htest : IsOuterTest test) {c : Char} {x u : Text}
    {position depth : Nat} {before : Option Char}
    (h : Lexeme.at before (c :: (x ++ u)) = .literal (x.length + 1)) :
    findPointFrom test 0 position (depth + 1) before (c :: (x ++ u))
      = findPointFrom test 0 (position + 1 + x.length) (depth + 1) (lastOr (some c) x) u := by
  have hfalse : test ⟨position, before, c, x ++ u, depth + 1⟩ = false :=
    htest.eq_false (Nat.succ_ne_zero depth)
  rw [findPointFrom, h]
  simp only [hfalse, Bool.false_eq_true, if_false, Nat.add_sub_cancel]
  exact findPointFrom_skip ..

theorem findPointFrom_comment {c : Char} {x u : Text} {position depth : Nat} {before : Option Char}
    (h : Lexeme.at before (c :: (x ++ u)) = .comment (x.length + 1)) :
    findPointFrom test 0 position depth before (c :: (x ++ u))
      = findPointFrom test 0 (position + 1 + x.length) depth (lastOr (some c) x) u := by
  rw [findPointFrom, h]
  exact findPointFrom_skip ..

theorem findPointFrom_run (htest : IsOuterTest test) {w : Text} (hw : w.all isIdentChar = true)
    (u : Text) (position depth : Nat) (before : Option Char) :
    findPointFrom test 0 position (depth + 1) before (w ++ u)
      = findPointFrom test 0 (position + w.length) (depth + 1) (lastOr before w) u := by
  induction w generalizing position before with
  | nil => rfl
  | cons c w ih =>
    rw [List.all_cons, Bool.and_eq_true] at hw
    have hne : ∀ d, isIdentChar d = false → c ≠ d := by
      rintro d hd rfl
      rw [hw.1] at hd
      cases hd
    rw [List.cons_append, findPointFrom_inside htest (at_ident _ hw.1) (hne '(' (by decide))
      (hne ')' (by decide)), ih hw.2, lastOr_cons, List.length_cons]
    congr 1; omega

/-- A statement closes the parentheses that it opens, so a search inside other
parentheses passes it. -/
theorem Complete.findPointFrom (htest : IsOuterTest test) {u : Text} (hu : u.head? ≠ some '\'')
    {parens position : Nat} {s : Nesting} {before : Option Char} {t : Text}
    (h : Complete parens s position before t) :
    ∀ q depth, findPointFrom test 0 q (depth + parens + 1) before (t ++ u)
      = findPointFrom test 0 (q + t.length) (depth + 1) (lastOr before t) u := by
  induction h with
  | final hs =>
    intro q depth
    exact findPointFrom_inside htest (at_code (by decide) (fun h => absurd h (by decide))
      (fun h => absurd h (by decide))) (by decide) (by decide)
  | semicolon hs ht ih =>
    intro q depth
    rw [List.cons_append, findPointFrom_inside htest (at_code (by decide)
      (fun h => absurd h (by decide)) (fun h => absurd h (by decide))) (by decide) (by decide), ih,
      lastOr_cons, List.length_cons]
    congr 1
    omega
  | comment hat ht ih =>
    intro q depth
    rw [List.cons_append, List.append_assoc, findPointFrom_comment (hat u), ih, List.length_cons,
      List.length_append, lastOr_cons, lastOr_append]
    congr 1
    omega
  | literal hat ht ih =>
    intro q depth
    rw [List.cons_append, List.append_assoc, findPointFrom_literal htest (hat u), ih,
      List.length_cons, List.length_append, lastOr_cons, lastOr_append]
    congr 1
    omega
  | word hw hbefore hrest hnext ht ih =>
    intro q depth
    rw [List.append_assoc, findPointFrom_run htest hw.ident, ih, List.length_append, lastOr_append,
      Nat.add_assoc]
  | run hw hpass hrest ht ih =>
    intro q depth
    rw [List.append_assoc, findPointFrom_run htest hw.ident, ih, List.length_append, lastOr_append,
      Nat.add_assoc]
  | opening ht ih =>
    intro q depth
    rw [List.cons_append, findPointFrom_open htest, List.length_cons, lastOr_cons]
    exact (ih (q + 1) depth).trans (by congr 1; omega)
  | closing ht ih =>
    intro q depth
    rw [List.cons_append, ← Nat.add_assoc depth, findPointFrom_close htest, List.length_cons,
      lastOr_cons]
    exact (ih (q + 1) depth).trans (by congr 1; omega)
  | code hat hident hopen hclose hsemi ht ih =>
    intro q depth
    rw [List.cons_append, findPointFrom_inside htest (hat u hu) hopen hclose, ih, lastOr_cons,
      List.length_cons]
    congr 1
    omega

end Inside

/-! ## Looking ahead -/

section Ahead

variable {before : Option Char} {t : Text}

/-- Blanks and comments are over at a character that starts neither. -/
theorem skipTrivia_here {c : Char} (hblank : isAsciiBlank c = false)
    (hdash : c = '-' → t.head? ≠ some '-') (position : Nat) :
    skipTrivia ⟨position, before, c :: t⟩ = ⟨position, before, c :: t⟩ := by
  have hdash : (c == '-' && t.head? == some '-') = false := by
    rw [Bool.eq_false_iff]
    intro h
    rw [Bool.and_eq_true, beq_iff_eq, beq_iff_eq] at h
    exact hdash h.1 h.2
  simp [skipTrivia, triviaEnd, hblank, hdash]

theorem skipTrivia_code {c : Char} (hblank : isAsciiBlank c = false)
    (hat : Lexeme.at before (c :: t) = .code) (position : Nat) :
    skipTrivia ⟨position, before, c :: t⟩ = ⟨position, before, c :: t⟩ := by
  refine skipTrivia_here hblank ?_ position
  rintro rfl hhead
  obtain ⟨t, rfl⟩ := List.head?_eq_some_iff.1 hhead
  cases hat

theorem nextToken?_congr {p p' : Place} (h : skipTrivia p = skipTrivia p') :
    nextToken? p = nextToken? p' := by
  simp only [nextToken?, h]

/-- A character that is part of no word and no literal is a token of its own. -/
theorem nextToken?_code {c : Char} (hblank : isAsciiBlank c = false) (hident : isIdentChar c = false)
    (hat : Lexeme.at before (c :: t) = .code) (position : Nat) :
    nextToken? ⟨position, before, c :: t⟩ = some ([c], ⟨position + 1, some c, t⟩) := by
  have hlen : tokenLength before c t = 1 := by simp [tokenLength, hat, hident]
  rw [nextToken?_of_skipTrivia (skipTrivia_code hblank hat position), hlen]
  rfl

/-- A word is a token. -/
theorem nextToken?_word {w : Text} (hw : IsRun w) (ht : t.head?.any isIdentChar = false)
    (position : Nat) :
    nextToken? ⟨position, before, w ++ t⟩ = some (w, ⟨position + w.length, lastOr before w, t⟩) := by
  cases w with
  | nil => exact absurd rfl hw.ne_nil
  | cons c w =>
    have hall := List.all_cons.symm.trans hw.ident
    rw [Bool.and_eq_true] at hall
    have hat : Lexeme.at before (c :: (w ++ t)) = .code := at_ident _ hall.1
    have hlen : tokenLength before c (w ++ t) = (c :: w).length := by
      simp [tokenLength, hat, hall.1, takeWhile_isIdentChar hall.2 ht]
    rw [List.cons_append, nextToken?_of_skipTrivia (skipTrivia_code
      (isAsciiBlank_eq_false_of_isIdentChar hall.1) hat position), hlen, advance]
    simp only [← List.cons_append, List.take_left, List.drop_left]
    rfl

/-- A literal is a token. -/
theorem nextToken?_literal {c : Char} {x : Text}
    (hat : Lexeme.at before (c :: (x ++ t)) = .literal (x.length + 1)) (position : Nat) :
    nextToken? ⟨position, before, c :: (x ++ t)⟩
      = some (c :: x, ⟨position + 1 + x.length, lastOr (some c) x, t⟩) := by
  have hhead : c = '"' ∨ c = '\'' := by
    unfold Lexeme.at at hat
    split at hat
    · cases hat
    · next heq => exact .inl (List.cons.inj heq).1
    · next heq => exact .inr (List.cons.inj heq).1
    · cases hat
  have hskip : skipTrivia ⟨position, before, c :: (x ++ t)⟩ = ⟨position, before, c :: (x ++ t)⟩ := by
    rcases hhead with rfl | rfl <;> rfl
  have hlen : tokenLength before c (x ++ t) = (c :: x).length := by simp [tokenLength, hat]
  rw [nextToken?_of_skipTrivia hskip, hlen, advance]
  simp only [← List.cons_append, List.take_left, List.drop_left]
  rw [← lastOr_cons, List.length_cons, Nat.add_assoc, Nat.add_comm 1]
  rfl

/-- A comment is passed over. -/
theorem skipTrivia_comment {c r : Text} (hc : '\n' ∉ c) (hr : AtLineEnd r) (passed : Nat)
    (before : Option Char) :
    skipTrivia ⟨passed, before, '-' :: '-' :: (c ++ r)⟩
      = skipTrivia ⟨passed + (c.length + 2), lastOr before ('-' :: '-' :: c), r⟩ := by
  change triviaEnd false passed before _ = triviaEnd false _ _ r
  have hline : ∀ (c : Text) (passed : Nat) (before : Option Char), '\n' ∉ c →
      triviaEnd true passed before (c ++ r)
        = triviaEnd true (passed + c.length) (lastOr before c) r := by
    intro c
    induction c with
    | nil => exact fun _ _ _ => rfl
    | cons d c ih =>
      intro passed before hd
      have hne : (d != '\n') = true := by
        rw [bne_iff_ne]
        rintro rfl
        exact hd List.mem_cons_self
      rw [List.cons_append, triviaEnd, if_pos rfl, hne,
        ih _ _ fun hc => hd (List.mem_cons_of_mem d hc), lastOr_cons, List.length_cons]
      congr 1
      omega
  have hsecond : '\n' ∉ '-' :: c := by
    simp only [List.mem_cons, not_or]
    exact ⟨by decide, hc⟩
  have hfirst : triviaEnd false passed before ('-' :: ('-' :: c ++ r))
      = triviaEnd true (passed + 1) (some '-') ('-' :: c ++ r) := by
    rw [triviaEnd, if_neg (by decide), if_neg (by decide)]
    rfl
  rw [← List.cons_append, hfirst, hline _ _ _ hsecond, triviaEnd_of_atLineEnd hr, lastOr_cons,
    lastOr_cons, lastOr_cons]
  congr 1
  simp only [List.length_cons]
  omega

/-- A comment is passed over, as the lexeme that it is. -/
theorem skipTrivia_of_comment {c : Char} {x : Text}
    (hat : Lexeme.at before (c :: (x ++ t)) = .comment (x.length + 1)) (position : Nat) :
    skipTrivia ⟨position, before, c :: (x ++ t)⟩
      = skipTrivia ⟨position + 1 + x.length, lastOr (some c) x, t⟩ := by
  obtain ⟨y, r, heq, hlen, hy, hr⟩ := exists_comment hat
  obtain ⟨rfl, htail⟩ := List.cons.inj heq
  have hx : x.length = ('-' :: y).length := by
    rw [List.length_cons]
    omega
  obtain ⟨rfl, rfl⟩ := List.append_inj (show x ++ t = ('-' :: y) ++ r from htail) hx
  rw [List.cons_append, skipTrivia_comment hy hr, List.length_cons, ← lastOr_cons before]
  congr 2
  omega

theorem Lexed.of_code {c : Char} (h : Lexed before (c :: t)) (hne : c ≠ ';')
    (hat : Lexeme.at before (c :: t) = .code) : Lexed (some c) t := by
  cases h with
  | final => exact absurd rfl hne
  | code _ ht => exact ht
  | literal hat' ht =>
    have := hat' []
    rw [List.append_nil, hat] at this
    cases this
  | comment hat' ht =>
    have := hat' []
    rw [List.append_nil, hat] at this
    cases this

/-- What follows a word. -/
theorem Lexed.of_run {w : Text} (hw : w.all isIdentChar = true) :
    ∀ {before : Option Char}, Lexed before (w ++ t) → Lexed (lastOr before w) t := by
  induction w with
  | nil => exact fun h => h
  | cons c w ih =>
    intro before h
    rw [List.all_cons, Bool.and_eq_true] at hw
    have hne : c ≠ ';' := by
      rintro rfl
      exact absurd hw.1 (by decide)
    rw [lastOr_cons]
    exact ih hw.2 (h.of_code hne (at_ident _ hw.1))

/-- The next token is the same whatever follows the text. -/
theorem Lexed.exists_nextToken? (h : Lexed before t) :
    ∀ position, ∃ token q c r, r.length < t.length
      ∧ (token = [';'] ∧ c = some ';' ∧ r = [] ∨ Lexed c r)
      ∧ ∀ u : Text, u.head? ≠ some '\'' →
        nextToken? ⟨position, before, t ++ u⟩ = some (token, ⟨q, c, r ++ u⟩) := by
  induction h with
  | final before =>
    refine fun position => ⟨[';'], position + 1, some ';', [], Nat.zero_lt_one, .inl ⟨rfl, rfl, rfl⟩,
      fun u hu => ?_⟩
    exact nextToken?_code (by decide) (by decide) (at_code (by decide)
      (fun h => absurd h (by decide)) (fun h => absurd h (by decide))) position
  | @code before c t hat ht ih =>
    intro position
    by_cases hblank : isAsciiBlank c = true
    · obtain ⟨token, q, d, r, hlt, hr, hnext⟩ := ih (position + 1)
      refine ⟨token, q, d, r, Nat.lt_succ_of_lt hlt, hr, fun u hu => ?_⟩
      rw [← hnext u hu]
      exact nextToken?_congr (by simp [skipTrivia, triviaEnd, hblank])
    rw [Bool.not_eq_true] at hblank
    by_cases hident : isIdentChar c = true
    · obtain ⟨w, r, hsplit, hrun, hrest, hshort⟩ := exists_run hident t
      have hlexed : Lexed before (w ++ r) := hsplit ▸ .code hat ht
      have hr := hlexed.of_run hrun.ident
      refine ⟨w, position + w.length, lastOr before w, r, ?_, .inr hr, fun u hu => ?_⟩
      · rw [List.length_cons]
        omega
      · have hhead := hrest [] atLineEnd_nil
        rw [List.append_nil] at hhead
        rw [hsplit, List.append_assoc]
        exact nextToken?_word hrun (by rw [hr.head?_append]; exact hhead) position
    · rw [Bool.not_eq_true] at hident
      exact ⟨[c], position + 1, some c, t, Nat.lt_succ_self _, .inr ht,
        fun u hu => nextToken?_code hblank hident (hat u hu) position⟩
  | @literal before c x t hat ht ih =>
    refine fun position => ⟨c :: x, position + 1 + x.length, lastOr (some c) x, t, ?_, .inr ht,
      fun u hu => ?_⟩
    · rw [List.length_cons, List.length_append]
      omega
    · rw [List.cons_append, List.append_assoc]
      exact nextToken?_literal (hat u) position
  | @comment before c x t hat ht ih =>
    intro position
    obtain ⟨token, q, d, r, hlt, hr, hnext⟩ := ih (position + 1 + x.length)
    refine ⟨token, q, d, r, ?_, hr, fun u hu => ?_⟩
    · rw [List.length_cons, List.length_append]
      omega
    · rw [← hnext u hu, List.cons_append, List.append_assoc]
      exact nextToken?_congr (skipTrivia_of_comment (hat u) position)

/-- The tokens of a text, its final semicolon, and the tokens of what follows. -/
theorem Lexed.exists_tokens (n : Nat) :
    ∀ {before : Option Char} {t : Text}, t.length ≤ n → Lexed before t →
      ∀ position, ∃ tokens q, ∀ u : Text, u.head? ≠ some '\'' → ∀ k,
        nextTokens (tokens.length + 1 + k) ⟨position, before, t ++ u⟩
          = tokens ++ [';'] :: nextTokens k ⟨q, some ';', u⟩ := by
  induction n with
  | zero => exact fun ht h => absurd (List.eq_nil_of_length_eq_zero (Nat.le_zero.1 ht)) h.ne_nil
  | succ n ih =>
    intro before t ht h position
    obtain ⟨token, q, c, r, hlt, hr, hnext⟩ := h.exists_nextToken? position
    rcases hr with ⟨rfl, rfl, rfl⟩ | hr
    · refine ⟨[], q, fun u hu k => ?_⟩
      rw [List.length_nil, Nat.zero_add, Nat.add_comm, nextTokens, hnext u hu]
      rfl
    · obtain ⟨tokens, q', htokens⟩ := ih (by omega) hr q
      refine ⟨token :: tokens, q', fun u hu k => ?_⟩
      rw [List.length_cons, show tokens.length + 1 + 1 + k = tokens.length + 1 + k + 1 by omega,
        nextTokens, hnext u hu]
      exact congrArg (token :: ·) (htokens u hu k)

end Ahead

end Text
end CanonicalVhdl
