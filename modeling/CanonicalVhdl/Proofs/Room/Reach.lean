import CanonicalVhdl.Proofs.Comment.Steady

/-!
# Places that a search reaches

A search outside parentheses goes through a text lexeme by lexeme.  The places between lexemes
are those it *reaches*, each at some depth of parentheses.  What is reached in a text depends on
nothing behind the place, and on what precedes the text only where the text starts with a tick.

## Main definitions

* `Text.Reaches before depth s u d` — behind `s`, and in front of `u`, a search stands at depth `d`.
* `Text.Hit pattern before t s u` — the pattern stands in `t` outside parentheses, behind `s`.
* `Text.Resumes t` — after a literal whose end was missed, a search reaches the places of `t` all
  the same.

## Main statements

* `Text.Reaches.split` — the places of a text are linearly ordered.
* `Text.Reaches.cut` — the places of a beginning are those of the text.
* `Text.Resumes.unbound` — a tick that is bound or not makes no difference behind a literal.
-/

namespace CanonicalVhdl.Text

open Token

/-! ## Lexemes of a beginning -/

theorem quotedLength_le (n : Nat) (t : Text) : Lexeme.quotedLength n t ≤ n + t.length := by
  obtain ⟨x, r, rfl, hlen⟩ := quotedLength_split n t
  rw [hlen, List.length_append]
  omega

theorem lineLength_of_not_mem {t : Text} (h : '\n' ∉ t) (n : Nat) :
    Lexeme.lineLength n t = n + t.length := by
  obtain ⟨x, r, rfl, hlen, -, hr⟩ := lineLength_split n t
  obtain rfl | ⟨v, rfl⟩ := hr.cases
  · rw [hlen, List.append_nil]
  · exact absurd (List.mem_append_right x List.mem_cons_self) h

/-- A character of code is code in a beginning of the text. -/
theorem at_code_cut {before : Option Char} {c : Char} {t u : Text}
    (h : Lexeme.at before (c :: (t ++ u)) = .code) : Lexeme.at before (c :: t) = .code := by
  have hhead : ∀ a, t.head? = some a → (t ++ u).head? = some a := by
    intro a ha
    rw [List.head?_append, ha]
    rfl
  have htail : t.tail.head? = some '\'' → (t ++ u).tail.head? = some '\'' := by
    intro ha
    rcases t with _ | ⟨d, _ | ⟨e, t⟩⟩
    · cases ha
    · cases ha
    · exact ha
  rw [Lexeme.at_cons] at h ⊢
  split_ifs at h with hhyphens hquote htick
  rw [if_neg fun h => hhyphens ⟨h.1, hhead _ h.2⟩, if_neg hquote, if_neg fun h => htick ⟨h.1, ?_, htail h.2.2.1, h.2.2.2⟩]
  obtain ⟨a, ha, hany⟩ := (Option.any_eq_true _ _).1 h.2.1
  rw [hhead a ha]
  exact hany

/-- A literal is the same literal in a beginning of the text. -/
theorem at_literal_cut {before : Option Char} {c : Char} {x t u : Text}
    (h : Lexeme.at before (c :: (x ++ (t ++ u))) = .literal (x.length + 1)) :
    Lexeme.at before (c :: (x ++ t)) = .literal (x.length + 1) := by
  rcases t with _ | ⟨d, t⟩
  · rw [List.nil_append] at h
    rw [List.append_nil]
    rw [Lexeme.at_cons] at h ⊢
    split_ifs at h with h1 h2 h3
    · subst h2
      have hlen := Lexeme.literal.inj h
      rw [if_neg (by simp), if_pos rfl]
      have hle := quotedLength_le 1 x
      rcases quotedLength_prefix 1 x u with heq | heq
      · rw [← heq, hlen]
      · congr 1
        omega
    · have hlen := Lexeme.literal.inj h
      rcases x with _ | ⟨a, _ | ⟨b, _ | ⟨e, x⟩⟩⟩ <;> simp_all
  · exact literal_stable h t

/-- A comment is the same comment in a beginning of the text. -/
theorem at_comment_cut {before : Option Char} {c : Char} {x t u : Text}
    (h : Lexeme.at before (c :: (x ++ (t ++ u))) = .comment (x.length + 1)) :
    Lexeme.at before (c :: (x ++ t)) = .comment (x.length + 1) := by
  rcases t with _ | ⟨d, t⟩
  · obtain ⟨y, r, heq, hlen, hy, -⟩ := exists_comment h
    rw [List.nil_append] at heq
    obtain ⟨rfl, htail⟩ := List.cons.inj heq
    have hlength : x.length = ('-' :: y).length := by
      rw [List.length_cons]
      omega
    obtain ⟨rfl, -⟩ := List.append_inj (show x ++ u = ('-' :: y) ++ r from htail) hlength
    rw [List.append_nil, Lexeme.at, lineLength_of_not_mem hy, List.length_cons]
    congr 1
    omega
  · exact comment_stable h t

/-! ## Places -/

/-- The depth of parentheses behind a character of code. -/
def depthAfter (c : Char) (depth : Nat) : Nat :=
  if c == '(' then depth + 1 else if c == ')' then depth - 1 else depth

/-- A search that starts with the character `before` behind it, inside so many parentheses, goes
through `s` lexeme by lexeme and stands in front of `u` inside `d` of them. -/
inductive Reaches : Option Char → Nat → Text → Text → Nat → Prop
  /-- Where the search starts. -/
  | here {before : Option Char} {depth : Nat} {u : Text} : Reaches before depth [] u depth
  /-- Behind a character of code. -/
  | code {before : Option Char} {depth d : Nat} {c : Char} {s u : Text}
      (hat : Lexeme.at before (c :: (s ++ u)) = .code)
      (h : Reaches (some c) (depthAfter c depth) s u d) : Reaches before depth (c :: s) u d
  /-- Behind a literal or a comment. -/
  | lexeme {before : Option Char} {depth d : Nat} {c : Char} {x s u : Text}
      (hat : Lexeme.at before (c :: (x ++ (s ++ u))) = .literal (x.length + 1)
        ∨ Lexeme.at before (c :: (x ++ (s ++ u))) = .comment (x.length + 1))
      (h : Reaches (lastOr (some c) x) depth s u d) : Reaches before depth (c :: (x ++ s)) u d

section Places

variable {before : Option Char} {depth d : Nat} {s u : Text}

theorem depthAfter_self {c : Char} (ho : c ≠ '(') (hc : c ≠ ')') (depth : Nat) :
    depthAfter c depth = depth := by
  simp [depthAfter, ho, hc]

theorem Reaches.of_code {c : Char} (hat : Lexeme.at before (c :: (s ++ u)) = .code)
    (h : Reaches before depth (c :: s) u d) : Reaches (some c) (depthAfter c depth) s u d := by
  generalize ht : c :: s = t at h
  cases h with
  | here => cases ht
  | code _ h =>
    obtain ⟨rfl, rfl⟩ := List.cons.inj ht
    exact h
  | lexeme hat' h =>
    obtain ⟨rfl, rfl⟩ := List.cons.inj ht
    rw [List.append_assoc] at hat
    rw [hat] at hat'
    rcases hat' with hat' | hat' <;> cases hat'

/-- What is behind a literal or a comment. -/
theorem Reaches.of_lexeme {c : Char} {x r : Text} {n : Nat}
    (hat : Lexeme.at before (c :: (x ++ r)) = .literal n ∨ Lexeme.at before (c :: (x ++ r)) = .comment n)
    (hn : n = x.length + 1) (hs : s ++ u = c :: (x ++ r)) (hne : s ≠ [])
    (h : Reaches before depth s u d) :
    ∃ m, s = c :: (x ++ m) ∧ r = m ++ u ∧ Reaches (lastOr (some c) x) depth m u d := by
  subst hn
  cases h with
  | here => exact absurd rfl hne
  | code hat' h =>
    rw [List.cons_append] at hs
    obtain ⟨rfl, hs⟩ := List.cons.inj hs
    rw [hs] at hat'
    rcases hat with hat | hat <;>
    · rw [hat] at hat'
      cases hat'
  | @lexeme _ _ _ c' x' m _ hat' h =>
    rw [List.cons_append, List.append_assoc] at hs
    obtain ⟨rfl, hs⟩ := List.cons.inj hs
    rw [hs] at hat'
    have hlen : x'.length = x.length := by
      rcases hat with hat | hat <;> rcases hat' with hat' | hat' <;> rw [hat] at hat'
      · exact (Nat.succ.inj (Lexeme.literal.inj hat')).symm
      · cases hat'
      · cases hat'
      · exact (Nat.succ.inj (Lexeme.comment.inj hat')).symm
    obtain ⟨rfl, rfl⟩ := List.append_inj (List.cons.inj hs).2 hlen
    exact ⟨m, rfl, rfl, h⟩

/-- Places behind places. -/
theorem Reaches.append {m : Text} {d' : Nat} (h : Reaches before depth s (m ++ u) d)
    (hm : Reaches (lastOr before s) d m u d') : Reaches before depth (s ++ m) u d' := by
  generalize hv : m ++ u = v at h
  induction h with
  | here => exact hm
  | code hat h ih =>
    subst hv
    rw [lastOr_cons] at hm
    rw [List.cons_append]
    rw [← List.append_assoc] at hat
    exact .code hat (ih hm rfl)
  | lexeme hat h ih =>
    subst hv
    rw [lastOr_cons, lastOr_append] at hm
    rw [List.cons_append, List.append_assoc]
    rw [← List.append_assoc _ m u] at hat
    exact .lexeme hat (ih hm rfl)

/-- Of two places the one that comes first is passed on the way to the other. -/
theorem Reaches.split {s' u' : Text} {d' : Nat} (h : Reaches before depth s u d)
    (h' : Reaches before depth s' u' d') (heq : s ++ u = s' ++ u') (hle : s.length ≤ s'.length) :
    ∃ m, s' = s ++ m ∧ u = m ++ u' ∧ Reaches (lastOr before s) d m u' d' := by
  induction h generalizing s' with
  | here => exact ⟨s', rfl, heq, h'⟩
  | @code _ _ _ c s u hat h ih =>
    rcases s' with _ | ⟨c', s'⟩
    · cases hle
    · obtain ⟨rfl, htail⟩ : c = c' ∧ s ++ u = s' ++ u' := by simpa using heq
      obtain ⟨m, rfl, rfl, hm⟩ := ih (h'.of_code (by rwa [← htail])) htail
        (Nat.le_of_succ_le_succ hle)
      exact ⟨m, rfl, rfl, by rwa [lastOr_cons]⟩
  | @lexeme _ _ _ c x s u hat h ih =>
    have hne : s' ≠ [] := by
      rintro rfl
      cases hle
    rw [List.cons_append, List.append_assoc] at heq
    obtain ⟨n, rfl, hrest, hn⟩ := h'.of_lexeme
      (hat.imp id id) rfl heq.symm hne
    have hle' : s.length ≤ n.length := by
      simp only [List.length_cons, List.length_append] at hle
      omega
    obtain ⟨m, rfl, rfl, hm⟩ := ih hn hrest hle'
    refine ⟨m, by rw [List.cons_append, List.append_assoc], rfl, ?_⟩
    rwa [lastOr_cons, lastOr_append]

/-- The places of a beginning are those of the text. -/
theorem Reaches.cut {v : Text} (h : Reaches before depth s (u ++ v) d) :
    Reaches before depth s u d := by
  generalize hw : u ++ v = w at h
  induction h with
  | here => exact .here
  | code hat h ih =>
    subst hw
    rw [← List.append_assoc] at hat
    exact .code (at_code_cut hat) (ih rfl)
  | lexeme hat h ih =>
    subst hw
    rw [← List.append_assoc _ u v] at hat
    exact .lexeme (hat.imp at_literal_cut at_comment_cut) (ih rfl)

/-- What precedes a text matters only when it starts with a tick. -/
theorem Reaches.congr {b : Option Char}
    (hb : (s ++ u).head? = some '\'' → Lexeme.bindsTick before = Lexeme.bindsTick b)
    (h : Reaches before depth s u d) : Reaches b depth s u d := by
  have hat : ∀ {c : Char} {t : Text}, s ++ u = c :: t →
      Lexeme.at b (c :: t) = Lexeme.at before (c :: t) := by
    intro c t ht
    rw [Lexeme.at_cons, Lexeme.at_cons]
    by_cases hc : c = '\''
    · rw [hb (by rw [ht, hc]; rfl)]
    · simp [hc]
  cases h with
  | here => exact .here
  | code hcode h => exact .code ((hat rfl).trans hcode) h
  | lexeme hlexeme h =>
    refine .lexeme ?_ h
    rwa [hat (by rw [List.cons_append, List.append_assoc])]

/-- Plain code without parentheses is passed at one depth. -/
theorem reaches_plain (hs : s.all isPlain = true) (ho : '(' ∉ s) (hc : ')' ∉ s) (u : Text) :
    Reaches before depth s u depth := by
  induction s generalizing before with
  | nil => exact .here
  | cons c s ih =>
    rw [List.all_cons, Bool.and_eq_true] at hs
    rw [List.mem_cons, not_or] at ho hc
    refine .code (at_plain _ hs.1 _) ?_
    rw [depthAfter_self (Ne.symm ho.1) (Ne.symm hc.1)]
    exact ih hs.2 ho.2 hc.2

theorem not_mem_of_ident {w : Text} (hw : w.all isIdentChar = true) {c : Char}
    (hc : isIdentChar c = false) : c ∉ w := by
  intro hmem
  rw [List.all_eq_true.1 hw c hmem] at hc
  cases hc

theorem reaches_run {w : Text} (hw : w.all isIdentChar = true) (u : Text) :
    Reaches before depth w u depth :=
  reaches_plain (all_isPlain_of_ident hw) (not_mem_of_ident hw (by decide))
    (not_mem_of_ident hw (by decide)) u

theorem not_mem_of_blank {g : Text} (hg : g.all isBlank = true) {c : Char}
    (hc : isBlank c = false) : c ∉ g := by
  intro hmem
  rw [List.all_eq_true.1 hg c hmem] at hc
  cases hc

theorem reaches_blank {g : Text} (hg : g.all isBlank = true) (u : Text) :
    Reaches before depth g u depth :=
  reaches_plain (all_isPlain_of_blank hg) (not_mem_of_blank hg (by decide))
    (not_mem_of_blank hg (by decide)) u

end Places

/-! ## Ticks that are bound or not -/

/-- Two characters of plain code come first. -/
def IsPlainStart (u : Text) : Prop :=
  ∃ a b v, u = a :: b :: v ∧ isPlain a = true ∧ isPlain b = true

theorem IsPlainStart.head?_ne {u : Text} (h : IsPlainStart u) : u.head? ≠ some '\'' := by
  obtain ⟨a, b, v, rfl, ha, -⟩ := h
  rintro ⟨⟩
  exact absurd ha (by decide)

theorem IsPlainStart.second_ne {u v : Text} {c : Char} (h : IsPlainStart u) : u ≠ c :: '\'' :: v := by
  rintro rfl
  obtain ⟨a, b, w, heq, -, hb⟩ := h
  obtain ⟨-, htail⟩ := List.cons.inj heq
  obtain ⟨rfl, -⟩ := List.cons.inj htail
  exact absurd hb (by decide)

/-- A search that takes the tick in front of the text for one of the code reaches the places of
the text. -/
def Resumes (t : Text) : Prop :=
  ∀ (s u : Text) (depth d : Nat), s ++ u = t → IsPlainStart u →
    Reaches (some '-') depth ('\'' :: s) u d → Reaches (some '\'') depth s u d

/-- No literal starts with the tick. -/
theorem resumes_of_free {t : Text} (hfree : t.tail.head? = some '\'' →
    t.head?.any (fun d => decide (d.toNat < 128) && d != '\n') = false) : Resumes t := by
  intro s u depth d hs hu h
  have hcode : Lexeme.at (some '-') ('\'' :: (s ++ u)) = .code := by
    rw [hs, Lexeme.at_cons]
    simp only [show ('\'' : Char) ≠ '-' by decide, show ('\'' : Char) ≠ '"' by decide, false_and,
      if_false, true_and]
    rw [if_neg]
    rintro ⟨hany, htail, -⟩
    rw [hfree htail] at hany
    cases hany
  exact h.of_code hcode

/-- Behind a literal whose start was missed, the places of the text are reached. -/
theorem Resumes.behind {t s u : Text} {c : Char} {depth d : Nat} (ht : Resumes t)
    (hc : isIdentChar c = true ∨ c = '-') (hs : s ++ u = c :: '\'' :: t) (hu : IsPlainStart u)
    (h : Reaches (some '\'') depth s u d) :
    ∃ m, s = c :: '\'' :: m ∧ m ++ u = t ∧ Reaches (some '\'') depth m u d := by
  obtain ⟨m, rfl, hm⟩ : ∃ m, s = c :: '\'' :: m ∧ m ++ u = t := by
    rcases s with _ | ⟨a, _ | ⟨b, m⟩⟩
    · exact absurd hs hu.second_ne
    · obtain ⟨-, rfl⟩ : a = c ∧ u = '\'' :: t := by simpa using hs
      exact absurd rfl hu.head?_ne
    · obtain ⟨rfl, rfl, hm⟩ : a = c ∧ b = '\'' ∧ m ++ u = t := by simpa using hs
      exact ⟨m, rfl, hm⟩
  refine ⟨m, rfl, hm, ?_⟩
  rcases hc with hc | rfl
  · have hne : ∀ e, isIdentChar e = false → c ≠ e := by
      rintro e he rfl
      rw [hc] at he
      cases he
    have hword := h.of_code (at_ident _ hc)
    rw [depthAfter_self (hne '(' (by decide)) (hne ')' (by decide))] at hword
    refine hword.of_code ?_
    rw [Lexeme.at_cons]
    simp [bindsTick_of_isIdentChar hc]
  · exact ht m u depth d hm hu (h.of_code (by simp [Lexeme.at]))

/-- A single character may stand between two literals. -/
theorem Resumes.next {t : Text} {x c : Char} (ht : Resumes t) (htick : x ≠ '\'') (hquote : x ≠ '"')
    (ho : x ≠ '(') (hx : x ≠ ')') (hc : isIdentChar c = true ∨ c = '-') :
    Resumes (x :: '\'' :: c :: '\'' :: t) := by
  by_cases hascii : x.toNat < 128 ∧ x ≠ '\n'
  · intro s u depth d hs hu h
    have hliteral : Lexeme.at (some '-') ('\'' :: ([x, '\''] ++ (c :: '\'' :: t))) = .literal 3 := by
      simp [Lexeme.at, hascii, Lexeme.bindsTick, isIdentChar]
    obtain ⟨m, hm, hrest, hreach⟩ := h.of_lexeme (.inl hliteral) rfl
      (by rw [List.cons_append, hs]; rfl) (List.cons_ne_nil _ _)
    obtain ⟨-, rfl⟩ := List.cons.inj hm
    obtain ⟨m, rfl, rfl, hbehind⟩ := ht.behind hc hrest.symm hu hreach
    have hcode : Lexeme.at (some '\'') (x :: ('\'' :: c :: '\'' :: m ++ u)) = .code := by
      rw [Lexeme.at_cons]
      simp [htick, hquote]
    refine .code hcode ?_
    rw [depthAfter_self ho hx]
    cases hb : Lexeme.bindsTick (some x) with
    | true => exact .code (by rw [Lexeme.at_cons]; simp [hb]) hreach
    | false =>
      obtain ⟨hlt, hn⟩ := ascii_of_ticked hc
      exact .lexeme (x := [c, '\'']) (.inl (by simp [Lexeme.at, hb, hlt, hn])) hbehind
  · refine resumes_of_free fun _ => ?_
    rw [not_and_or, not_not] at hascii
    rcases hascii with hascii | rfl
    · simp [hascii]
    · rfl

/-- A text that starts with a literal between ticks has the same places whether or not a search
binds its first tick. -/
theorem Resumes.unbound {t s u : Text} {c : Char} {before : Option Char} {depth d : Nat}
    (ht : Resumes t) (hc : isIdentChar c = true ∨ c = '-') (hs : s ++ u = '\'' :: c :: '\'' :: t)
    (hu : IsPlainStart u) (h : Reaches before depth s u d) : Reaches none depth s u d := by
  cases hb : Lexeme.bindsTick before with
  | false => exact h.congr fun _ => hb
  | true =>
    rcases s with _ | ⟨a, s⟩
    · obtain rfl : u = '\'' :: c :: '\'' :: t := hs
      exact absurd rfl hu.head?_ne
    · obtain ⟨rfl, hrest⟩ : a = '\'' ∧ s ++ u = c :: '\'' :: t := by simpa using hs
      have hbound := h.of_code (by rw [Lexeme.at_cons]; simp [hb])
      obtain ⟨m, rfl, rfl, hm⟩ := ht.behind hc hrest hu hbound
      obtain ⟨hlt, hn⟩ := ascii_of_ticked hc
      exact .lexeme (x := [c, '\'']) (.inl (by simp [Lexeme.at, hlt, hn, Lexeme.bindsTick])) hm

/-! ## Hits -/

/-- A pattern stands in a text outside parentheses, literals and comments: behind `s` and at the
head of `u`. -/
structure Hit (pattern : Text) (before : Option Char) (t s u : Text) : Prop where
  /-- The text is cut in two. -/
  split : t = s ++ u
  /-- A search reaches the second part outside parentheses. -/
  reaches : Reaches before 0 s u 0
  /-- The pattern stands there. -/
  stands : standsAt pattern (lastOr before s) u = true

/-- Code points stand at the places that a search reaches. -/
theorem exists_reaches (n : Nat) :
    ∀ (t : Text) (position depth : Nat) (before : Option Char), t.length ≤ n →
      ∀ p ∈ codePointsFrom [] 0 position depth before t,
        ∃ s d, t = s ++ p.rest ∧ p.position = position + s.length ∧ p.before = lastOr before s
          ∧ Reaches before depth s p.rest d ∧ (p.char ≠ ')' → p.depth = d) := by
  induction n with
  | zero =>
    intro t position depth before ht p hp
    rw [List.eq_nil_of_length_eq_zero (Nat.le_zero.1 ht)] at hp
    cases hp
  | succ n ih =>
    intro t position depth before ht p hp
    cases t with
    | nil => cases hp
    | cons c t =>
      rw [List.length_cons] at ht
      obtain hat | ⟨x, r, rfl, hat⟩ := at_split before c t
      · rw [codePointsFrom_code _ _ hat] at hp
        rcases List.mem_cons.1 hp with rfl | hp
        · refine ⟨[], depth, rfl, rfl, rfl, .here, fun hc => ?_⟩
          simp [show c ≠ ')' from hc]
        · obtain ⟨s, d, rfl, hposition, hbefore, hreach, hdepth⟩ := ih t _ _ _ (by omega) p hp
          exact ⟨c :: s, d, rfl, by rw [hposition, List.length_cons]; omega,
            by rw [hbefore, lastOr_cons], .code hat hreach, hdepth⟩
      · rw [List.length_append] at ht
        have later : p ∈ codePointsFrom [] 0 (position + 1 + x.length) depth (lastOr (some c) x) r →
            ∃ s d, c :: (x ++ r) = s ++ p.rest ∧ p.position = position + s.length
              ∧ p.before = lastOr before s ∧ Reaches before depth s p.rest d
              ∧ (p.char ≠ ')' → p.depth = d) := by
          intro hp
          obtain ⟨s, d, rfl, hposition, hbefore, hreach, hdepth⟩ := ih r _ _ _ (by omega) p hp
          refine ⟨c :: (x ++ s), d, by simp, ?_, ?_, .lexeme hat.symm hreach, hdepth⟩
          · rw [hposition, List.length_cons, List.length_append]
            omega
          · rw [hbefore, lastOr_cons, lastOr_append]
        rcases hat with hat | hat
        · rw [codePointsFrom_comment _ _ hat] at hp
          exact later hp
        · rw [codePointsFrom_literal _ _ hat] at hp
          rcases List.mem_cons.1 hp with rfl | hp
          · exact ⟨[], depth, rfl, rfl, rfl, .here, fun _ => rfl⟩
          · exact later hp

/-- A pattern that starts with no parenthesis stands where it is found. -/
theorem exists_hit {pattern t : Text} {i : Nat} (hpattern : IsPattern pattern)
    (hi : i ∈ outerMatches pattern t) : ∃ s u, Hit pattern none t s u ∧ i = s.length := by
  rw [outerMatches, List.mem_map] at hi
  obtain ⟨p, hp, rfl⟩ := hi
  rw [List.mem_filter] at hp
  obtain ⟨hp, hstands⟩ := hp
  rw [outerPoints, List.mem_filter] at hp
  obtain ⟨s, d, hsplit, hposition, hbefore, hreach, hdepth⟩ :=
    exists_reaches t.length t 0 0 none (Nat.le_refl _) p hp.1
  rw [matchesAt_eq_standsAt, hbefore] at hstands
  have hclose : p.char ≠ ')' := by
    intro hc
    rw [CodePoint.rest, hc, standsAt_other hpattern _ (by decide) (by decide)] at hstands
    cases hstands
  obtain rfl : 0 = d := by rw [← hdepth hclose, beq_iff_eq.1 hp.2]
  exact ⟨s, p.rest, ⟨hsplit, hreach, hstands⟩, by rw [hposition, Nat.zero_add]⟩

end CanonicalVhdl.Text
