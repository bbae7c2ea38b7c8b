import CanonicalVhdl.Proofs.Design.FinalLine
import CanonicalVhdl.Proofs.Text.Complete
import CanonicalVhdl.Proofs.Token.Cut

/-!
# Texts without comments

Whether a text holds a comment depends on the character before it, for a tick opens a literal
only when it does not belong to a name.  A part of a text without comments holds none either,
when it starts where a lexeme does: where the characters before it are code.

## Main definitions

* `Text.CommentFree before t` — no comment begins in `t`, which the character `before` precedes.
* `Text.Quiet t` — the text holds no comment, or starts with a tick.

## Main statements

* `CommentFree.of_append_left` — the beginning of a text without comments holds none.
* `CommentFree.of_plain`, `CommentFree.of_line` — nor does what follows plain code, or a line.
* `CommentFree.quiet` — what precedes a text matters only when it starts with a tick.
-/

namespace CanonicalVhdl.Text

/-- No comment begins in a text that the given character precedes. -/
def CommentFree (before : Option Char) (t : Text) : Prop :=
  commentFrom? 0 0 before t = none

/-- The text holds no comment, or it starts with a tick. -/
def Quiet (t : Text) : Prop :=
  CommentFree none t ∨ t.head? = some '\''

theorem commentFree_none {t : Text} : CommentFree none t ↔ commentStart? t = none := Iff.rfl

/-! ## Scanning from one place on -/

/-- Whether a scan finds a comment does not depend on where it counts from. -/
theorem commentFrom?_position (skip p q : Nat) (before : Option Char) (t : Text) :
    commentFrom? skip p before t = none → commentFrom? skip q before t = none := by
  induction t generalizing skip p q before with
  | nil => exact fun _ => rfl
  | cons c t ih =>
    cases skip with
    | succ skip => exact ih _ _ _ _
    | zero =>
      simp only [commentFrom?]
      split
      · exact fun h => by cases h
      · exact ih _ _ _ _
      · exact ih _ _ _ _

theorem commentFree_cons_code {before : Option Char} {c : Char} {t : Text}
    (h : Lexeme.at before (c :: t) = .code) :
    CommentFree before (c :: t) ↔ CommentFree (some c) t := by
  rw [CommentFree, commentFrom?, h]
  exact ⟨commentFrom?_position _ _ _ _ _, commentFrom?_position _ _ _ _ _⟩

theorem commentFree_cons_literal {before : Option Char} {c : Char} {x t : Text}
    (h : Lexeme.at before (c :: (x ++ t)) = .literal (x.length + 1)) :
    CommentFree before (c :: (x ++ t)) ↔ CommentFree (lastOr (some c) x) t := by
  rw [CommentFree, commentFrom?, h]
  simp only [Nat.add_sub_cancel, Token.commentFrom?_skip]
  exact ⟨commentFrom?_position _ _ _ _ _, commentFrom?_position _ _ _ _ _⟩

theorem not_commentFree_hyphens (before : Option Char) (t : Text) :
    ¬ CommentFree before ('-' :: '-' :: t) := by
  simp [CommentFree, commentFrom?, Lexeme.at]

/-- The character before a text matters only through the tick it may bind. -/
theorem CommentFree.congr {b b' : Option Char} {t : Text}
    (h : t.head? = some '\'' → Lexeme.bindsTick b = Lexeme.bindsTick b') (ht : CommentFree b t) :
    CommentFree b' t := by
  cases t with
  | nil => exact ht
  | cons c t =>
    have hat : Lexeme.at b (c :: t) = Lexeme.at b' (c :: t) := by
      rw [Lexeme.at_cons, Lexeme.at_cons]
      by_cases hc : c = '\''
      · rw [h (by rw [hc]; rfl)]
      · simp [hc]
    rw [CommentFree, commentFrom?] at ht ⊢
    rwa [← hat]

/-- What precedes a text matters only when it starts with a tick. -/
theorem CommentFree.quiet {before : Option Char} {t : Text} (h : CommentFree before t) : Quiet t := by
  by_cases ht : t.head? = some '\''
  · exact .inr ht
  · exact .inl (h.congr fun h => absurd h ht)

theorem CommentFree.of_unbound {before : Option Char} {t : Text}
    (hb : Lexeme.bindsTick before = false) (h : CommentFree before t) : CommentFree none t :=
  h.congr fun _ => hb

/-! ## Beginnings -/

/-- A quoted literal ends in a beginning as in the whole text, or goes on to its end. -/
theorem quotedLength_prefix (n : Nat) (s t : Text) :
    Lexeme.quotedLength n (s ++ t) = Lexeme.quotedLength n s
      ∨ n + s.length ≤ Lexeme.quotedLength n s ∧ n + s.length ≤ Lexeme.quotedLength n (s ++ t) := by
  fun_induction Lexeme.quotedLength n s with
  | case1 n rest ih =>
    simp only [List.cons_append, Lexeme.quotedLength, List.length_cons]
    rcases ih with ih | ih
    · exact .inl ih
    · exact .inr (by omega)
  | case2 n rest hrest =>
    cases rest with
    | nil =>
      right
      cases t with
      | nil => simp [Lexeme.quotedLength]
      | cons d t =>
        by_cases hd : d = '"'
        · subst hd
          have := le_quotedLength (n + 2) t
          simp only [List.cons_append, List.nil_append, Lexeme.quotedLength, List.length_cons,
            List.length_nil]
          omega
        · simp [Lexeme.quotedLength, hd]
    | cons c rest =>
      have hc : c ≠ '"' := fun hc => hrest rest (by rw [hc])
      left
      rw [List.cons_append, List.cons_append, Lexeme.quotedLength]
      rintro r ⟨⟩
      exact hc rfl
  | case3 n rest => exact .inl (by simp [Lexeme.quotedLength])
  | case4 n c rest h1 h2 h3 ih =>
    have hq : c ≠ '"' := h2
    have hn : c ≠ '\n' := h3
    have hstep : Lexeme.quotedLength n (c :: rest ++ t) = Lexeme.quotedLength (n + 1) (rest ++ t) := by
      rw [List.cons_append, Lexeme.quotedLength]
      · exact fun _ hc => absurd hc hq
      · exact hq
      · exact hn
    rw [hstep, List.length_cons]
    rcases ih with ih | ih
    · exact .inl ih
    · exact .inr (by omega)
  | case5 n => exact .inr ⟨Nat.le_refl _, le_quotedLength _ _⟩

/-- A text is lexed as the beginning of a longer one, up to its last lexeme. -/
theorem at_prefix (before : Option Char) (c : Char) (s t : Text) :
    Lexeme.at before (c :: (s ++ t)) = Lexeme.at before (c :: s)
      ∨ (∃ n, Lexeme.at before (c :: (s ++ t)) = .comment n)
      ∨ (∃ n, Lexeme.at before (c :: s) = .literal n ∧ s.length ≤ n - 1)
      ∨ s.length ≤ 1 ∧ Lexeme.at before (c :: s) = .code := by
  by_cases hhyphen : c = '-'
  · subst hhyphen
    rcases s with _ | ⟨d, s⟩
    · exact .inr (.inr (.inr ⟨Nat.zero_le _, rfl⟩))
    · by_cases hd : d = '-'
      · subst hd
        exact .inr (.inl ⟨_, rfl⟩)
      · exact .inl (by simp [Lexeme.at, hd])
  · by_cases hquote : c = '"'
    · subst hquote
      simp only [Lexeme.at]
      rcases quotedLength_prefix 1 s t with h | h
      · exact .inl (by rw [h])
      · exact .inr (.inr (.inl ⟨_, rfl, by have := h.1; omega⟩))
    · by_cases htick : c = '\''
      · subst htick
        rcases s with _ | ⟨d, _ | ⟨e, s⟩⟩
        · exact .inr (.inr (.inr ⟨Nat.zero_le _, rfl⟩))
        · exact .inr (.inr (.inr ⟨Nat.le_refl _, by simp [Lexeme.at]⟩))
        · exact .inl (by rw [List.cons_append, List.cons_append, Lexeme.at_cons, Lexeme.at_cons]; simp)
      · exact .inl (by simp [Lexeme.at, hhyphen, hquote, htick])

theorem commentFrom?_short {t : Text} (h : t.length ≤ 1) (skip position : Nat)
    (before : Option Char) : commentFrom? skip position before t = none := by
  rcases t with _ | ⟨c, _ | ⟨d, t⟩⟩
  · rfl
  · cases skip with
    | succ skip => rfl
    | zero =>
      have hat : ∀ n, Lexeme.at before [c] ≠ .comment n := fun n => by
        rw [Lexeme.at_cons]
        simp
        split <;> simp
      rw [commentFrom?]
      split
      · exact absurd ‹_› (hat _)
      · rfl
      · rfl
  · simp at h

theorem commentFrom?_of_append_left (s t : Text) (skip p : Nat) (before : Option Char)
    (h : commentFrom? skip p before (s ++ t) = none) : commentFrom? skip p before s = none := by
  induction s generalizing skip p before with
  | nil => rfl
  | cons c s ih =>
    cases skip with
    | succ skip => exact ih _ _ _ h
    | zero =>
      rw [List.cons_append, commentFrom?] at h
      obtain hat | ⟨n, hat⟩ | ⟨n, hat, hlen⟩ | ⟨hlen, hat⟩ := at_prefix before c s t
      · rw [hat] at h
        rw [commentFrom?]
        split at h
        · cases h
        · exact ih _ _ _ h
        · exact ih _ _ _ h
      · rw [hat] at h
        cases h
      · rw [commentFrom?, hat]
        exact commentFrom?_skip_all _ _ _ _ hlen
      · rw [commentFrom?, hat]
        exact commentFrom?_short hlen _ _ _

/-- The beginning of a text without comments holds none. -/
theorem CommentFree.of_append_left {before : Option Char} {s t : Text}
    (h : CommentFree before (s ++ t)) : CommentFree before s :=
  commentFrom?_of_append_left s t 0 0 before h

theorem CommentFree.of_isPrefix {before : Option Char} {s t : Text} (h : CommentFree before t)
    (hs : s <+: t) : CommentFree before s := by
  obtain ⟨r, rfl⟩ := hs
  exact h.of_append_left

theorem CommentFree.take {before : Option Char} {t : Text} (h : CommentFree before t) (n : Nat) :
    CommentFree before (t.take n) :=
  h.of_isPrefix (List.take_prefix n t)

/-! ## Ends -/

/-- Whether a character is code wherever it stands. -/
def isPlain (c : Char) : Bool :=
  c != '-' && c != '"' && c != '\''

theorem at_plain (before : Option Char) {c : Char} (hc : isPlain c = true) (t : Text) :
    Lexeme.at before (c :: t) = .code := by
  simp only [isPlain, Bool.and_eq_true, bne_iff_ne] at hc
  exact Token.at_code hc.1.2 (fun h => absurd h hc.2) fun h => absurd h hc.1.1

theorem isPlain_of_isIdentChar {c : Char} (h : isIdentChar c = true) : isPlain c = true := by
  simp only [isPlain, Bool.and_eq_true, bne_iff_ne]
  refine ⟨⟨?_, ?_⟩, ?_⟩ <;> rintro rfl <;> exact absurd h (by decide)

theorem isPlain_of_isBlank {c : Char} (h : isBlank c = true) : isPlain c = true := by
  simp only [isPlain, Bool.and_eq_true, bne_iff_ne]
  refine ⟨⟨?_, ?_⟩, ?_⟩ <;> rintro rfl <;> exact absurd h (by decide)

theorem all_isPlain_of_blank {s : Text} (h : s.all isBlank = true) : s.all isPlain = true := by
  rw [List.all_eq_true] at h ⊢
  exact fun c hc => isPlain_of_isBlank (h c hc)

theorem all_isPlain_of_ident {s : Text} (h : s.all isIdentChar = true) : s.all isPlain = true := by
  rw [List.all_eq_true] at h ⊢
  exact fun c hc => isPlain_of_isIdentChar (h c hc)

/-- What follows plain code in a text without comments holds none. -/
theorem CommentFree.of_plain {before : Option Char} {s t : Text} (hs : s.all isPlain = true)
    (h : CommentFree before (s ++ t)) : CommentFree (lastOr before s) t := by
  induction s generalizing before with
  | nil => exact h
  | cons c s ih =>
    rw [List.all_cons, Bool.and_eq_true] at hs
    rw [lastOr_cons]
    exact ih hs.2 ((commentFree_cons_code (at_plain before hs.1 _)).1 h)

theorem commentFrom?_of_line {s : Text} (t : Text) (skip p : Nat) (before : Option Char)
    (hskip : skip ≤ s.length) (h : commentFrom? skip p before (s ++ '\n' :: t) = none) :
    CommentFree none t := by
  induction s generalizing skip p before with
  | nil =>
    obtain rfl := Nat.le_zero.1 hskip
    rw [List.nil_append, commentFrom?, at_plain before (by decide)] at h
    exact CommentFree.of_unbound (by rfl) (commentFrom?_position _ _ 0 (some '\n') _ h)
  | cons c s ih =>
    cases skip with
    | succ skip => exact ih _ _ _ (Nat.le_of_succ_le_succ hskip) h
    | zero =>
      rw [List.cons_append, commentFrom?, at_append (atLineEnd_newline t)] at h
      obtain hat | ⟨x, r, rfl, hat | hat⟩ := at_split before c s
      · rw [hat] at h
        exact ih _ _ _ (Nat.zero_le _) h
      · rw [hat] at h
        cases h
      · rw [hat] at h
        exact ih _ _ _ (by simp) h

/-- What follows a line end in a text without comments holds none. -/
theorem CommentFree.of_line {before : Option Char} {s t : Text}
    (h : CommentFree before (s ++ '\n' :: t)) : CommentFree none t :=
  commentFrom?_of_line t 0 0 before (Nat.zero_le _) h

/-! ## Plain code at the end -/

theorem commentFrom?_of_plain {s : Text} (hs : s.all isPlain = true) (skip p : Nat)
    (before : Option Char) : commentFrom? skip p before s = none := by
  induction s generalizing skip p before with
  | nil => rfl
  | cons c s ih =>
    rw [List.all_cons, Bool.and_eq_true] at hs
    cases skip with
    | succ skip => exact ih hs.2 _ _ _
    | zero =>
      rw [commentFrom?, at_plain before hs.1]
      exact ih hs.2 _ _ _

theorem commentFrom?_pass_plain {s : Text} (hs : s.all isPlain = true) (t : Text) {skip : Nat}
    (hskip : t.length ≤ skip) (p : Nat) (before : Option Char) :
    commentFrom? skip p before (t ++ s) = none := by
  induction t generalizing skip p before with
  | nil => exact commentFrom?_of_plain hs _ _ _
  | cons c t ih =>
    cases skip with
    | zero => cases hskip
    | succ skip => exact ih (Nat.le_of_succ_le_succ hskip) _ _

/-- A comment that starts before plain code does so without it. -/
theorem at_append_plain {s : Text} (hs : s.all isPlain = true) (before : Option Char) (c : Char)
    (t : Text) :
    Lexeme.at before (c :: (t ++ s)) = Lexeme.at before (c :: t)
      ∨ (∃ m n, Lexeme.at before (c :: t) = .literal m ∧ t.length ≤ n - 1
        ∧ Lexeme.at before (c :: (t ++ s)) = .literal n)
      ∨ (∃ n, Lexeme.at before (c :: t) = .comment n) := by
  have hhead : s.head? ≠ some '-' ∧ s.head? ≠ some '\'' := by
    constructor <;> intro hhead <;>
      exact absurd (List.all_eq_true.1 hs _ (List.mem_of_head? hhead)) (by decide)
  by_cases hhyphen : c = '-'
  · subst hhyphen
    rcases t with _ | ⟨d, t⟩
    · left
      rw [Lexeme.at_cons, Lexeme.at_cons]
      simp [hhead.1]
    · by_cases hd : d = '-'
      · subst hd
        exact .inr (.inr ⟨_, rfl⟩)
      · exact .inl (by simp [Lexeme.at, hd])
  · by_cases hquote : c = '"'
    · subst hquote
      simp only [Lexeme.at]
      rcases quotedLength_prefix 1 t s with h | h
      · exact .inl (by rw [h])
      · exact .inr (.inl ⟨_, _, rfl, by have := h.2; omega, rfl⟩)
    · left
      rw [Lexeme.at_cons, Lexeme.at_cons]
      rcases t with _ | ⟨d, _ | ⟨e, t⟩⟩
      · by_cases htick : c = '\''
        · have htail : s.tail.head? ≠ some '\'' := fun hhead =>
            absurd (List.all_eq_true.1 hs _ (List.mem_of_mem_tail (List.mem_of_head? hhead)))
              (by decide)
          rw [htick]
          simp only [List.nil_append, htail, false_and, and_false, if_false]
          simp
        · simp [hhyphen, hquote, htick]
      · simp [hhyphen, hquote, hhead.2]
      · simp [hhyphen, hquote]

/-- Plain code at the end adds no comment. -/
theorem CommentFree.append_plain {before : Option Char} {t s : Text} (hs : s.all isPlain = true)
    (h : CommentFree before t) : CommentFree before (t ++ s) := by
  suffices hstep : ∀ skip p, commentFrom? skip p before t = none →
      commentFrom? skip p before (t ++ s) = none from hstep 0 0 h
  clear h
  intro skip p h
  induction t generalizing skip p before with
  | nil => exact commentFrom?_of_plain hs _ _ _
  | cons c t ih =>
    cases skip with
    | succ skip => exact ih _ _ h
    | zero =>
      rw [List.cons_append, commentFrom?]
      rw [commentFrom?] at h
      obtain hat | ⟨m, n, -, hlen, hat⟩ | ⟨n, hat⟩ := at_append_plain hs before c t
      · rw [hat]
        split at h
        · cases h
        · exact ih _ _ h
        · exact ih _ _ h
      · rw [hat]
        exact commentFrom?_pass_plain hs t hlen _ _
      · rw [hat] at h
        cases h

end CanonicalVhdl.Text
