import CanonicalVhdl.Proofs.Room.Foreign
import CanonicalVhdl.Proofs.Settled.Text

/-!
# Places in texts with comments

A search passes comments, and no lexeme reaches over the end of a line.  So line by line a
search reaches the same places in a text and in its code, as long as they are not in or behind a
comment, and what stands between a place and the start of its line stays as it is.

## Main statements

* `Text.Reaches.exists_strip` — a place of a text is a place of its code.
* `Expr.read_before_hit` — what stands before a barred word in an expression is no expression.
-/

namespace CanonicalVhdl

open Text Token

namespace Text

section Lines

variable {before : Option Char} {depth d : Nat} {s t u y : Text}

/-! ## Ends of lines -/

/-- A line end may follow a text. -/
theorem Reaches.extend (hy : AtLineEnd y) (h : Reaches before depth s u d) :
    Reaches before depth s (u ++ y) d := by
  induction h with
  | here => exact .here
  | code hat _ ih =>
    refine .code ?_ ih
    rwa [← List.append_assoc, at_append hy]
  | lexeme hat _ ih =>
    refine .lexeme ?_ ih
    rwa [← List.append_assoc _ _ y, ← List.append_assoc, at_append hy]

/-- A search goes through every text. -/
theorem exists_reaches_end (n : Nat) : ∀ (t : Text) (depth : Nat) (before : Option Char),
    t.length ≤ n → ∃ d, Reaches before depth t [] d := by
  induction n with
  | zero =>
    intro t depth before ht
    rw [List.eq_nil_of_length_eq_zero (Nat.le_zero.1 ht)]
    exact ⟨depth, .here⟩
  | succ n ih =>
    intro t depth before ht
    cases t with
    | nil => exact ⟨depth, .here⟩
    | cons c t =>
      rw [List.length_cons] at ht
      obtain hat | ⟨x, r, rfl, hat⟩ := at_split before c t
      · obtain ⟨d, h⟩ := ih t (depthAfter c depth) (some c) (by omega)
        exact ⟨d, .code (by rwa [List.append_nil]) h⟩
      · rw [List.length_append] at ht
        obtain ⟨d, h⟩ := ih r depth (lastOr (some c) x) (by omega)
        exact ⟨d, .lexeme (by rw [List.append_nil]; exact hat.symm) h⟩

theorem Reaches.unique {d' : Nat} (h : Reaches before depth s u d) (h' : Reaches before depth s u d') :
    d = d' := by
  obtain ⟨m, hm, -, hreach⟩ := h.split h' rfl (Nat.le_refl _)
  obtain rfl : m = [] := by simpa using hm
  cases hreach
  rfl

/-- A lexeme that goes on in the blanks at the end of its line ends with the code before them. -/
theorem at_trim {c : Char} {m r : Text} (hm : m.all isBlank = true) (hne : m ≠ []) (hline : '\n' ∉ s)
    (hat : Lexeme.at before (c :: ((s ++ m) ++ r)) = .literal ((s ++ m).length + 1)
      ∨ Lexeme.at before (c :: ((s ++ m) ++ r)) = .comment ((s ++ m).length + 1)) :
    Lexeme.at before (c :: s) = .literal (s.length + 1)
      ∨ Lexeme.at before (c :: s) = .comment (s.length + 1) := by
  rcases hat with hat | hat
  · left
    rw [Lexeme.at_cons] at hat
    split_ifs at hat with h1 h2 h3
    · subst h2
      have hlen := Lexeme.literal.inj hat
      rw [List.append_assoc] at hlen
      rw [Lexeme.at_cons, if_neg (by simp), if_pos rfl]
      have hle := quotedLength_le 1 s
      have hpos := List.length_pos_of_ne_nil hne
      rw [List.length_append] at hlen
      congr 1
      rcases quotedLength_prefix 1 s (m ++ r) with heq | heq <;> omega
    · -- the literal would end with a tick among the blanks
      have hlen := Lexeme.literal.inj hat
      obtain ⟨a, b, hab⟩ : ∃ a b, s ++ m = [a, b] := List.length_eq_two.1 (by omega)
      have hb : m.getLast? = some b := by
        rw [← List.getLast?_append_of_ne_nil s hne, hab]
        rfl
      rw [hab] at h3
      obtain rfl : b = '\'' := by simpa using h3.2.2.1
      exact absurd (List.all_eq_true.1 hm _ (List.mem_of_getLast? hb)) (by decide)
  · right
    obtain ⟨x, r', heq, hlen, -, -⟩ := exists_comment hat
    obtain ⟨rfl, htail⟩ := List.cons.inj heq
    have hlength : (s ++ m).length = ('-' :: x).length := by
      rw [List.length_cons]
      omega
    obtain ⟨hsm, -⟩ := List.append_inj (show (s ++ m) ++ r = ('-' :: x) ++ r' from htail) hlength
    cases s with
    | nil =>
      rw [List.nil_append] at hsm
      rw [hsm] at hm
      exact absurd (List.all_eq_true.1 hm '-' List.mem_cons_self) (by decide)
    | cons e s =>
      obtain ⟨rfl, -⟩ := List.cons.inj hsm
      have hs : '\n' ∉ s := fun h => hline (List.mem_cons_of_mem _ h)
      rw [Lexeme.at, lineLength_of_not_mem hs, List.length_cons]
      congr 1
      omega

theorem Reaches.of_blank {g : Text} (hg : g.all isBlank = true) (h : Reaches before depth g [] d) :
    depth = d :=
  (reaches_blank hg []).unique h

/-- Blanks at the end of a line make no difference to what is reached before it. -/
theorem Reaches.trim {g : Text} (hg : g.all isBlank = true) (hline : '\n' ∉ s)
    (h : Reaches before depth (s ++ g) [] d) : Reaches before depth s [] d := by
  generalize ht : s ++ g = t at h
  generalize hu : ([] : Text) = u at h ⊢
  induction h generalizing s with
  | here =>
    obtain ⟨rfl, -⟩ := List.append_eq_nil_iff.1 ht
    exact .here
  | @code before depth _ c t u hat h ih =>
    subst hu
    cases s with
    | nil =>
      obtain rfl : g = c :: t := ht
      obtain rfl := Reaches.of_blank hg (.code hat h)
      exact .here
    | cons e s =>
      obtain ⟨rfl, rfl⟩ := List.cons.inj ht
      refine .code ?_ (ih (fun h => hline (List.mem_cons_of_mem _ h)) rfl rfl)
      rw [List.append_nil] at hat ⊢
      exact at_code_cut hat
  | @lexeme before depth _ c x t u hat h ih =>
    subst hu
    cases s with
    | nil =>
      obtain rfl : g = c :: (x ++ t) := ht
      obtain rfl := Reaches.of_blank hg (.lexeme hat h)
      exact .here
    | cons e s =>
      obtain ⟨rfl, hsplit⟩ : e = c ∧ s ++ g = x ++ t := by simpa using ht
      have hs : '\n' ∉ s := fun h => hline (List.mem_cons_of_mem _ h)
      rw [List.append_nil] at hat
      rcases List.append_eq_append_iff.1 hsplit.symm with ⟨m, rfl, rfl⟩ | ⟨m, rfl, rfl⟩
      · rw [List.mem_append, not_or] at hs
        refine .lexeme ?_ (ih hs.2 rfl rfl)
        rw [List.append_nil]
        exact hat.imp at_literal_cut at_comment_cut
      · rw [List.all_append, Bool.and_eq_true] at hg
        -- behind the lexeme only blanks are left
        obtain rfl := h.of_blank hg.2
        have hend : Lexeme.at before (e :: s) = .literal (s.length + 1)
            ∨ Lexeme.at before (e :: s) = .comment (s.length + 1) := by
          by_cases hm : m = []
          · subst hm
            rw [List.append_nil] at hat
            have := hat.imp (at_literal_cut (t := []) (u := t)) (at_comment_cut (t := []) (u := t))
            rwa [List.append_nil] at this
          · exact at_trim hg.1 hm hs hat
        rw [← List.append_nil s]
        exact .lexeme (by simpa using hend) .here

/-! ## Comments -/

/-- The first comment starts at a place that a search reaches. -/
theorem exists_of_commentFrom (n : Nat) : ∀ (t : Text) (position depth : Nat) (before : Option Char)
    (i : Nat), t.length ≤ n → commentFrom? 0 position before t = some i →
    ∃ s u d k, t = s ++ u ∧ i = position + s.length ∧ Reaches before depth s u d
      ∧ Lexeme.at (lastOr before s) u = .comment k := by
  induction n with
  | zero =>
    intro t position depth before i ht h
    rw [List.eq_nil_of_length_eq_zero (Nat.le_zero.1 ht)] at h
    cases h
  | succ n ih =>
    intro t position depth before i ht h
    cases t with
    | nil => cases h
    | cons c t =>
      rw [List.length_cons] at ht
      obtain hat | ⟨x, r, rfl, hat | hat⟩ := at_split before c t
      · rw [commentFrom?, hat] at h
        obtain ⟨s, u, d, k, rfl, rfl, hreach, hcomment⟩ := ih t _ (depthAfter c depth) _ i (by omega) h
        exact ⟨c :: s, u, d, k, rfl, by rw [List.length_cons]; omega, .code hat hreach,
          by rwa [lastOr_cons]⟩
      · rw [commentFrom?, hat] at h
        obtain rfl := Option.some.inj h
        exact ⟨[], _, depth, _, rfl, rfl, .here, hat⟩
      · rw [List.length_append] at ht
        rw [commentFrom?, hat] at h
        simp only [Nat.add_sub_cancel] at h
        rw [commentFrom?_skip] at h
        obtain ⟨s, u, d, k, rfl, rfl, hreach, hcomment⟩ := ih r _ depth _ i (by omega) h
        refine ⟨c :: (x ++ s), u, d, k, by simp, ?_, .lexeme (.inl hat) hreach, ?_⟩
        · rw [List.length_cons, List.length_append]
          omega
        · rwa [lastOr_cons, lastOr_append]

/-- Before a place inside of a line no comment starts in the line. -/
theorem Reaches.commentFrom?_eq (h : Reaches before depth s u d) (hline : '\n' ∉ s)
    (hu : ¬ AtLineEnd u) (position : Nat) : commentFrom? 0 position before (s ++ u)
      = commentFrom? 0 (position + s.length) (lastOr before s) u := by
  induction h generalizing position with
  | here => rfl
  | @code _ _ _ c s u hat _ ih =>
    rw [List.cons_append, commentFrom?, hat, lastOr_cons,
      ih (fun h => hline (List.mem_cons_of_mem _ h)) hu, List.length_cons,
      show position + 1 + s.length = position + (s.length + 1) by omega]
  | @lexeme before _ _ c x s u hat _ ih =>
    rw [List.mem_cons, List.mem_append, not_or, not_or] at hline
    rcases hat with hat | hat
    · rw [List.cons_append, List.append_assoc, commentFrom?, hat]
      simp only [Nat.add_sub_cancel]
      rw [commentFrom?_skip, ih hline.2.2 hu, lastOr_cons, lastOr_append, List.length_cons,
        List.length_append, show position + 1 + x.length + s.length
          = position + (x.length + s.length + 1) by omega]
    · -- the comment would reach the end of the line
      obtain ⟨y, r, heq, hlen, -, hr⟩ := exists_comment hat
      obtain ⟨rfl, htail⟩ := List.cons.inj heq
      have hlength : x.length = ('-' :: y).length := by
        rw [List.length_cons]
        omega
      obtain ⟨-, rfl⟩ := List.append_inj (show x ++ (s ++ u) = ('-' :: y) ++ r from htail) hlength
      cases s with
      | nil => exact absurd hr hu
      | cons e s =>
        obtain rfl : e = '\n' := hr e (by simp)
        exact absurd List.mem_cons_self hline.2.2

theorem trimEnd_append_cons {a : Char} (ha : isBlank a = false) (s q : Text) :
    ∃ q', trimEnd (s ++ a :: q) = s ++ a :: q' := by
  obtain ⟨g, hg, hpad⟩ := exists_pad_trimEnd (s ++ a :: q)
  rcases List.append_eq_append_iff.1 hpad with ⟨m, hm, hsplit⟩ | ⟨m, -, hsplit⟩
  · cases m with
    | nil =>
      obtain rfl : a :: q = g := hsplit
      rw [List.all_cons, ha] at hg
      cases hg
    | cons b m =>
      obtain ⟨rfl, -⟩ := List.cons.inj hsplit
      exact ⟨m, hm⟩
  · rw [hsplit, List.all_append, List.all_cons, ha, Bool.false_and, Bool.and_false] at hg
    cases hg

theorem not_atLineEnd_cons {a : Char} {q : Text} (ha : isBlank a = false) : ¬ AtLineEnd (a :: q) := by
  intro hu
  obtain rfl : a = '\n' := hu a (by simp)
  cases ha

/-- The code of a line goes on behind a place that is followed by code. -/
theorem Reaches.exists_lineCode {a : Char} {q : Text} (h : Reaches none depth s (a :: q) d)
    (hline : '\n' ∉ s) (hplain : isPlain a = true) (ha : isBlank a = false) :
    ∃ q', lineCode (s ++ a :: q) = s ++ a :: q' := by
  rw [lineCode, commentStart?, h.commentFrom?_eq hline (not_atLineEnd_cons ha), commentFrom?,
    at_plain _ hplain]
  cases hq : commentFrom? 0 (0 + s.length + 1) (some a) q with
  | none => exact trimEnd_append_cons ha s q
  | some i =>
    obtain ⟨s', u', rfl, rfl⟩ := eq_of_commentFrom? hq
    have htake : (s ++ a :: (s' ++ '-' :: '-' :: u')).take (0 + s.length + 1 + s'.length)
        = s ++ a :: s' := by
      rw [show s ++ a :: (s' ++ '-' :: '-' :: u') = (s ++ a :: s') ++ '-' :: '-' :: u' by simp]
      exact List.take_left' (by simp; omega)
    rw [Option.elim_some, htake]
    exact trimEnd_append_cons ha s s'

/-- No comment starts before a place inside of a line. -/
theorem Reaches.commentStart?_eq_none {a : Char} {q : Text} (h : Reaches none depth s (a :: q) d)
    (hline : '\n' ∉ s) (hplain : isPlain a = true) (ha : isBlank a = false) :
    commentStart? s = none := by
  have hcut : Reaches none depth s [a] d := Reaches.cut (v := q) h
  have hnone : CommentFree none (s ++ [a]) := by
    rw [CommentFree, hcut.commentFrom?_eq hline (not_atLineEnd_cons ha), commentFrom?,
      at_plain _ hplain]
    rfl
  exact hnone.of_append_left

/-- The end of a line is reached in the line as in its code. -/
theorem Reaches.lineCode (hline : '\n' ∉ t) (h : Reaches none depth t [] d) :
    Reaches none depth (lineCode t) [] d := by
  have trim : ∀ {x : Text}, '\n' ∉ x → Reaches none depth x [] d → Reaches none depth (trimEnd x) [] d := by
    intro x hx hreach
    obtain ⟨g, hg, hpad⟩ := exists_pad_trimEnd x
    rw [hpad] at hx hreach
    exact hreach.trim hg fun h => hx (List.mem_append_left g h)
  rw [Text.lineCode]
  cases hstart : commentStart? t with
  | none => exact trim hline h
  | some i =>
    obtain ⟨s, u, d', k, rfl, rfl, hreach, hat⟩ :=
      exists_of_commentFrom t.length t 0 depth none i (Nat.le_refl _) hstart
    rw [Option.elim_some, Nat.zero_add, List.take_left]
    rw [List.mem_append, not_or] at hline
    obtain ⟨x, r, rfl, rfl, -, hr⟩ := exists_comment hat
    obtain rfl | ⟨v, rfl⟩ := hr.cases
    · have hcomment : Reaches (lastOr none s) d' ('-' :: (('-' :: x) ++ [])) [] d' :=
        .lexeme (.inr (by simpa using hat)) .here
      have hend := Reaches.append (m := '-' :: (('-' :: x) ++ [])) (u := [])
        (by simpa using hreach) hcomment
      obtain rfl := hend.unique (by simpa using h)
      exact trim hline.1 (Reaches.cut (u := []) hreach)
    · exact absurd (by simp) hline.2

/-! ## Texts without their comments -/

theorem stripComments_cons (hline : '\n' ∉ s) (t : Text) :
    stripComments (s ++ '\n' :: t) = if Text.lineCode s = [] then stripComments t
      else if stripComments t = [] then Text.lineCode s
      else Text.lineCode s ++ '\n' :: stripComments t := by
  rw [stripComments_eq, stripComments_eq, splitOn_append hline, List.map_cons, List.filter_cons]
  by_cases hcode : Text.lineCode s = []
  · simp [hcode]
  · have hkept : (!(Text.lineCode s).isEmpty) = true := by simpa using hcode
    rw [if_pos hkept, if_neg hcode]
    split
    · next hnil =>
      cases hparts : ((splitOn '\n' t).map Text.lineCode).filter (!·.isEmpty) with
      | nil => simp [join]
      | cons p ps =>
        -- every part that is kept has a character
        have hp : p ∈ ((splitOn '\n' t).map Text.lineCode).filter (!·.isEmpty) := by simp [hparts]
        obtain ⟨y, hjoin, -⟩ := atLineEnd_join p ps
        rw [hparts, hjoin, List.append_eq_nil_iff] at hnil
        simp [hnil.1] at hp
    · next hne =>
      refine join_cons_of_ne_nil _ fun hnil => hne ?_
      rw [hnil]
      rfl

/-- Two texts with the same last line. -/
def SameLine (s s' : Text) : Prop :=
  ∃ a a' p, s = a ++ p ∧ s' = a' ++ p ∧ (a = [] → a' = []) ∧ a.getLast?.all (· == '\n') = true
    ∧ a'.getLast?.all (· == '\n') = true

/-! ## Blanks around a text -/

theorem stripComments_blank {c : Char} (hc : isBlank c = true) (n : Nat) : ∀ t : Text, t.length ≤ n →
    stripComments (t ++ [c]) = stripComments t := by
  by_cases hn : c = '\n'
  · subst hn
    exact fun t _ => stripComments_newline t
  induction n with
  | zero =>
    intro t ht
    obtain rfl := List.eq_nil_of_length_eq_zero (Nat.le_zero.1 ht)
    rw [stripComments_line (by simpa using Ne.symm hn), stripComments_line List.not_mem_nil,
      lineCode_blank hc]
  | succ n ih =>
    intro t ht
    by_cases hline : '\n' ∈ t
    · obtain ⟨l, v, rfl, hl⟩ : ∃ l v, t = l ++ '\n' :: v ∧ '\n' ∉ l := List.eq_append_cons_of_mem hline
      rw [List.length_append, List.length_cons] at ht
      rw [List.append_assoc, List.cons_append, stripComments_cons hl, stripComments_cons hl,
        ih v (by omega)]
    · rw [stripComments_line (by simpa [Ne.symm hn] using hline), stripComments_line hline,
        lineCode_blank hc]

theorem commentFrom?_succ (t : Text) (skip position : Nat) (before : Option Char) :
    commentFrom? skip (position + 1) before t = (commentFrom? skip position before t).map (· + 1) := by
  induction t generalizing skip position before with
  | nil => rfl
  | cons c t ih =>
    cases skip with
    | succ skip => exact ih ..
    | zero =>
      simp only [commentFrom?]
      split
      · rfl
      · exact ih ..
      · exact ih ..

/-- A blank in front of a text changes nothing about its first comment. -/
theorem commentStart?_cons_blank {c : Char} (hc : isBlank c = true) (t : Text) :
    commentStart? (c :: t) = (commentStart? t).map (· + 1) := by
  have hb : Lexeme.bindsTick (some c) = false := bindsTick_lastOr_blank (g := [c]) (by simp [hc])
  rw [commentStart?, commentFrom?, at_plain _ (isPlain_of_isBlank hc), commentStart?,
    ← commentFrom?_succ]
  cases t with
  | nil => rfl
  | cons d t =>
    rw [commentFrom?, commentFrom?, Lexeme.at_cons, Lexeme.at_cons, hb]
    rfl

theorem trimEnd_cons_blank {c : Char} (hc : isBlank c = true) (t : Text) :
    trimEnd (c :: t) = if trimEnd t = [] then [] else c :: trimEnd t := by
  rw [trimEnd, List.reverse_cons, List.dropWhile_append]
  by_cases hnil : t.reverse.dropWhile isBlank = []
  · simp [trimEnd, hnil, hc]
  · simp [trimEnd, hnil]

theorem lineCode_cons_blank {c : Char} (hc : isBlank c = true) (t : Text) :
    Text.lineCode (c :: t) = if Text.lineCode t = [] then [] else c :: Text.lineCode t := by
  rw [Text.lineCode, Text.lineCode, commentStart?_cons_blank hc]
  cases commentStart? t with
  | none => exact trimEnd_cons_blank hc t
  | some i => exact trimEnd_cons_blank hc (t.take i)

theorem trimStart_stripComments_blank {c : Char} (hc : isBlank c = true) (t : Text) :
    trimStart (stripComments (c :: t)) = trimStart (stripComments t) := by
  have hdrop : ∀ u, trimStart (c :: u) = trimStart u := fun u => by simp [trimStart, hc]
  by_cases hn : c = '\n'
  · subst hn
    have := stripComments_cons (s := []) List.not_mem_nil t
    rw [List.nil_append, if_pos (show Text.lineCode [] = [] from rfl)] at this
    rw [this]
  obtain ⟨l, r, rfl, hl, hr⟩ := exists_firstLine t
  have hcl : '\n' ∉ c :: l := by simpa [Ne.symm hn] using hl
  obtain rfl | ⟨v, rfl⟩ := hr.cases
  · rw [List.append_nil, stripComments_line hcl, stripComments_line hl, lineCode_cons_blank hc]
    split
    · next hnil => rw [hnil]
    · exact hdrop _
  · rw [← List.cons_append, stripComments_cons hcl, stripComments_cons hl, lineCode_cons_blank hc]
    by_cases hnil : Text.lineCode l = []
    · simp [hnil]
    · rw [if_neg hnil, if_neg (List.cons_ne_nil _ _)]
      split <;> exact hdrop _

/-- Blanks around a text make no difference to its code. -/
theorem trim_withoutComments_pad {g g' : Text} (hg : g.all isBlank = true) (hg' : g'.all isBlank = true)
    (t : Text) : trim (withoutComments (g ++ (t ++ g'))) = trim (withoutComments t) := by
  have hbefore : ∀ t, trim (withoutComments (g ++ t)) = trim (withoutComments t) := by
    intro t
    induction g with
    | nil => rfl
    | cons c g ih =>
      rw [List.all_cons, Bool.and_eq_true] at hg
      rw [← ih hg.2, List.cons_append, withoutComments, withoutComments,
        commentStart?_cons_blank hg.1, Option.isSome_map]
      split
      · rw [trim, trim, trimStart_stripComments_blank hg.1]
      · simp [trim, trimStart, hg.1]
  rw [hbefore]
  induction g' using List.reverseRecOn with
  | nil => rw [List.append_nil]
  | append_singleton g' c ih =>
    rw [List.all_append, Bool.and_eq_true] at hg'
    have hc : isBlank c = true := by simpa using hg'.2
    rw [← ih hg'.1, ← List.append_assoc, withoutComments, withoutComments, commentStart?_blank hc,
      stripComments_blank hc _ _ (Nat.le_refl _)]
    split
    · rfl
    · exact trim_pad (g := []) rfl hg'.2 _

/-- What follows a place in a text and in its code. -/
def SameCode (u u' : Text) : Prop :=
  ∃ x y y', u = x ++ y ∧ u' = x ++ y' ∧ x ≠ [] ∧ AtLineEnd y'
    ∧ (y.head?.all fun c => isBlank c || c == '-') = true

/-- A place of a text is a place of its code. -/
structure Strips (depth : Nat) (s u : Text) (d : Nat) (s' u' : Text) : Prop where
  /-- The code is cut in two. -/
  split : stripComments (s ++ u) = s' ++ u'
  /-- The place is reached in the code. -/
  reaches : Reaches none depth s' u' d
  /-- The line before the place stays. -/
  before : SameLine s s'
  /-- What ends with a tick is left without comments. -/
  tick : s'.getLast? = some '\'' → s' = stripComments s
  /-- What follows on the line stays. -/
  behind : SameCode u u'

theorem exists_strips_line {a : Char} {q : Text} (hplain : isPlain a = true) (ha : isBlank a = false)
    (hline : '\n' ∉ s) (h : Reaches none depth s (a :: q) d) :
    ∃ u', Strips depth s (a :: q) d s u' := by
  obtain ⟨l, r, hq, hl, hr⟩ := exists_firstLine (a :: q)
  obtain ⟨q₁, rfl, rfl⟩ : ∃ q₁, l = a :: q₁ ∧ q = q₁ ++ r := by
    cases l with
    | nil => exact absurd (by rw [hq]; exact hr) (not_atLineEnd_cons (q := q) ha)
    | cons b q₁ =>
      obtain ⟨rfl, rfl⟩ := List.cons.inj hq
      exact ⟨q₁, rfl, rfl⟩
  have hcut : Reaches none depth s (a :: q₁) d := Reaches.cut (v := r) h
  obtain ⟨q', hcode⟩ := hcut.exists_lineCode hline hplain ha
  obtain ⟨g, w, hsplit, hg, hw⟩ := exists_lineCode (s ++ a :: q₁)
  obtain rfl : q₁ = q' ++ (g ++ w) := by
    rw [hcode, List.append_assoc] at hsplit
    simpa using hsplit
  have hl' : '\n' ∉ s ++ a :: (q' ++ (g ++ w)) := by
    rw [List.mem_append, not_or]
    exact ⟨hline, hl⟩
  obtain ⟨y', hstrip, hy'⟩ := stripComments_firstLine hl' hr (by simp [hcode])
  refine ⟨a :: (q' ++ y'), ⟨?_, ?_, ⟨[], [], s, rfl, rfl, fun _ => rfl, rfl, rfl⟩, ?_,
    ⟨a :: q', g ++ w ++ r, y', by simp, by simp, by simp, hy', ?_⟩⟩⟩
  · rw [hcode] at hstrip
    simpa using hstrip
  · exact (Reaches.cut (u := a :: q') (v := g ++ w) (by simpa using hcut)).extend hy'
  · intro htick
    rw [stripComments_line hline, Text.lineCode, h.commentStart?_eq_none hline hplain ha,
      Option.elim_none, trimEnd_eq_self (by rw [htick]; rfl)]
  · cases g with
    | cons b g => simp [List.all_eq_true.1 hg b List.mem_cons_self]
    | nil =>
      obtain rfl | ⟨v, rfl⟩ := hw
      · obtain rfl | ⟨v, rfl⟩ := hr.cases <;> rfl
      · rfl

theorem SameLine.line {s' : Text} (h : SameLine s s') (l : Text) : SameLine (l ++ '\n' :: s) s' := by
  obtain ⟨a, a', p, rfl, rfl, -, ha, ha'⟩ := h
  refine ⟨l ++ '\n' :: a, a', p, by simp, rfl, by simp, ?_, ha'⟩
  rw [List.getLast?_append_of_ne_nil _ (by simp), List.getLast?_cons]
  cases hlast : a.getLast? with
  | none => rfl
  | some c => rwa [hlast] at ha

theorem SameLine.code {s' : Text} (h : SameLine s s') (l l' : Text) :
    SameLine (l ++ '\n' :: s) (l' ++ '\n' :: s') := by
  obtain ⟨a, a', p, rfl, rfl, -, ha, ha'⟩ := h
  have hlast : ∀ {l b : Text}, b.getLast?.all (· == '\n') = true →
      (l ++ '\n' :: b).getLast?.all (· == '\n') = true := by
    intro l b hb
    rw [List.getLast?_append_of_ne_nil _ (by simp), List.getLast?_cons]
    cases hlast : b.getLast? with
    | none => rfl
    | some c => rwa [hlast] at hb
  exact ⟨l ++ '\n' :: a, l' ++ '\n' :: a', p, by simp, by simp, by simp, hlast ha, hlast ha'⟩

/-- A place in a later line is reached from the line's end. -/
theorem Reaches.exists_line {l v : Text} (h : Reaches none depth (l ++ '\n' :: v) u d) :
    ∃ d₁, Reaches none depth l [] d₁ ∧ Reaches none d₁ v u d := by
  obtain ⟨d₁, hl⟩ := exists_reaches_end l.length l depth none (Nat.le_refl _)
  have hline : Reaches none depth l ([] ++ '\n' :: (v ++ u)) d₁ := hl.extend (atLineEnd_newline _)
  obtain ⟨m, hm, -, hreach⟩ := hline.split h (by simp) (by simp)
  obtain rfl : '\n' :: v = m := List.append_cancel_left hm
  have hbehind := hreach.of_code (at_plain _ (by decide) _)
  rw [depthAfter_self (by decide) (by decide)] at hbehind
  exact ⟨d₁, hl, hbehind.congr (b := none) fun _ => by decide⟩

/-- **A place of a text is a place of its code.** -/
theorem exists_strips {a : Char} {q : Text} (hplain : isPlain a = true) (ha : isBlank a = false)
    (n : Nat) : ∀ (s : Text) (depth d : Nat), s.length ≤ n → Reaches none depth s (a :: q) d →
    ∃ s' u', Strips depth s (a :: q) d s' u' := by
  induction n with
  | zero =>
    intro s depth d hs h
    obtain rfl := List.eq_nil_of_length_eq_zero (Nat.le_zero.1 hs)
    exact ⟨[], exists_strips_line hplain ha List.not_mem_nil h⟩
  | succ n ih =>
    intro s depth d hs h
    by_cases hline : '\n' ∈ s
    · obtain ⟨l, v, rfl, hl⟩ : ∃ l v, s = l ++ '\n' :: v ∧ '\n' ∉ l := List.eq_append_cons_of_mem hline
      obtain ⟨d₁, hend, hv⟩ := h.exists_line
      have hcode := hend.lineCode hl
      rw [List.length_append, List.length_cons] at hs
      obtain ⟨v', u', hstrips⟩ := ih v d₁ d (by omega) hv
      have hcons := stripComments_cons hl (v ++ a :: q)
      rw [show l ++ '\n' :: (v ++ a :: q) = l ++ '\n' :: v ++ a :: q by simp] at hcons
      by_cases hnil : Text.lineCode l = []
      · rw [if_pos hnil] at hcons
        rw [hnil] at hcode
        cases hcode
        refine ⟨v', u', hcons.trans hstrips.split, hstrips.reaches, hstrips.before.line l, ?_,
          hstrips.behind⟩
        intro htick
        rw [stripComments_cons hl, if_pos hnil]
        exact hstrips.tick htick
      · have hne : stripComments (v ++ a :: q) ≠ [] := by
          obtain ⟨x, y, y', -, rfl, hx, -⟩ := hstrips.behind
          rw [hstrips.split]
          simp [hx]
        rw [if_neg hnil, if_neg hne, hstrips.split] at hcons
        refine ⟨Text.lineCode l ++ '\n' :: v', u', by simpa using hcons, ?_, hstrips.before.code l _, ?_,
          hstrips.behind⟩
        · have hend' : Reaches none depth (Text.lineCode l) (('\n' :: v') ++ u') d₁ :=
            hcode.extend (u := []) (atLineEnd_newline (v' ++ u'))
          refine hend'.append (.code (at_plain _ (by decide) _) ?_)
          rw [depthAfter_self (by decide) (by decide)]
          exact hstrips.reaches.congr (b := some '\n') fun _ => by decide
        · intro htick
          have hv' : v' ≠ [] := by
            rintro rfl
            simp at htick
          rw [List.getLast?_append_of_ne_nil _ (by simp), List.getLast?_cons_of_ne_nil hv'] at htick
          have heq := hstrips.tick htick
          rw [stripComments_cons hl, if_neg hnil, if_neg (heq ▸ hv'), ← heq]
    · exact ⟨s, exists_strips_line hplain ha hline h⟩

theorem SameLine.dangles {s' : Text} (h : SameLine s s') (hs' : Dangles s') : Dangles s := by
  obtain ⟨a, a', p, rfl, rfl, hnil, ha, ha'⟩ := h
  obtain ⟨r, x, heq, hx⟩ := hs'
  have hends : ∀ {y b : Text}, (y ++ b).getLast? = some '\'' → y.getLast?.all (· == '\n') = true →
      ∃ b', b = b' ++ ['\''] := by
    intro y b hlast hy
    rcases List.eq_nil_or_concat b with rfl | ⟨b, e, rfl⟩
    · rw [List.append_nil] at hlast
      rw [hlast] at hy
      cases hy
    · rw [List.concat_eq_append, ← List.append_assoc, List.getLast?_concat] at hlast
      obtain rfl := Option.some.inj hlast
      exact ⟨b, List.concat_eq_append⟩
  obtain ⟨p, rfl⟩ := hends (y := a') (by rw [heq]; simp) ha'
  have hinit : a' ++ p = r ++ [x] := by
    have : (a' ++ p) ++ ['\''] = (r ++ [x]) ++ ['\''] := by simpa using heq
    exact List.append_cancel_right this
  rcases List.eq_nil_or_concat p with rfl | ⟨p, e, rfl⟩
  · -- the tick stands at the start of its line
    rw [List.append_nil] at hinit
    have hne : a ≠ [] := fun h => by simp [hnil h] at hinit
    obtain ⟨a, e, rfl⟩ := (List.eq_nil_or_concat a).resolve_left hne
    obtain rfl : e = '\n' := by simpa using ha
    exact ⟨a, '\n', by simp, .inl (by decide)⟩
  · rw [List.concat_eq_append, ← List.append_assoc] at hinit
    obtain ⟨rfl, hxe⟩ := List.append_inj' hinit rfl
    obtain rfl : e = x := by simpa using hxe
    refine ⟨a ++ p, e, by simp, hx.imp_right fun ⟨hident, hlast⟩ => ⟨hident, fun htick => hlast ?_⟩⟩
    obtain ⟨p, rfl⟩ := hends htick ha
    simp

/-- A word ends where the code ends with one only if the text does. -/
theorem SameLine.ident {s' : Text} (h : SameLine s s')
    (hident : (lastOr none s').any isIdentChar = true) : (lastOr none s).any isIdentChar = true := by
  obtain ⟨a, a', p, rfl, rfl, -, -, ha'⟩ := h
  by_cases hp : p = []
  · subst hp
    rw [List.append_nil, lastOr, Option.or_none] at hident
    obtain ⟨c, hc, hident⟩ := (Option.any_eq_true _ _).1 hident
    rw [hc] at ha'
    obtain rfl : c = '\n' := by simpa using ha'
    cases hident
  · rw [lastOr_append, lastOr_of_ne_nil hp] at hident ⊢
    exact hident

theorem standsAt_strips {pattern u' : Text} (hp : IsBarred pattern)
    (h : standsAt pattern before u = true) (hcode : SameCode u u') :
    standsAt pattern before u' = true := by
  obtain ⟨x, y, y', rfl, rfl, hx, hy', hy⟩ := hcode
  have hhead : y.head? ≠ some '>' ∧ y.head?.any isIdentChar = false := by
    cases y with
    | nil => exact ⟨by simp, rfl⟩
    | cons c y =>
      rw [List.head?_cons, Option.all_some, Bool.or_eq_true, beq_iff_eq] at hy
      rcases hy with hc | rfl
      · refine ⟨?_, by simpa using isIdentChar_eq_false_of_isBlank hc⟩
        rintro ⟨⟩
        cases hc
      · exact ⟨by simp, rfl⟩
  exact hp.standsAt_extend (hp.standsAt_cut h hx (fun _ => hhead.1) fun _ => hhead.2) hy'.ident

end Lines

end Text

/-- **Where a barred word stands in an expression**, the text before it dangles and is no
expression; no arrow stands there. -/
theorem Expr.read_before_hit {room : Nat} {t s u pattern : Text} {e : Expr}
    (h : Expr.read room t = some e) (hp : IsBarred pattern) (hhit : Hit pattern none t s u) :
    pattern ≠ "=>".toList ∧ Dangles s ∧ ∀ room', Expr.read room' s = none := by
  have shaped : ∀ {room' : Nat} {s : Text} {e' : Expr}, Expr.read room' s = some e' →
      Expr.Shaped (withoutComments s) := fun h => Expr.shaped_of_readCode h
  have ht := shaped h
  rw [withoutComments] at ht
  split at ht
  · obtain ⟨hsplit, hreach, hstands⟩ := hhit
    obtain ⟨a, b, v, rfl, hplain, -⟩ := hp.isPlainStart hstands
    obtain ⟨s', u', hstrips⟩ := exists_strips hplain (by simpa using hp.head_not_blank hstands) s.length s
      0 0 (Nat.le_refl _) hreach
    rw [hsplit] at ht
    have hhit' : Hit pattern none (stripComments (s ++ a :: b :: v)) s' u' :=
      ⟨hstrips.split, hstrips.reaches, hp.standsAt_congr hstrips.before.ident
        (standsAt_strips hp hstands hstrips.behind)⟩
    obtain ⟨harrow, hdangles⟩ := ht.hit hp hhit'
    have hline := hstrips.before.dangles hdangles
    refine ⟨harrow, hline, fun room' => Option.eq_none_iff_forall_ne_some.2 fun e' hread => ?_⟩
    have hs := shaped hread
    rw [withoutComments] at hs
    split at hs
    · rw [← hstrips.tick (by obtain ⟨r, x, rfl, -⟩ := hdangles; simp)] at hs
      exact hs.not_dangles hdangles
    · exact hs.not_dangles hline
  · next hnone =>
    obtain ⟨harrow, hdangles⟩ := ht.hit hp hhit
    refine ⟨harrow, hdangles, fun room' => Option.eq_none_iff_forall_ne_some.2 fun e' hread => ?_⟩
    have hs := shaped hread
    have hfree : commentStart? s = none := by
      have hfree : CommentFree none t := Option.not_isSome_iff_eq_none.1 hnone
      rw [hhit.split] at hfree
      exact hfree.of_append_left
    rw [withoutComments, hfree] at hs
    exact hs.not_dangles hdangles

/-- Blanks around an expression make no difference. -/
theorem Expr.read_trim (room : Nat) (t : Text) : Expr.read room (trim t) = Expr.read room t := by
  obtain ⟨g, g', hg, hg', ht⟩ := exists_pad_trim t
  have htrim := trim_withoutComments_pad hg hg' (trim t)
  rw [← List.append_assoc, ← ht] at htrim
  cases room with
  | zero => rfl
  | succ room => simp only [read, readCode, htrim]

end CanonicalVhdl
