import CanonicalVhdl.Proofs.Comment.Masked
import Mathlib.Data.List.Infix

/-!
# Splitting and joining

A text that is split at a separator is joined again by the separator.  Pieces that are joined are
found again if each of them, read on its own, is closed: its parentheses match, its strings end,
and nothing at its end would be read together with what follows.

## Main definitions

* `Text.PieceFrom separator depth points` — code points that leave all parentheses, and show no
  separator outside of them.
* `Text.IsPiece separator t` — a text can be a piece between separators.
* `Text.PassesOver separator b F` — a scan passes over the lexemes that a piece may hold.

## Main statements

* `Text.join_splitOuter` — the pieces of a text, joined, are the text.
* `Text.PassesOver.piece` — a scan passes over a piece.
* `Text.cuts_append` — a piece in front of a separator or an end holds no cut.
* `Text.splitOuter_join` — the pieces of joined pieces are those pieces.
-/

namespace CanonicalVhdl.Text

open Token

/-! ## Joining what was split -/

/-- Whether a text is to be cut at a code point. -/
def isCut (separator : Char) (p : CodePoint) : Bool :=
  p.char == separator && p.depth == 0

/-- Where a text is to be cut, given its code points. -/
def cuts (separator : Char) (points : List CodePoint) : List Nat :=
  (points.filter (isCut separator)).map (·.position)

theorem splitOuter_eq_cuts (separator : Char) (t : Text) :
    splitOuter separator t = piecesBetween 0 t (cuts separator (codePoints t)) := by
  rw [splitOuter, outerPoints, List.filter_filter]
  rfl

section Joining

variable {separator : Char}

theorem join_cons {pieces : List Text} (t : Text) (hne : pieces ≠ []) :
    join [separator] (t :: pieces) = t ++ separator :: join [separator] pieces := by
  obtain ⟨u, pieces, rfl⟩ := List.exists_cons_of_ne_nil hne
  rw [join, List.intercalate_cons_cons, List.append_assoc, List.singleton_append]
  rfl

/-- The pieces between places where a separator stands, joined. -/
theorem join_piecesBetween {cuts : List Nat} :
    ∀ (start : Nat) {t : Text}, (∀ i ∈ cuts, start ≤ i ∧ [separator] <+: t.drop (i - start)) →
      cuts.Pairwise (· < ·) → join [separator] (piecesBetween start t cuts) = t := by
  induction cuts with
  | nil =>
    intro start t _ _
    exact List.intercalate_singleton
  | cons i cuts ih =>
    intro start t hcuts hsorted
    obtain ⟨hle, u, hu⟩ := hcuts i List.mem_cons_self
    obtain ⟨hlt, hsorted⟩ := List.pairwise_cons.1 hsorted
    have hdrop : t.drop (i + 1 - start) = u := by
      rw [Nat.sub_add_comm hle, ← List.drop_drop, ← hu]
      rfl
    have hrest : join [separator] (piecesBetween (i + 1) u cuts) = u := by
      apply ih _ _ hsorted
      intro j hj
      have hij := hlt j hj
      refine ⟨hij, ?_⟩
      obtain ⟨-, hprefix⟩ := hcuts j (List.mem_cons_of_mem i hj)
      rwa [← hdrop, List.drop_drop, show i + 1 - start + (j - (i + 1)) = j - start by omega]
    have hne : piecesBetween (i + 1) u cuts ≠ [] := by
      cases cuts <;> exact List.cons_ne_nil _ _
    rw [piecesBetween, hdrop, join_cons _ hne, hrest]
    conv_rhs => rw [← List.take_append_drop (i - start) t, ← hu]
    rfl

/-- **The pieces of a text, joined, are the text.** -/
theorem join_splitOuter (separator : Char) (t : Text) :
    join [separator] (splitOuter separator t) = t := by
  rw [splitOuter_eq_cuts]
  apply join_piecesBetween
  · intro i hi
    refine ⟨Nat.zero_le i, ?_⟩
    obtain ⟨p, hp, rfl⟩ := List.mem_map.1 hi
    obtain ⟨hp, hcut⟩ := List.mem_filter.1 hp
    obtain ⟨s, hs, hposition, -⟩ := mem_codePoints hp
    rw [isCut, Bool.and_eq_true, beq_iff_eq] at hcut
    rw [Nat.sub_zero, hposition, hs, List.drop_left, CodePoint.rest, hcut.1]
    exact ⟨p.after, rfl⟩
  · exact List.Pairwise.map _ (fun _ _ h => h) ((codePointsFrom_pairwise 0 0 0 none t).filter _)

end Joining

/-! ## Pieces -/

/-- Whether a text behind a quotation mark closes the string that the mark opens. -/
def closesString : Text → Bool
  | '"' :: '"' :: rest => closesString rest
  | '"' :: _ => true
  | '\n' :: _ => false
  | _ :: rest => closesString rest
  | [] => false

/-- How often a character is among some code points. -/
def countChar (c : Char) (points : List CodePoint) : Nat :=
  points.countP (·.char == c)

/-- What it takes for code points, the first of which stand inside `depth` parentheses, to be those
of the rest of a piece. -/
structure PieceFrom (separator : Char) (depth : Nat) (points : List CodePoint) : Prop where
  /-- Every string is closed. -/
  strings : ∀ p ∈ points, p.char = '"' → closesString p.after = true
  /-- No tick is the last character, unless it ends a literal. -/
  ticks : ∀ p ∈ points, p.char = '\'' → p.after ≠ []
  /-- No separator stands outside parentheses. -/
  apart : ∀ p ∈ points, p.depth = 0 → p.char ≠ separator
  /-- No more parentheses are closed than opened. -/
  nested : ∀ front, front <+: points → countChar ')' front ≤ depth + countChar '(' front
  /-- All parentheses are closed in the end. -/
  closed : countChar ')' points = depth + countChar '(' points

/-- Whether a text, read on its own, can be a piece between separators. -/
structure IsPiece (separator : Char) (t : Text) : Prop where
  /-- It holds no comment. -/
  noComment : commentStart? t = none
  /-- It is closed and shows no separator. -/
  points : PieceFrom separator 0 (codePoints t)

instance {separator : Char} {depth : Nat} {points : List CodePoint} :
    Decidable (PieceFrom separator depth points) :=
  decidable_of_iff
    ((∀ p ∈ points, p.char = '"' → closesString p.after = true) ∧
      (∀ p ∈ points, p.char = '\'' → p.after ≠ []) ∧
      (∀ p ∈ points, p.depth = 0 → p.char ≠ separator) ∧
      (∀ front ∈ points.inits, countChar ')' front ≤ depth + countChar '(' front) ∧
      countChar ')' points = depth + countChar '(' points)
    ⟨fun ⟨hstrings, hticks, hapart, hnested, hclosed⟩ =>
      ⟨hstrings, hticks, hapart, fun front h => hnested front ((List.mem_inits _ _).2 h), hclosed⟩,
    fun h => ⟨h.strings, h.ticks, h.apart, fun front hmem => h.nested front ((List.mem_inits _ _).1 hmem),
      h.closed⟩⟩

instance {separator : Char} {t : Text} : Decidable (IsPiece separator t) :=
  decidable_of_iff (commentStart? t = none ∧ PieceFrom separator 0 (codePoints t))
    ⟨fun h => ⟨h.1, h.2⟩, fun h => ⟨h.noComment, h.points⟩⟩

/-- What ends a piece: the separator, or the end of the text. -/
def EndsPiece (separator : Char) (v : Text) : Prop :=
  ∀ d ∈ v.head?, d = separator

section Pieces

variable {separator : Char}

theorem countChar_cons (c : Char) (p : CodePoint) (points : List CodePoint) :
    countChar c (p :: points) = countChar c points + if p.char = c then 1 else 0 := by
  simp [countChar, List.countP_cons]

/-- The code points behind one of a piece. -/
theorem PieceFrom.tail {depth : Nat} {p : CodePoint} {points : List CodePoint}
    (h : PieceFrom separator depth (p :: points)) :
    PieceFrom separator
      (if p.char == '(' then depth + 1 else if p.char == ')' then depth - 1 else depth) points where
  strings q hq := h.strings q (List.mem_cons_of_mem p hq)
  ticks q hq := h.ticks q (List.mem_cons_of_mem p hq)
  apart q hq := h.apart q (List.mem_cons_of_mem p hq)
  nested front hfront := by
    have hfirst := h.nested [p] (List.cons_prefix_cons.2 ⟨rfl, List.nil_prefix⟩)
    have hnested := h.nested (p :: front) (List.cons_prefix_cons.2 ⟨rfl, hfront⟩)
    rw [countChar_cons, countChar_cons] at hfirst hnested
    by_cases hopen : p.char = '('
    · simp [hopen] at hnested ⊢
      omega
    · by_cases hclose : p.char = ')'
      · simp [hclose, countChar] at hfirst hnested ⊢
        omega
      · simpa [hopen, hclose] using hnested
  closed := by
    have hfirst := h.nested [p] (List.cons_prefix_cons.2 ⟨rfl, List.nil_prefix⟩)
    have hclosed := h.closed
    rw [countChar_cons, countChar_cons] at hfirst hclosed
    by_cases hopen : p.char = '('
    · simp [hopen] at hclosed ⊢
      omega
    · by_cases hclose : p.char = ')'
      · simp [hclose, countChar] at hfirst hclosed ⊢
        omega
      · simpa [hopen, hclose] using hclosed

/-! ## Lexemes at the end of a piece -/

variable {before : Option Char} {c : Char} {t v : Text}

/-- A character of code stays one in front of a separator. -/
theorem at_code_append (hat : Lexeme.at before (c :: t) = .code) (htick : c = '\'' → t ≠ [])
    (hv : ∀ d ∈ v.head?, isPlain d = true) : Lexeme.at before (c :: (t ++ v)) = .code := by
  rw [Lexeme.at_cons] at hat ⊢
  split_ifs at hat with hhyphens hquote hticks
  have hhead : ∀ d, isPlain d = false → v.head? ≠ some d := by
    intro d hd hsome
    rw [hv d hsome] at hd
    cases hd
  rw [if_neg, if_neg hquote, if_neg]
  · rintro ⟨rfl, hnext, hlast, hbefore⟩
    obtain ⟨d, t, rfl⟩ := List.exists_cons_of_ne_nil (htick rfl)
    cases t with
    | nil => exact hhead '\'' (by decide) hlast
    | cons e t => exact hticks ⟨rfl, hnext, hlast, hbefore⟩
  · rintro ⟨rfl, hnext⟩
    cases t with
    | nil => exact hhead '-' (by decide) hnext
    | cons d t => exact hhyphens ⟨rfl, hnext⟩

/-- A closed string that takes up a text ends there, whatever follows but a quotation mark. -/
theorem quotedLength_append (hv : v.head? ≠ some '"') (x : Text) :
    ∀ n, closesString x = true → Lexeme.quotedLength n x = n + x.length →
      Lexeme.quotedLength n (x ++ v) = n + x.length := by
  fun_induction closesString x with
  | case1 rest ih =>
    intro n hclosed hlength
    rw [Lexeme.quotedLength, List.length_cons, List.length_cons] at hlength
    rw [List.cons_append, List.cons_append, Lexeme.quotedLength, ih (n + 2) hclosed (by omega),
      List.length_cons, List.length_cons]
    omega
  | case2 rest hrest =>
    intro n _ hlength
    have hstep : Lexeme.quotedLength n ('"' :: rest) = n + 1 := by
      rw [Lexeme.quotedLength]
      exact hrest
    rw [hstep, List.length_cons] at hlength
    obtain rfl := List.eq_nil_of_length_eq_zero (show rest.length = 0 by omega)
    rw [List.singleton_append, Lexeme.quotedLength]
    · rfl
    · rintro u rfl
      exact hv rfl
  | case3 rest => exact fun _ hclosed => absurd hclosed Bool.false_ne_true
  | case4 d rest h1 h2 h3 ih =>
    intro n hclosed hlength
    have hstep : ∀ u, Lexeme.quotedLength n (d :: u) = Lexeme.quotedLength (n + 1) u := by
      intro u
      rw [Lexeme.quotedLength]
      · exact fun _ hd => absurd hd h2
      · exact h2
      · exact h3
    rw [hstep, List.length_cons] at hlength
    rw [List.cons_append, hstep, ih (n + 1) hclosed (by omega), List.length_cons]
    omega
  | case5 => exact fun _ hclosed => absurd hclosed Bool.false_ne_true

/-- A literal stays one in front of a separator. -/
theorem at_literal_append {x r : Text} (hat : Lexeme.at before (c :: (x ++ r)) = .literal (x.length + 1))
    (hstring : c = '"' → closesString (x ++ r) = true) (hv : ∀ d ∈ v.head?, isPlain d = true) :
    Lexeme.at before (c :: (x ++ (r ++ v))) = .literal (x.length + 1) := by
  cases r with
  | cons d r => exact literal_stable hat (r ++ v)
  | nil =>
    rw [List.append_nil] at hat hstring
    rw [List.nil_append]
    rw [Lexeme.at_cons] at hat ⊢
    split_ifs at hat with hhyphens hquote htick
    · have hlength := Lexeme.literal.inj hat
      have hhead : v.head? ≠ some '"' := fun hd => absurd (hv '"' hd) (by decide)
      rw [if_neg (by simp [hquote]), if_pos hquote,
        quotedLength_append hhead x 1 (hstring hquote) (by omega), Nat.add_comm]
    · obtain ⟨e, f, rfl⟩ := List.length_eq_two.1 (Nat.succ.inj (Lexeme.literal.inj hat)).symm
      rw [if_neg (by simp [htick.1]), if_neg hquote, if_pos (by simpa using htick)]
      rfl

/-! ## Splitting what was joined -/

theorem isCut_eq_false {p : CodePoint} (h : p.depth = 0 → p.char ≠ separator) :
    isCut separator p = false := by
  by_contra hcut
  rw [Bool.not_eq_false, isCut, Bool.and_eq_true, beq_iff_eq, beq_iff_eq] at hcut
  exact h hcut.2 hcut.1

theorem cuts_cons {p : CodePoint} {points : List CodePoint} (hp : isCut separator p = false) :
    cuts separator (p :: points) = cuts separator points := by
  rw [cuts, List.filter_cons_of_neg (by simp [hp])]
  rfl

/-- Whether a scan that starts with the character `b` behind it passes over the lexemes that a piece
may hold.  `F depth s u` is what it makes of `u` behind `s`, inside so many parentheses. -/
structure PassesOver {β : Type} (separator : Char) (b : Option Char) (F : Nat → Text → Text → β) :
    Prop where
  /-- A parenthesis that closes was opened, and a separator stands inside parentheses. -/
  code : ∀ {depth s c u}, Lexeme.at (lastOr b s) (c :: u) = .code → (c = ')' → 0 < depth) →
    ((if c == ')' then depth - 1 else depth) = 0 → c ≠ separator) →
    F depth s (c :: u)
      = F (if c == '(' then depth + 1 else if c == ')' then depth - 1 else depth) (s ++ [c]) u
  /-- Literals are passed over. -/
  literal : ∀ {depth s c x u}, Lexeme.at (lastOr b s) (c :: (x ++ u)) = .literal (x.length + 1) →
    (depth = 0 → c ≠ separator) → F depth s (c :: (x ++ u)) = F depth (s ++ c :: x) u

theorem PassesOver.pieceFrom {β : Type} {F : Nat → Text → Text → β} {b : Option Char}
    (hF : PassesOver separator b F) (hv : ∀ d ∈ v.head?, isPlain d = true) (n : Nat) :
    ∀ (t s : Text) (before : Option Char) (position depth : Nat), t.length ≤ n →
      Lexeme.bindsTick before = Lexeme.bindsTick (lastOr b s) → CommentFree before t →
      PieceFrom separator depth (codePointsFrom [] 0 position depth before t) →
      F depth s (t ++ v) = F 0 (s ++ t) v := by
  have hnil : ∀ (s : Text) (before : Option Char) (position depth : Nat),
      PieceFrom separator depth (codePointsFrom [] 0 position depth before []) →
      F depth s ([] ++ v) = F 0 (s ++ []) v := by
    intro s before position depth hpiece
    obtain rfl : 0 = depth := hpiece.closed
    rw [List.append_nil, List.nil_append]
  induction n with
  | zero =>
    intro t s before position depth ht _ _ hpiece
    obtain rfl := List.eq_nil_of_length_eq_zero (Nat.le_zero.1 ht)
    exact hnil s before position depth hpiece
  | succ n ih =>
    intro t s before position depth ht hb hfree hpiece
    cases t with
    | nil => exact hnil s before position depth hpiece
    | cons c t =>
      rw [List.length_cons] at ht
      rcases at_split before c t with hat | ⟨x, r, rfl, hat | hat⟩
      · -- a character of code
        rw [codePointsFrom_code _ _ hat] at hpiece
        have hat' : Lexeme.at (lastOr b s) (c :: (t ++ v)) = .code := by
          rw [at_congr fun _ => hb]
          exact at_code_append hat (hpiece.ticks _ List.mem_cons_self) hv
        have hopened : c = ')' → 0 < depth := by
          rintro rfl
          have hfirst := hpiece.nested [_] (List.cons_prefix_cons.2 ⟨rfl, List.nil_prefix⟩)
          have hle : 1 ≤ depth := by simpa [countChar] using hfirst
          exact hle
        rw [List.cons_append, hF.code hat' hopened (hpiece.apart _ List.mem_cons_self),
          ih t (s ++ [c]) (some c) (position + 1) _ (by omega) (by rw [lastOr_append]; rfl)
            ((commentFree_cons_code hat).1 hfree) hpiece.tail, List.append_assoc, List.singleton_append]
      · -- no comment
        obtain ⟨y, r', heq, -⟩ := exists_comment hat
        rw [heq] at hfree
        exact absurd hfree (not_commentFree_hyphens _ _)
      · -- a literal
        rw [List.length_append] at ht
        rw [codePointsFrom_literal _ _ hat] at hpiece
        have hat' : Lexeme.at (lastOr b s) (c :: (x ++ (r ++ v))) = .literal (x.length + 1) := by
          rw [at_congr fun _ => hb]
          exact at_literal_append hat (hpiece.strings _ List.mem_cons_self) hv
        have hdepth : (if c == '(' then depth + 1 else if c == ')' then depth - 1 else depth) = depth := by
          rcases eq_of_at_literal hat with rfl | rfl <;> rfl
        have htail := hpiece.tail
        rw [hdepth] at htail
        rw [List.cons_append, List.append_assoc, hF.literal hat' (hpiece.apart _ List.mem_cons_self),
          ih r (s ++ c :: x) (lastOr (some c) x) _ _ (by omega) (by rw [lastOr_append, lastOr_cons])
            ((commentFree_cons_literal hat).1 hfree) htail, List.append_assoc, List.cons_append]

/-- **A scan passes over a piece**, wherever it stands, if it passes over the lexemes that a piece
may hold. -/
theorem PassesOver.piece {β : Type} {F : Nat → Text → Text → β} {b : Option Char}
    (hF : PassesOver separator b F) (hb : Lexeme.bindsTick none = Lexeme.bindsTick b)
    (hv : ∀ d ∈ v.head?, isPlain d = true) (ht : IsPiece separator t) : F 0 [] (t ++ v) = F 0 t v :=
  hF.pieceFrom hv t.length t [] none 0 0 (Nat.le_refl _) hb ht.noComment ht.points

theorem passesOver_cuts (place : Nat) (b : Option Char) :
    PassesOver separator b fun depth s u =>
      cuts separator (codePointsFrom [] 0 (place + s.length) depth (lastOr b s) u) where
  code hat _ hapart := by
    rw [codePointsFrom_code _ _ hat, cuts_cons (isCut_eq_false hapart), lastOr_append, List.length_append,
      Nat.add_assoc]
    rfl
  literal hat hapart := by
    rw [codePointsFrom_literal _ _ hat, cuts_cons (isCut_eq_false hapart), lastOr_append,
      List.length_append, List.length_cons, lastOr_cons]
    congr 2
    omega

/-- **A piece in front of what ends it holds no cut**, wherever it stands. -/
theorem cuts_append (hseparator : isPlain separator = true) (hv : EndsPiece separator v)
    (ht : IsPiece separator t) {b : Option Char} (hb : Lexeme.bindsTick none = Lexeme.bindsTick b)
    (place : Nat) :
    cuts separator (codePointsFrom [] 0 place 0 b (t ++ v))
      = cuts separator (codePointsFrom [] 0 (place + t.length) 0 (lastOr b t) v) := by
  have hplain : ∀ d ∈ v.head?, isPlain d = true := by
    intro d hd
    rwa [hv d hd]
  exact (passesOver_cuts place b).piece hb hplain ht

/-- A separator between pieces is a cut. -/
theorem cuts_separator (hseparator : isPlain separator = true) (hparens : separator ∉ ['(', ')'])
    (place : Nat) (b : Option Char) (v : Text) :
    cuts separator (codePointsFrom [] 0 place 0 b (separator :: v))
      = place :: cuts separator (codePointsFrom [] 0 (place + 1) 0 (some separator) v) := by
  simp only [List.mem_cons, List.not_mem_nil, or_false, not_or] at hparens
  rw [codePointsFrom_code _ _ (at_plain b hseparator v), beq_false_of_ne hparens.1,
    beq_false_of_ne hparens.2]
  simp [cuts, isCut]

/-- The pieces of joined pieces, wherever they stand. -/
theorem piecesBetween_join (hseparator : isPlain separator = true) (hparens : separator ∉ ['(', ')'])
    (hname : isIdentChar separator = false) {pieces : List Text} (hne : pieces ≠ [])
    (hpieces : ∀ t ∈ pieces, IsPiece separator t) :
    ∀ (place : Nat) (b : Option Char), Lexeme.bindsTick none = Lexeme.bindsTick b →
      piecesBetween place (join [separator] pieces)
        (cuts separator (codePointsFrom [] 0 place 0 b (join [separator] pieces))) = pieces := by
  induction pieces with
  | nil => exact absurd rfl hne
  | cons t pieces ih =>
    intro place b hb
    obtain ⟨ht, hrest⟩ := List.forall_mem_cons.1 hpieces
    cases pieces with
    | nil =>
      have hend : EndsPiece separator [] := fun d hd => absurd hd (Option.not_mem_none d)
      have hcuts := cuts_append hseparator hend ht hb place
      rw [List.append_nil] at hcuts
      rw [join, List.intercalate_singleton, hcuts]
      rfl
    | cons u pieces =>
      have hne' := List.cons_ne_nil u pieces
      have hend : EndsPiece separator (separator :: join [separator] (u :: pieces)) :=
        fun d hd => (Option.some.inj hd).symm
      have hbinds : Lexeme.bindsTick none = Lexeme.bindsTick (some separator) := by
        simp only [List.mem_cons, List.not_mem_nil, or_false, not_or] at hparens
        simp [Lexeme.bindsTick, hname, hparens.2]
      rw [join_cons t hne', cuts_append hseparator hend ht hb, cuts_separator hseparator hparens,
        piecesBetween_cut, ih hne' hrest _ _ hbinds]

end Pieces

/-- **Splitting and joining are inverse to each other.**  The pieces of a text, joined, are the text.
Pieces of which each is closed and shows no separator, joined by one of the separators of lists,
are the pieces of the joined text. -/
theorem splitOuter_join :
    (∀ (separator : Char) (t : Text), join [separator] (splitOuter separator t) = t) ∧
      ∀ separator ∈ [',', ';', '|'], ∀ pieces : List Text, pieces ≠ [] →
        (∀ t ∈ pieces, IsPiece separator t) →
        splitOuter separator (join [separator] pieces) = pieces := by
  constructor
  · exact join_splitOuter
  · intro separator hseparator pieces hne hpieces
    have hkind : ∀ c ∈ [',', ';', '|'], isPlain c = true ∧ c ∉ ['(', ')'] ∧ isIdentChar c = false := by
      decide
    obtain ⟨hplain, hparens, hname⟩ := hkind separator hseparator
    rw [splitOuter_eq_cuts]
    exact piecesBetween_join hplain hparens hname hne hpieces 0 none rfl

/-- The pieces hold separators inside parentheses, a string and a character literal, and one is
empty. -/
theorem splitOuter_join_entries :
    ',' ∈ [',', ';', '|'] ∧
      ["f(é, ')')".toList, [], " x'('1', ',')".toList, "\"a,\"\"\"".toList, "','".toList] ≠ [] ∧
      (∀ t ∈ ["f(é, ')')".toList, [], " x'('1', ',')".toList, "\"a,\"\"\"".toList, "','".toList],
        IsPiece ',' t) ∧
      splitOuter ',' "f(é, ')'),, x'('1', ','),\"a,\"\"\",','".toList
        = ["f(é, ')')".toList, [], " x'('1', ',')".toList, "\"a,\"\"\"".toList, "','".toList] := by
  have hpieces : ∀ t ∈ ["f(é, ')')".toList, [], " x'('1', ',')".toList, "\"a,\"\"\"".toList,
      "','".toList], IsPiece ',' t := by decide +kernel
  exact ⟨by decide, by decide, hpieces,
    splitOuter_join.2 ',' (by decide) _ (by decide) hpieces⟩

end CanonicalVhdl.Text
