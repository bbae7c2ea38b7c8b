import CanonicalVhdl.Proofs.Token.Extent

/-!
# Scans and what follows a line end

Comments, quoted literals and words all stop at a line feed.  What a scan does
before a line end therefore depends on the text after it in two places only: in
the words that look ahead, and in the literal that a tick may open.

## Main definitions

* `Text.AtLineEnd u` — nothing follows, or a line feed.
* `Text.ReadAlike v v'` — two continuations that the same tokens start.

## Main statements

* `Text.at_append` — the lexeme at the head of a text.
* `Text.extentFrom_rel` — the extent of a text with one of two continuations.
-/

namespace CanonicalVhdl

open Text Token

namespace Text

/-- The text is empty or starts with a line feed. -/
def AtLineEnd (u : Text) : Prop :=
  ∀ c ∈ u.head?, c = '\n'

theorem atLineEnd_nil : AtLineEnd [] := by simp [AtLineEnd]

theorem atLineEnd_newline (u : Text) : AtLineEnd ('\n' :: u) := by simp [AtLineEnd]

theorem AtLineEnd.cases {u : Text} (h : AtLineEnd u) : u = [] ∨ ∃ v, u = '\n' :: v := by
  cases u with
  | nil => exact .inl rfl
  | cons c v => exact .inr ⟨v, by rw [h c (by simp)]⟩

theorem AtLineEnd.append {u v : Text} (hu : AtLineEnd u) (hv : AtLineEnd v) :
    AtLineEnd (u ++ v) := by
  obtain rfl | ⟨u, rfl⟩ := hu.cases
  · exact hv
  · exact atLineEnd_newline _

theorem AtLineEnd.ident {u : Text} (h : AtLineEnd u) : u.head?.any isIdentChar = false := by
  obtain rfl | ⟨v, rfl⟩ := h.cases <;> rfl

/-! ## Lexemes -/

theorem lineLength_append {u : Text} (hu : AtLineEnd u) (n : Nat) (t : Text) :
    Lexeme.lineLength n (t ++ u) = Lexeme.lineLength n t := by
  induction t generalizing n with
  | nil => obtain rfl | ⟨v, rfl⟩ := hu.cases <;> rfl
  | cons c t ih => simp only [List.cons_append, Lexeme.lineLength, ih]

theorem quotedLength_append_line {u : Text} (hu : AtLineEnd u) (n : Nat) (t : Text) :
    Lexeme.quotedLength n (t ++ u) = Lexeme.quotedLength n t := by
  fun_induction Lexeme.quotedLength n t with
  | case1 n rest ih => simpa [Lexeme.quotedLength] using ih
  | case2 n rest hrest =>
    cases rest with
    | nil => obtain rfl | ⟨v, rfl⟩ := hu.cases <;> rfl
    | cons c rest =>
      have hc : c ≠ '"' := fun hc => hrest rest (by rw [hc])
      simp only [List.cons_append]
      rw [Lexeme.quotedLength]
      rintro r ⟨⟩
      exact hc rfl
  | case3 n rest => simp [Lexeme.quotedLength]
  | case4 n c rest h1 h2 h3 ih =>
    have hq : c ≠ '"' := h2
    have hn : c ≠ '\n' := h3
    rw [List.cons_append, Lexeme.quotedLength]
    · exact ih
    · intro r hc
      exact absurd hc hq
    · exact hq
    · exact hn
  | case5 n => obtain rfl | ⟨v, rfl⟩ := hu.cases <;> rfl

/-- The lexeme at the head of a text does not reach over a line end. -/
theorem at_append {u : Text} (hu : AtLineEnd u) (before : Option Char) (c : Char) (t : Text) :
    Lexeme.at before (c :: (t ++ u)) = Lexeme.at before (c :: t) := by
  by_cases hd : c = '-'
  · subst hd
    cases t with
    | nil => obtain rfl | ⟨v, rfl⟩ := hu.cases <;> rfl
    | cons d t =>
      by_cases hd : d = '-'
      · subst hd
        simp only [List.cons_append, Lexeme.at, lineLength_append hu]
      · simp [Lexeme.at, hd]
  by_cases hq : c = '"'
  · subst hq
    simp only [Lexeme.at, quotedLength_append_line hu]
  by_cases ht : c = '\''
  · subst ht
    rcases t with _ | ⟨d, _ | ⟨e, t⟩⟩
    · obtain rfl | ⟨v, rfl⟩ := hu.cases
      · rfl
      · cases v with
        | nil => rfl
        | cons d v => by_cases hd : d = '\'' <;> simp [Lexeme.at, hd]
    · obtain rfl | ⟨v, rfl⟩ := hu.cases <;> simp [Lexeme.at]
    · by_cases he : e = '\''
      · subst he
        rfl
      · simp [Lexeme.at, he]
  · simp [Lexeme.at, hd, hq, ht]

theorem lineLength_split (n : Nat) (t : Text) :
    ∃ x r, t = x ++ r ∧ Lexeme.lineLength n t = n + x.length ∧ '\n' ∉ x ∧ AtLineEnd r := by
  induction t generalizing n with
  | nil => exact ⟨[], [], rfl, rfl, by simp, atLineEnd_nil⟩
  | cons c t ih =>
    by_cases hc : c = '\n'
    · subst hc
      exact ⟨[], '\n' :: t, rfl, rfl, by simp, atLineEnd_newline t⟩
    · obtain ⟨x, r, rfl, hlen, hx, hr⟩ := ih (n + 1)
      refine ⟨c :: x, r, rfl, ?_, by simp [Ne.symm hc, hx], hr⟩
      rw [Lexeme.lineLength, if_neg (by simpa using hc), hlen, List.length_cons]
      omega

theorem quotedLength_split (n : Nat) (t : Text) :
    ∃ x r, t = x ++ r ∧ Lexeme.quotedLength n t = n + x.length := by
  fun_induction Lexeme.quotedLength n t with
  | case1 n rest ih =>
    obtain ⟨x, r, rfl, hlen⟩ := ih
    exact ⟨'"' :: '"' :: x, r, rfl, by rw [hlen]; simp only [List.length_cons]; omega⟩
  | case2 n rest hrest => exact ⟨['"'], rest, rfl, rfl⟩
  | case3 n rest => exact ⟨[], '\n' :: rest, rfl, rfl⟩
  | case4 n c rest h1 h2 h3 ih =>
    obtain ⟨x, r, rfl, hlen⟩ := ih
    exact ⟨c :: x, r, rfl, by rw [hlen]; simp only [List.length_cons]; omega⟩
  | case5 n => exact ⟨[], [], rfl, rfl⟩

/-- Two hyphens and the rest of the line are a comment. -/
theorem at_comment {t u : Text} (h : '\n' ∉ t) (hu : AtLineEnd u) (before : Option Char) :
    Lexeme.at before ('-' :: '-' :: (t ++ u)) = .comment (('-' :: t).length + 1) := by
  obtain ⟨x, r, rfl, hlen, -, hr⟩ := lineLength_split 2 t
  have hnil : r = [] := by
    obtain rfl | ⟨v, rfl⟩ := hr.cases
    · rfl
    · exact absurd (List.mem_append_right _ List.mem_cons_self) h
  subst hnil
  rw [Lexeme.at, lineLength_append hu, hlen, List.append_nil, List.length_cons, Nat.add_comm]

/-- A comment or a literal is a part of the text that it is read from. -/
theorem at_split (before : Option Char) (c : Char) (t : Text) :
    Lexeme.at before (c :: t) = .code ∨ ∃ x r, t = x ++ r ∧
      (Lexeme.at before (c :: t) = .comment (x.length + 1)
        ∨ Lexeme.at before (c :: t) = .literal (x.length + 1)) := by
  unfold Lexeme.at
  split
  · rename_i rest heq
    cases heq
    obtain ⟨x, r, rfl, hlen, -, -⟩ := lineLength_split 2 rest
    exact .inr ⟨'-' :: x, r, rfl, .inl (by rw [hlen]; simp only [List.length_cons]; congr 1; omega)⟩
  · rename_i heq
    cases heq
    obtain ⟨x, r, rfl, hlen⟩ := quotedLength_split 1 t
    exact .inr ⟨x, r, rfl, .inr (by rw [hlen]; congr 1; omega)⟩
  · rename_i d rest heq
    cases heq
    split
    · exact .inr ⟨[d, '\''], rest, rfl, .inr rfl⟩
    · exact .inl rfl
  · exact .inl rfl

/-! ## Words -/

/-- The run that an identifier character starts, and the rest. -/
theorem exists_run {c : Char} (hc : isIdentChar c = true) (t : Text) :
    ∃ w r, c :: t = w ++ r ∧ IsRun w
      ∧ (∀ u, AtLineEnd u → (r ++ u).head?.any isIdentChar = false) ∧ r.length ≤ t.length := by
  refine ⟨c :: t.takeWhile isIdentChar, t.dropWhile isIdentChar, ?_, ⟨List.cons_ne_nil _ _, ?_⟩, ?_,
    (List.dropWhile_sublist _).length_le⟩
  · rw [List.cons_append, List.takeWhile_append_dropWhile]
  · rw [List.all_cons, hc, List.all_takeWhile]
    rfl
  · intro u hu
    cases hd : t.dropWhile isIdentChar with
    | nil => exact hu.ident
    | cons d r =>
      have hnot := any_head?_dropWhile isIdentChar t
      rwa [hd] at hnot

theorem takeWhile_ident_append {u : Text} (hu : AtLineEnd u) (t : Text) :
    (t ++ u).takeWhile isIdentChar = t.takeWhile isIdentChar := by
  induction t with
  | nil => obtain rfl | ⟨v, rfl⟩ := hu.cases <;> rfl
  | cons c t ih => by_cases hc : isIdentChar c = true <;> simp [hc, ih]

theorem dropWord?_append {w u : Text} (hw : w.all isIdentChar = true)
    (hu : u.head?.any isIdentChar = false) (t : Text) :
    dropWord? w (t ++ u) = (dropWord? w t).map (· ++ u) := by
  induction w generalizing t with
  | nil => rfl
  | cons a w ih =>
    rw [List.all_cons, Bool.and_eq_true] at hw
    cases t with
    | nil =>
      cases u with
      | nil => rfl
      | cons d u =>
        have hne : a.toLower ≠ d.toLower := by
          intro heq
          have hident := isIdentChar_toLower a
          rw [heq, isIdentChar_toLower, hw.1] at hident
          exact absurd (hident.symm.trans hu) (by decide)
        simp [dropWord?, hne]
    | cons c t =>
      simp only [List.cons_append, dropWord?]
      split
      · exact ih hw.2 t
      · rfl

/-- A word at the head of a text does not reach over what is no part of a word. -/
theorem wholeWord?_append {w u : Text} (hw : w.all isIdentChar = true)
    (hu : u.head?.any isIdentChar = false) (before : Option Char) (t : Text) :
    wholeWord? true w before (t ++ u) = (wholeWord? true w before t).map (· ++ u) := by
  simp only [wholeWord?, dropWordWith, dropWord?_append hw hu, if_true]
  split
  · rfl
  · cases dropWord? w t with
    | none => rfl
    | some r =>
      have hhead : (r ++ u).head?.any isIdentChar = r.head?.any isIdentChar := by
        cases r with
        | nil => simpa using hu
        | cons c r => rfl
      simp only [Option.map_some, Option.bind_some, hhead]
      split <;> rfl

/-! ## Code points -/

/-- A test of code points that does not look beyond a word.  Of the places outside
parentheses it accepts every semicolon and no line end, and no other places. -/
structure IsOuterTest (test : CodePoint → Bool) : Prop where
  /-- What follows something that is part of no word has no part in the test. -/
  append : ∀ (position : Nat) (before : Option Char) (c : Char) (t u : Text) (depth : Nat),
    u.head?.any isIdentChar = false →
      test ⟨position, before, c, t ++ u, depth⟩ = test ⟨position, before, c, t, depth⟩
  /-- Only places outside parentheses pass. -/
  outer : ∀ p, test p = true → p.depth = 0
  /-- A line end does not pass. -/
  newline : ∀ p, p.char = '\n' → test p = false
  /-- A semicolon outside parentheses passes. -/
  semicolon : ∀ p, p.depth = 0 → p.char = ';' → test p = true

variable {test : CodePoint → Bool}

/-- The test with which a signature is searched for its end. -/
theorem isOuterTest_is :
    IsOuterTest fun p => p.depth == 0 && (p.char == ';' || matchesAt "is".toList p) where
  append position before c t u depth hu := by
    have hword : "is".toList.all isIdentChar = true := by decide
    have hmatch : matchesAt "is".toList ⟨position, before, c, t ++ u, depth⟩
        = matchesAt "is".toList ⟨position, before, c, t, depth⟩ := by
      change (wholeWord? true "is".toList before (c :: t ++ u)).isSome
        = (wholeWord? true "is".toList before (c :: t)).isSome
      rw [wholeWord?_append hword hu, Option.isSome_map]
    simp only [hmatch]
  outer p hp := by
    rw [Bool.and_eq_true] at hp
    exact beq_iff_eq.1 hp.1
  newline p hp := by
    have hword : (wholeWord? true "is".toList p.before p.rest).isSome = false := by
      simp [wholeWord?, dropWordWith, dropWord?, CodePoint.rest, hp]
    have hmatch : matchesAt "is".toList p = false := hword
    rw [hmatch, hp]
    simp
  semicolon p hdepth hp := by simp [hdepth, hp]

/-- The first character that passes, with one of two continuations. -/
theorem findPointFrom_congr (htest : IsOuterTest test) {v v' : Text} (hv : AtLineEnd v)
    (hv' : AtLineEnd v')
    (hend : ∀ position depth before,
      (findPointFrom test 0 position depth before v).map (·.char)
        = (findPointFrom test 0 position depth before v').map (·.char))
    (b : Text) (skip position depth : Nat) (before : Option Char) (hskip : skip ≤ b.length) :
    (findPointFrom test skip position depth before (b ++ v)).map (·.char)
      = (findPointFrom test skip position depth before (b ++ v')).map (·.char) := by
  induction b generalizing skip position depth before with
  | nil =>
    rw [Nat.le_zero.1 hskip]
    exact hend position depth before
  | cons c b ih =>
    cases skip with
    | succ skip => exact ih _ _ _ _ (Nat.le_of_succ_le_succ hskip)
    | zero =>
      simp only [List.cons_append, findPointFrom, at_append hv, at_append hv']
      have hlex := at_split before c b
      split
      · rename_i n hn
        obtain h | ⟨x, r, rfl, h | h⟩ := hlex <;> rw [hn] at h <;> cases h
        exact ih _ _ _ _ (by simp)
      · rename_i n hn
        obtain h | ⟨x, r, rfl, h | h⟩ := hlex <;> rw [hn] at h <;> cases h
        rw [htest.append _ _ _ _ v _ hv.ident, htest.append _ _ _ _ v' _ hv'.ident]
        split
        · rfl
        · exact ih _ _ _ _ (by simp)
      · generalize (if (c == ')') = true then depth - 1 else depth) = outer
        rw [htest.append _ _ _ _ v _ hv.ident, htest.append _ _ _ _ v' _ hv'.ident]
        split
        · rfl
        · exact ih _ _ _ _ (Nat.zero_le _)

/-- The word that ends a signature comes before its semicolon or not, whichever of
two continuations follows. -/
theorem isBeforeSemicolon_congr {v v' : Text} (hv : AtLineEnd v) (hv' : AtLineEnd v')
    (hend : ∀ test, IsOuterTest test → ∀ position depth before,
      (findPointFrom test 0 position depth before v).map (·.char)
        = (findPointFrom test 0 position depth before v').map (·.char)) (b : Text) :
    isBeforeSemicolon (b ++ v) = isBeforeSemicolon (b ++ v') := by
  have key := findPointFrom_congr isOuterTest_is hv hv' (hend _ isOuterTest_is) b 0 0 0 none
    (Nat.zero_le _)
  have hany : ∀ x : Option CodePoint,
      x.any (fun p => p.char != ';') = (x.map (·.char)).any (· != ';') := by
    intro x
    cases x <;> rfl
  rw [isBeforeSemicolon, isBeforeSemicolon, findPoint?, findPoint?, hany, key, ← hany]

/-! ## Looking ahead -/

theorem triviaEnd_of_atLineEnd {v : Text} (hv : AtLineEnd v) (inComment : Bool) (passed : Nat)
    (before : Option Char) :
    triviaEnd inComment passed before v = triviaEnd false passed before v := by
  obtain rfl | ⟨v, rfl⟩ := hv.cases <;> cases inComment <;> rfl

/-- Blanks and comments end inside a text or run up to what follows it. -/
theorem triviaEnd_append (b : Text) (inComment : Bool) (passed : Nat) (before : Option Char) :
    (∃ q c, ∀ v, AtLineEnd v →
      triviaEnd inComment passed before (b ++ v) = triviaEnd false q c v) ∨
    ∃ q c d r, ∀ v, AtLineEnd v →
      triviaEnd inComment passed before (b ++ v) = ⟨q, c, d :: (r ++ v)⟩ := by
  induction b generalizing inComment passed before with
  | nil => exact .inl ⟨passed, before, fun v hv => triviaEnd_of_atLineEnd hv _ _ _⟩
  | cons d b ih =>
    by_cases hin : inComment = true
    · simp only [List.cons_append, triviaEnd, hin, if_true]
      exact ih _ _ _
    by_cases hblank : isAsciiBlank d = true
    · simp only [List.cons_append, triviaEnd, hin, hblank, if_true]
      exact ih _ _ _
    have hhead : ∀ v, AtLineEnd v → ((b ++ v).head? == some '-') = (b.head? == some '-') := by
      intro v hv
      cases b with
      | nil => obtain rfl | ⟨v, rfl⟩ := hv.cases <;> rfl
      | cons e b => rfl
    by_cases hdash : (d == '-' && b.head? == some '-') = true
    · obtain h | h := ih true (passed + 1) (some d)
      · obtain ⟨q, c, h⟩ := h
        refine .inl ⟨q, c, fun v hv => ?_⟩
        simp only [List.cons_append, triviaEnd, hin, hblank, hhead v hv, hdash, if_true]
        exact h v hv
      · obtain ⟨q, c, e, r, h⟩ := h
        refine .inr ⟨q, c, e, r, fun v hv => ?_⟩
        simp only [List.cons_append, triviaEnd, hin, hblank, hhead v hv, hdash, if_true]
        exact h v hv
    · refine .inr ⟨passed, before, d, b, fun v hv => ?_⟩
      simp only [List.cons_append, triviaEnd, hin, hblank, hhead v hv, hdash]
      rfl

/-- The length of the token at the head of a text. -/
def tokenLength (before : Option Char) (c : Char) (rest : Text) : Nat :=
  match Lexeme.at before (c :: rest) with
  | .literal n => n
  | .code | .comment _ =>
    if isIdentChar c then ((c :: rest).takeWhile isIdentChar).length else 1

theorem nextToken?_of_skipTrivia {p : Place} {q : Nat} {before : Option Char} {c : Char} {r : Text}
    (h : skipTrivia p = ⟨q, before, c :: r⟩) :
    nextToken? p = some ((c :: r).take (tokenLength before c r),
      advance (tokenLength before c r) ⟨q, before, c :: r⟩) := by
  simp only [nextToken?, h, tokenLength]
  cases Lexeme.at before (c :: r) <;> rfl

theorem tokenLength_append {u : Text} (hu : AtLineEnd u) (before : Option Char) (c : Char)
    (r : Text) : tokenLength before c (r ++ u) = tokenLength before c r := by
  simp only [tokenLength, at_append hu]
  rw [← List.cons_append, takeWhile_ident_append hu]

theorem tokenLength_le (before : Option Char) (c : Char) (r : Text) :
    tokenLength before c r ≤ r.length + 1 := by
  have hword : (if isIdentChar c then ((c :: r).takeWhile isIdentChar).length else 1)
      ≤ r.length + 1 := by
    split
    · exact (List.takeWhile_sublist _).length_le
    · omega
  obtain hat | ⟨x, u, rfl, hat | hat⟩ := at_split before c r
  · simpa only [tokenLength, hat] using hword
  · simpa only [tokenLength, hat] using hword
  · simp [tokenLength, hat]

/-- The next token stands inside a text or is the first of what follows it. -/
theorem nextToken?_append (b : Text) (passed : Nat) (before : Option Char) :
    (∃ q c, ∀ v, AtLineEnd v → nextToken? ⟨passed, before, b ++ v⟩ = nextToken? ⟨q, c, v⟩) ∨
    ∃ token q c r, ∀ v, AtLineEnd v →
      nextToken? ⟨passed, before, b ++ v⟩ = some (token, ⟨q, c, r ++ v⟩) := by
  obtain ⟨q, c, h⟩ | ⟨q, c, d, r, h⟩ := triviaEnd_append b false passed before
  · refine .inl ⟨q, c, fun v hv => ?_⟩
    simp only [nextToken?, skipTrivia, h v hv]
  · have hn := tokenLength_le c d r
    generalize hlen : tokenLength c d r = n at hn
    refine .inr ⟨(d :: r).take n, q + n, (((d :: r).take n).getLast?).or c, (d :: r).drop n,
      fun v hv => ?_⟩
    have htake : (d :: (r ++ v)).take n = (d :: r).take n := by
      rw [← List.cons_append, List.take_append_of_le_length (by simpa using hn)]
    have hdrop : (d :: (r ++ v)).drop n = (d :: r).drop n ++ v := by
      rw [← List.cons_append, List.drop_append_of_le_length (by simpa using hn)]
    have hskip : skipTrivia ⟨passed, before, b ++ v⟩ = ⟨q, c, d :: (r ++ v)⟩ := h v hv
    rw [nextToken?_of_skipTrivia hskip, tokenLength_append hv, hlen, advance, htake, hdrop]

/-- Two continuations that start with the same tokens, as far as a word looks ahead. -/
def ReadAlike (v v' : Text) : Prop :=
  ∀ n ≤ 4, ∀ q c, nextTokens n ⟨q, c, v⟩ = nextTokens n ⟨q, c, v'⟩

theorem nextTokens_congr {v v' : Text} (hv : AtLineEnd v) (hv' : AtLineEnd v')
    (h : ReadAlike v v') {n : Nat} (hn : n ≤ 4) (b : Text) (passed : Nat) (before : Option Char) :
    nextTokens n ⟨passed, before, b ++ v⟩ = nextTokens n ⟨passed, before, b ++ v'⟩ := by
  induction n generalizing b passed before with
  | zero => rfl
  | succ n ih =>
    obtain ⟨q, c, hnext⟩ | ⟨token, q, c, r, hnext⟩ := nextToken?_append b passed before
    · have hone := h (n + 1) hn q c
      simp only [nextTokens, hnext v hv, hnext v' hv'] at hone ⊢
      exact hone
    · simp only [nextTokens, hnext v hv, hnext v' hv', ih (Nat.le_of_succ_le hn)]

/-- A word opens a construct or not, whichever of two continuations follows. -/
theorem opensConstruct_congr {v v' : Text} (hv : AtLineEnd v) (hv' : AtLineEnd v')
    (h : ReadAlike v v') {b : Text} (hsemi : isBeforeSemicolon (b ++ v) = isBeforeSemicolon (b ++ v'))
    (w : Text) (passed : Nat) (before : Option Char) :
    opensConstruct w ⟨passed, before, b ++ v⟩ = opensConstruct w ⟨passed, before, b ++ v'⟩ := by
  simp only [opensConstruct, nextTokens_congr hv hv' h (show 4 ≤ 4 by decide),
    nextTokens_congr hv hv' h (show 3 ≤ 4 by decide),
    nextTokens_congr hv hv' h (show 2 ≤ 4 by decide), hsemi]

/-! ## Extents -/

/-- The extent of a text with one of two continuations, up to a relation between
what the scan of these makes of them. -/
theorem extentFrom_rel {R : Option Nat → Option Nat → Prop} (hrefl : ∀ x, R x x) {v v' : Text}
    (hv : AtLineEnd v) (hv' : AtLineEnd v')
    (hend : ∀ parens s position before,
      R (extentFrom parens s 0 position before v) (extentFrom parens s 0 position before v'))
    (hread : ReadAlike v v')
    (hsemi : ∀ b, isBeforeSemicolon (b ++ v) = isBeforeSemicolon (b ++ v')) :
    ∀ (n : Nat) (b : Text), b.length ≤ n → ∀ parens s position before,
      R (extentFrom parens s 0 position before (b ++ v))
        (extentFrom parens s 0 position before (b ++ v')) := by
  intro n
  induction n with
  | zero =>
    intro b hb parens s position before
    rw [List.eq_nil_of_length_eq_zero (Nat.le_zero.1 hb)]
    exact hend parens s position before
  | succ n ih =>
    intro b hb parens s position before
    cases b with
    | nil => exact hend parens s position before
    | cons c b =>
      rw [List.length_cons] at hb
      obtain hat | ⟨x, r, rfl, hat | hat⟩ := at_split before c b
      · by_cases hstart : (isIdentChar c && !before.any isIdentChar) = true
        · -- a word, the same with both continuations
          rw [Bool.and_eq_true, Bool.not_eq_true'] at hstart
          obtain ⟨w, r, hsplit, hrun, hrest, hshort⟩ := exists_run hstart.1 b
          have hr : r.length ≤ n := by omega
          rw [hsplit, List.append_assoc, List.append_assoc]
          cases parens with
          | zero =>
            rw [extentFrom_word hrun hstart.2 (hrest v hv),
              extentFrom_word hrun hstart.2 (hrest v' hv')]
            have hword : ∀ q d, s.word w ⟨q, d, r ++ v⟩ = s.word w ⟨q, d, r ++ v'⟩ := by
              intro q d
              simp only [Nesting.word, opensConstruct_congr hv hv' hread (hsemi _)]
            rw [hword]
            cases s.word w ⟨position + w.length, lastOr before w, r ++ v'⟩ with
            | none => exact hrefl none
            | some next => exact ih _ hr _ _ _ _
          | succ parens =>
            rw [extentFrom_word_inner hrun hstart.2 (hrest v hv),
              extentFrom_word_inner hrun hstart.2 (hrest v' hv')]
            exact ih _ hr _ _ _ _
        · -- a single character
          have hb' : b.length ≤ n := by omega
          rw [Bool.not_eq_true] at hstart
          simp only [List.cons_append, extentFrom, at_append hv, at_append hv', hat, hstart,
            Bool.false_eq_true, if_false]
          split
          · exact ih _ hb' _ _ _ _
          split
          · split
            · exact hrefl none
            · exact ih _ hb' _ _ _ _
          split
          · split
            · exact hrefl _
            · exact ih _ hb' _ _ _ _
          · exact ih _ hb' _ _ _ _
      · have hcomment : ∀ u, AtLineEnd u →
            Lexeme.at before (c :: (x ++ (r ++ u))) = .comment (x.length + 1) := by
          intro u hu
          rw [← List.append_assoc, at_append hu, hat]
        rw [List.length_append] at hb
        rw [List.cons_append, List.cons_append, List.append_assoc, List.append_assoc,
          extentFrom_comment (hcomment v hv), extentFrom_comment (hcomment v' hv')]
        exact ih _ (by omega) _ _ _ _
      · have hliteral : ∀ u, AtLineEnd u →
            Lexeme.at before (c :: (x ++ (r ++ u))) = .literal (x.length + 1) := by
          intro u hu
          rw [← List.append_assoc, at_append hu, hat]
        rw [List.length_append] at hb
        rw [List.cons_append, List.cons_append, List.append_assoc, List.append_assoc,
          extentFrom_literal (hliteral v hv), extentFrom_literal (hliteral v' hv')]
        exact ih _ (by omega) _ _ _ _

end Text
end CanonicalVhdl
