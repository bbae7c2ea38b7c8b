import CanonicalVhdl.Proofs.Token.Basic

/-!
# Searching texts made of tokens

A search outside parentheses, literals and comments sees a sequence of tokens one
token at a time: groups and literals are passed over, and a word or a symbol is
found exactly where it is a token.

## Main definitions

* `Text.hitsFrom` — where one of several patterns stands outside, and which one.
* `Text.IsPattern` — the words and symbols that readers look for.
* `Token.spells` — whether a token is what a pattern looks for.
* `Token.hits` — the tokens of a sequence that spell a pattern.

## Main statements

* `Token.hitsFrom_render` — the hits in a sequence are its tokens that spell a pattern.
-/

namespace CanonicalVhdl

open Text

namespace Text

/-! ## Code points, one lexeme at a time -/

theorem codePointsFrom_skip (x u : Text) (position depth : Nat) (before : Option Char) :
    codePointsFrom [] x.length position depth before (x ++ u) =
      codePointsFrom [] 0 (position + x.length) depth (lastOr before x) u := by
  induction x generalizing position before with
  | nil => rfl
  | cons c x ih =>
    simp only [List.cons_append, List.length_cons, codePointsFrom, lastOr_cons]
    rw [ih]; congr 1; omega

theorem codePointsFrom_literal {before : Option Char} {c : Char} {x u : Text} (position depth : Nat)
    (h : Lexeme.at before (c :: (x ++ u)) = .literal (x.length + 1)) :
    codePointsFrom [] 0 position depth before (c :: (x ++ u)) =
      ⟨position, before, c, x ++ u, depth⟩ ::
        codePointsFrom [] 0 (position + 1 + x.length) depth (lastOr (some c) x) u := by
  simp only [codePointsFrom, h, Nat.add_sub_cancel]
  rw [codePointsFrom_append, codePointsFrom_skip]; rfl

theorem codePointsFrom_comment {before : Option Char} {c : Char} {x u : Text} (position depth : Nat)
    (h : Lexeme.at before (c :: (x ++ u)) = .comment (x.length + 1)) :
    codePointsFrom [] 0 position depth before (c :: (x ++ u))
      = codePointsFrom [] 0 (position + 1 + x.length) depth (lastOr (some c) x) u := by
  simp only [codePointsFrom, h, Nat.add_sub_cancel]
  rw [codePointsFrom_skip]

theorem codePointsFrom_code {before : Option Char} {c : Char} {u : Text} (position depth : Nat)
    (h : Lexeme.at before (c :: u) = .code) :
    codePointsFrom [] 0 position depth before (c :: u) =
      ⟨position, before, c, u, if c == ')' then depth - 1 else depth⟩ ::
        codePointsFrom [] 0 (position + 1)
          (if c == '(' then depth + 1 else if c == ')' then depth - 1 else depth) (some c) u := by
  simp only [codePointsFrom, h]
  rw [codePointsFrom_append]; rfl

/-! ## Patterns -/

/-- Whether a pattern stands at the head of a text, given the character before it. -/
def standsAt (pattern : Text) (before : Option Char) (t : Text) : Bool :=
  match pattern with
  | [] => false
  | first :: _ =>
    if first.isAlpha then (wholeWord? true pattern before t).isSome else pattern.isPrefixOf t

theorem matchesAt_eq_standsAt (pattern : Text) (p : CodePoint) :
    matchesAt pattern p = standsAt pattern p.before p.rest := rfl

/-- The symbols and separators that readers look for. -/
def symbolPatterns : List Text := ["=>", "<=", ":=", ",", "|", ";"].map String.toList

/-- What readers look for: a word, or one of the symbols. -/
def IsPattern (pattern : Text) : Prop :=
  (IsRun pattern ∧ pattern.head?.any Char.isAlpha = true) ∨ pattern ∈ symbolPatterns

theorem symbolPatterns_head {pattern : Text} (h : pattern ∈ symbolPatterns) :
    ∃ c r, pattern = c :: r ∧ c.isAlpha = false ∧ isIdentChar c = false
      ∧ c ∈ ['=', '<', ':', ',', '|', ';'] := by
  have key : ∀ p ∈ symbolPatterns, ∃ c r, p = c :: r ∧ c.isAlpha = false ∧ isIdentChar c = false
      ∧ c ∈ ['=', '<', ':', ',', '|', ';'] := by
    simp only [symbolPatterns, List.map_cons, List.map_nil, List.mem_cons, List.not_mem_nil,
      or_false, forall_eq_or_imp, forall_eq]
    exact ⟨⟨_, _, rfl, by decide⟩, ⟨_, _, rfl, by decide⟩, ⟨_, _, rfl, by decide⟩,
      ⟨_, _, rfl, by decide⟩, ⟨_, _, rfl, by decide⟩, ⟨_, _, rfl, by decide⟩⟩
  exact key pattern h

theorem standsAt_symbol {pattern : Text} (h : pattern ∈ symbolPatterns) (before : Option Char)
    (t : Text) : standsAt pattern before t = pattern.isPrefixOf t := by
  obtain ⟨c, r, rfl, hc, -⟩ := symbolPatterns_head h
  simp [standsAt, hc]

theorem standsAt_alpha {pattern : Text} (h : pattern.head?.any Char.isAlpha = true)
    (before : Option Char) (t : Text) :
    standsAt pattern before t = (wholeWord? true pattern before t).isSome := by
  cases pattern with
  | nil => simp at h
  | cons c r =>
    have hc : c.isAlpha = true := by simpa using h
    simp [standsAt, hc]

/-- No word starts with a character that belongs to no identifier. -/
theorem wholeWord?_eq_none {w t : Text} (hw : IsRun w) (before : Option Char)
    (ht : t.head?.any isIdentChar = false) : wholeWord? true w before t = none := by
  by_cases hb : before.any isIdentChar = true
  · simp [wholeWord?, hb]
  · have hne : w.isEmpty = false := by simpa using hw.ne_nil
    simp only [wholeWord?, hne, hb, Bool.or_self, Bool.false_eq_true, if_false, dropWordWith, if_true,
      Option.bind_eq_none_iff]
    intro r hr
    obtain ⟨y, rfl, hwy⟩ := dropWord?_eq_some_iff.1 hr
    cases y with
    | nil => exact absurd (List.length_eq_zero_iff.1 (length_eq_of_sameWord hwy)) hw.ne_nil
    | cons c y =>
      have hall : (fold (c :: y)).all isIdentChar = true := by
        rw [← sameWord_iff.1 hwy, all_isIdentChar_fold]; exact hw.ident
      rw [all_isIdentChar_fold] at hall
      have hc : isIdentChar c = true := List.all_eq_true.1 hall c (by simp)
      simp [hc] at ht

/-- Inside a word no pattern starts. -/
theorem standsAt_inside {pattern u : Text} {b c : Char} (hp : IsPattern pattern)
    (hb : isIdentChar b = true) (hc : isIdentChar c = true) :
    standsAt pattern (some b) (c :: u) = false := by
  rcases hp with ⟨-, ha⟩ | hp
  · rw [standsAt_alpha ha]; simp [wholeWord?, hb]
  · rw [standsAt_symbol hp]
    obtain ⟨d, r, rfl, -, hd, -⟩ := symbolPatterns_head hp
    cases hdc : d == c with
    | false => simp [List.isPrefixOf, hdc]
    | true => rw [beq_iff_eq] at hdc; rw [hdc, hc] at hd; cases hd

/-- At the start of a word only that word is found. -/
theorem standsAt_run {pattern x u : Text} {before : Option Char} (hp : IsPattern pattern)
    (hx : IsRun x) (hb : before.any isIdentChar = false) (hu : u.head?.any isIdentChar = false) :
    standsAt pattern before (x ++ u)
      = (pattern.head?.any Char.isAlpha && sameWord pattern x) := by
  rcases hp with ⟨hr, ha⟩ | hp
  · rw [standsAt_alpha ha, wholeWord?_run hr hx hu hb, ha]
    by_cases h : sameWord pattern x = true <;> simp [h]
  · rw [standsAt_symbol hp]
    obtain ⟨d, r, rfl, hd, hi, -⟩ := symbolPatterns_head hp
    cases x with
    | nil => exact absurd rfl hx.ne_nil
    | cons c x =>
      have hc : isIdentChar c = true := List.all_eq_true.1 hx.ident c (by simp)
      cases hdc : d == c with
      | false => simp [List.isPrefixOf, hdc, hd]
      | true => rw [beq_iff_eq] at hdc; rw [hdc, hc] at hi; cases hi

/-- A blank ends the part of a text that a prefix without blanks can reach. -/
theorem isPrefixOf_append_blank {p s u : Text} (hp : (p.all fun c => !isAsciiBlank c) = true)
    (hu : u.head?.all isAsciiBlank = true) : p.isPrefixOf (s ++ u) = p.isPrefixOf s := by
  induction p generalizing s with
  | nil => simp [List.isPrefixOf]
  | cons c p ih =>
    simp only [List.all_cons, Bool.and_eq_true, Bool.not_eq_true'] at hp
    cases s with
    | nil =>
      cases u with
      | nil => rfl
      | cons d u =>
        have hd : isAsciiBlank d = true := by simpa using hu
        cases hcd : c == d with
        | false => simp [List.isPrefixOf, hcd]
        | true => rw [beq_iff_eq] at hcd; rw [← hcd, hp.1] at hd; cases hd
    | cons d s => simp only [List.cons_append, List.isPrefixOf, ih hp.2]

/-- A symbol between blanks is the only pattern that starts with it. -/
theorem isPrefixOf_append_of_blank {p : Text} (hp : p ∈ symbolPatterns) {s u : Text}
    (hu : u.head?.all isAsciiBlank = true) : p.isPrefixOf (s ++ u) = p.isPrefixOf s := by
  have key : ∀ p ∈ symbolPatterns, (p.all fun c => !isAsciiBlank c) = true := by decide
  exact isPrefixOf_append_blank (key p hp) hu

/-- A character that starts no pattern is no hit. -/
theorem standsAt_other {pattern u : Text} {c : Char} (hp : IsPattern pattern)
    (before : Option Char) (hi : isIdentChar c = false)
    (hc : c ∉ ['=', '<', ':', ',', '|', ';']) : standsAt pattern before (c :: u) = false := by
  rcases hp with ⟨hr, ha⟩ | hp
  · rw [standsAt_alpha ha, wholeWord?_eq_none hr _ (by simpa using hi)]; rfl
  · rw [standsAt_symbol hp]
    obtain ⟨d, r, rfl, -, -, hd⟩ := symbolPatterns_head hp
    cases hdc : d == c with
    | false => simp [List.isPrefixOf, hdc]
    | true => rw [beq_iff_eq] at hdc; rw [hdc] at hd; exact absurd hd hc

/-- A digit or a point starts no pattern. -/
theorem standsAt_number {pattern u : Text} {c : Char} (hp : IsPattern pattern)
    (before : Option Char) (hc : Token.isNumberChar c = true) :
    standsAt pattern before (c :: u) = false := by
  rcases Bool.or_eq_true_iff.1 hc with h | h
  · -- A pattern starts with a letter or with one of the symbols' characters.
    cases pattern with
    | nil => rfl
    | cons d r =>
      rcases hp with ⟨hr, ha⟩ | hp
      · have hd : d.isAlpha = true := by simpa using ha
        have hne : (d.toLower == c.toLower) = false := by
          rw [beq_eq_false_iff_ne]
          intro he
          have := isAlpha_toLower d
          rw [he, isAlpha_toLower, hd] at this
          rw [isDigit_eq_false_of_isAlpha this] at h
          cases h
        rw [standsAt_alpha ha]
        simp [wholeWord?, dropWordWith, dropWord?, hne]
      · rw [standsAt_symbol hp]
        obtain ⟨e, q, heq, -, hi, -⟩ := symbolPatterns_head hp
        obtain ⟨rfl, rfl⟩ := List.cons_eq_cons.1 heq
        cases hdc : d == c with
        | false => simp [List.isPrefixOf, hdc]
        | true => rw [beq_iff_eq] at hdc; rw [hdc, isIdentChar_of_isDigit h] at hi; cases hi
  · rw [beq_iff_eq] at h
    exact standsAt_other hp _ (by rw [h]; decide) (by rw [h]; decide)

/-! ## Hits -/

/-- The first of the patterns that stands at the head of a text. -/
def firstHit? (patterns : List Text) (before : Option Char) (t : Text) : Option Nat :=
  patterns.findIdx? (standsAt · before t)

/-- Where one of the patterns stands outside parentheses, literals and comments, from
some place on, and the index of the pattern. -/
def hitsFrom (patterns : List Text) (position depth : Nat) (before : Option Char) (t : Text) :
    List (Nat × Nat) :=
  (codePointsFrom [] 0 position depth before t).filterMap fun p =>
    if p.depth == 0 then (firstHit? patterns p.before p.rest).map (p.position, ·) else none

theorem outerMatches_eq_hitsFrom (pattern t : Text) :
    outerMatches pattern t = (hitsFrom [pattern] 0 0 none t).map (·.1) := by
  simp only [outerMatches, outerPoints, codePoints, hitsFrom]
  induction codePointsFrom [] 0 0 0 none t with
  | nil => rfl
  | cons p ps ih =>
    by_cases hd : p.depth = 0
    · cases hm : matchesAt pattern p with
      | false => simpa [hd, hm, firstHit?, ← matchesAt_eq_standsAt] using ih
      | true => simpa [hd, hm, firstHit?, ← matchesAt_eq_standsAt] using ih
    · simpa [hd] using ih

theorem outerMatch?_eq_hitsFrom (pattern t : Text) :
    outerMatch? pattern t = ((hitsFrom [pattern] 0 0 none t).head?).map (·.1) := by
  rw [outerMatch?_eq_head?, outerMatches_eq_hitsFrom, List.head?_map]

theorem splitOuter_eq_hitsFrom {separator : Char} (h : separator.isAlpha = false) (t : Text) :
    splitOuter separator t = piecesBetween 0 t ((hitsFrom [[separator]] 0 0 none t).map (·.1)) := by
  rw [← outerMatches_eq_hitsFrom, outerMatches, splitOuter]
  congr 3
  funext p
  simp only [matchesAt, h, CodePoint.rest, List.isPrefixOf, Bool.false_eq_true, if_false,
    Bool.and_true]
  rw [Bool.eq_iff_iff, beq_iff_eq, beq_iff_eq]
  exact eq_comm

/-- The hit at one place, if any. -/
def hitAt (patterns : List Text) (position depth : Nat) (before : Option Char) (t : Text) :
    List (Nat × Nat) :=
  if depth == 0 then ((firstHit? patterns before t).map (position, ·)).toList else []

theorem hitsFrom_cons (patterns : List Text) (p : CodePoint) (ps : List CodePoint) :
    (p :: ps).filterMap (fun p =>
        if p.depth == 0 then (firstHit? patterns p.before p.rest).map (p.position, ·) else none) =
      hitAt patterns p.position p.depth p.before p.rest ++ ps.filterMap fun p =>
        if p.depth == 0 then (firstHit? patterns p.before p.rest).map (p.position, ·) else none := by
  rw [List.filterMap_cons, hitAt]
  by_cases hd : (p.depth == 0) = true
  · cases firstHit? patterns p.before p.rest <;> simp [hd]
  · simp [hd]

theorem hitsFrom_code {before : Option Char} {c : Char} {u : Text} (patterns : List Text)
    (position depth : Nat) (h : Lexeme.at before (c :: u) = .code) :
    hitsFrom patterns position depth before (c :: u) =
      hitAt patterns position (if c == ')' then depth - 1 else depth) before (c :: u)
        ++ hitsFrom patterns (position + 1)
          (if c == '(' then depth + 1 else if c == ')' then depth - 1 else depth) (some c) u := by
  rw [hitsFrom, codePointsFrom_code _ _ h, hitsFrom_cons]; rfl

theorem hitsFrom_literal {before : Option Char} {c : Char} {x u : Text} (patterns : List Text)
    (position depth : Nat) (h : Lexeme.at before (c :: (x ++ u)) = .literal (x.length + 1)) :
    hitsFrom patterns position depth before (c :: (x ++ u)) =
      hitAt patterns position depth before (c :: (x ++ u))
        ++ hitsFrom patterns (position + 1 + x.length) depth (lastOr (some c) x) u := by
  rw [hitsFrom, codePointsFrom_literal _ _ h, hitsFrom_cons]; rfl

theorem firstHit?_eq_none {patterns : List Text} {before : Option Char} {t : Text}
    (h : ∀ p ∈ patterns, standsAt p before t = false) : firstHit? patterns before t = none := by
  rw [firstHit?, List.findIdx?_eq_none_iff]; exact h

theorem hitAt_eq_nil {patterns : List Text} {before : Option Char} {t : Text}
    (h : ∀ p ∈ patterns, standsAt p before t = false) (position depth : Nat) :
    hitAt patterns position depth before t = [] := by
  rw [hitAt, firstHit?_eq_none h]; simp

@[simp] theorem hitAt_succ (patterns : List Text) (position depth : Nat) (before : Option Char)
    (t : Text) : hitAt patterns position (depth + 1) before t = [] := rfl

section Parentheses

variable {patterns : List Text} {before : Option Char}

theorem hitsFrom_open (hp : ∀ p ∈ patterns, IsPattern p) (position depth : Nat) (u : Text) :
    hitsFrom patterns position depth before ('(' :: u) =
      hitsFrom patterns (position + 1) (depth + 1) (some '(') u := by
  rw [hitsFrom_code _ _ _ (Token.at_open u), hitAt_eq_nil]
  · rfl
  · exact fun p h => standsAt_other (hp p h) _ (by decide) (by decide)

theorem hitsFrom_close (hp : ∀ p ∈ patterns, IsPattern p) (position depth : Nat) (u : Text) :
    hitsFrom patterns position (depth + 1) before (')' :: u) =
      hitsFrom patterns (position + 1) depth (some ')') u := by
  rw [hitsFrom_code _ _ _ (Token.at_close u), hitAt_eq_nil]
  · rfl
  · exact fun p h => standsAt_other (hp p h) _ (by decide) (by decide)

end Parentheses

end Text

namespace Token

/-! ## Hits in sequences of tokens -/

/-- Whether a token is what a pattern looks for. -/
def spells (pattern : Text) : Token → Bool
  | word w => pattern.head?.any Char.isAlpha && sameWord pattern w
  | symbol s => s == pattern
  | mark c => [c] == pattern
  | _ => false

/-- The first of the patterns that a token spells. -/
def hit? (patterns : List Text) (token : Token) : Option Nat :=
  patterns.findIdx? (spells · token)

/-- The tokens of a sequence that spell a pattern, with their places. -/
def hits (patterns : List Text) (position : Nat) : List Token → List (Nat × Nat)
  | [] => []
  | token :: tokens =>
    ((token.hit? patterns).map (position, ·)).toList
      ++ hits patterns (position + token.text.length) tokens

/-- Code characters that start no pattern where they stand are passed over. -/
theorem hitsFrom_pass {patterns : List Text} {u : Text} {depth : Nat} :
    ∀ (x : Text) (position : Nat) (before : Option Char),
      (∀ a c b, x = a ++ c :: b →
        Lexeme.at (lastOr before a) (c :: (b ++ u)) = .code ∧ c ≠ '(' ∧ c ≠ ')' ∧
          (depth = 0 → ∀ p ∈ patterns, standsAt p (lastOr before a) (c :: (b ++ u)) = false)) →
      hitsFrom patterns position depth before (x ++ u) =
        hitsFrom patterns (position + x.length) depth (lastOr before x) u
  | [], _, _, _ => rfl
  | c :: x, position, before, h => by
    obtain ⟨hcode, ho, hc, hs⟩ := h [] c x rfl
    rw [lastOr_nil] at hcode
    simp only [lastOr_nil] at hs
    have hnil : hitAt patterns position depth before (c :: (x ++ u)) = [] := by
      cases depth with
      | zero => exact hitAt_eq_nil (hs rfl) _ _
      | succ depth => rfl
    rw [List.cons_append, hitsFrom_code _ _ _ hcode]
    simp only [beq_iff_eq, ho, hc, if_false]
    rw [hnil, List.nil_append, hitsFrom_pass x _ _ fun a d b hx => by
        have := h (c :: a) d b (by rw [hx]; rfl)
        rwa [lastOr_cons] at this, lastOr_cons, List.length_cons]
    congr 1; omega

/-- Every character of a token that is neither a literal nor a group is code and no
parenthesis. -/
theorem Fits.code {next : Option Char} {token : Token} {u : Text} (h : token.Fits before next)
    (hu : next = u.head?) (hq : ∀ body, token ≠ quoted body) (ht : ∀ c, token ≠ ticked c)
    (hg : ∀ inner, token ≠ group inner) {a b : Text} {c : Char} (hsplit : token.text = a ++ c :: b) :
    Lexeme.at (lastOr before a) (c :: (b ++ u)) = .code ∧ c ≠ '(' ∧ c ≠ ')' := by
  cases token with
  | word w =>
    have hc : isIdentChar c = true := List.all_eq_true.1 h.1.ident c (by rw [← text_word w, hsplit]; simp)
    refine ⟨at_ident _ hc, ?_, ?_⟩
    · rintro rfl; exact absurd hc (by decide)
    · rintro rfl; exact absurd hc (by decide)
  | number digits =>
    rw [text_number] at hsplit
    have hc : isNumberChar c = true := List.all_eq_true.1 h.2.1 c (by rw [hsplit]; simp)
    refine ⟨at_number _ hc, ?_, ?_⟩
    · rintro rfl; exact absurd hc (by decide)
    · rintro rfl; exact absurd hc (by decide)
  | symbol s =>
    have key : ∀ s ∈ symbols, ∀ c ∈ s, c ≠ '(' ∧ c ≠ ')' := by decide
    exact ⟨at_symbol h.1 h.2 hu hsplit _, key s h.1 c (by rw [← text_symbol s, hsplit]; simp)⟩
  | mark d =>
    have key : ∀ c ∈ marks, c ≠ '(' ∧ c ≠ ')' := by decide
    rw [text_mark, List.singleton_eq_append_iff] at hsplit
    obtain ⟨rfl, hb⟩ | ⟨-, hb⟩ := hsplit
    · obtain ⟨rfl, rfl⟩ := List.cons_eq_cons.1 hb.symm
      exact ⟨at_mark h hu, key _ h.1⟩
    · cases hb
  | quoted body => exact absurd rfl (hq body)
  | ticked d => exact absurd rfl (ht d)
  | group inner => exact absurd rfl (hg inner)

mutual

/-- Inside parentheses a token holds no hit. -/
theorem hitsFrom_inner (hp : ∀ p ∈ patterns, IsPattern p) :
    ∀ (token : Token) (u : Text) (position depth : Nat) (before : Option Char),
      token.Fits before u.head? →
      hitsFrom patterns position (depth + 1) before (token.text ++ u) =
        hitsFrom patterns (position + token.text.length) (depth + 1) (lastOr before token.text) u
  | .quoted body, u, position, depth, before, h => by
    have hat : Lexeme.at before ('"' :: ((body ++ ['"']) ++ u))
        = .literal ((body ++ ['"']).length + 1) := by simpa using at_quoted h rfl
    rw [text_quoted, List.cons_append, hitsFrom_literal _ _ _ hat]
    simp only [hitAt_succ, List.nil_append, lastOr_cons, List.length_cons]
    congr 1; omega
  | .ticked c, u, position, depth, before, h => by
    have hat : Lexeme.at before ('\'' :: ([c, '\''] ++ u)) = .literal 3 := at_ticked u h
    rw [text_ticked, List.cons_append, hitsFrom_literal _ _ _ hat]
    rfl
  | .group inner, u, position, depth, before, h => by
    rw [text_group, List.cons_append, List.append_assoc, hitsFrom_open hp,
      hitsFrom_innerAll hp inner _ _ _ _ (by exact h), List.singleton_append, hitsFrom_close hp,
      lastOr_cons, lastOr_append, List.length_cons, List.length_append]
    congr 1; simp only [List.length_singleton]; omega
  | .word w, u, position, depth, before, h => by
    refine hitsFrom_pass _ _ _ fun a c b hx => ?_
    obtain ⟨hcode, ho, hc⟩ := h.code rfl (by simp) (by simp) (by simp) hx
    exact ⟨hcode, ho, hc, by simp⟩
  | .number digits, u, position, depth, before, h => by
    refine hitsFrom_pass _ _ _ fun a c b hx => ?_
    obtain ⟨hcode, ho, hc⟩ := h.code rfl (by simp) (by simp) (by simp) hx
    exact ⟨hcode, ho, hc, by simp⟩
  | .symbol s, u, position, depth, before, h => by
    refine hitsFrom_pass _ _ _ fun a c b hx => ?_
    obtain ⟨hcode, ho, hc⟩ := h.code rfl (by simp) (by simp) (by simp) hx
    exact ⟨hcode, ho, hc, by simp⟩
  | .mark d, u, position, depth, before, h => by
    refine hitsFrom_pass _ _ _ fun a c b hx => ?_
    obtain ⟨hcode, ho, hc⟩ := h.code rfl (by simp) (by simp) (by simp) hx
    exact ⟨hcode, ho, hc, by simp⟩

/-- Inside parentheses a sequence of tokens holds no hit. -/
theorem hitsFrom_innerAll (hp : ∀ p ∈ patterns, IsPattern p) :
    ∀ (tokens : List Token) (u : Text) (position depth : Nat) (before : Option Char),
      FitAll before tokens u.head? →
      hitsFrom patterns position (depth + 1) before (render tokens ++ u) =
        hitsFrom patterns (position + (render tokens).length) (depth + 1)
          (lastOr before (render tokens)) u
  | [], _, _, _, _, _ => rfl
  | token :: tokens, u, position, depth, before, h => by
    obtain ⟨ht, hts⟩ := h
    have hnext : firstOr tokens u.head? = (render tokens ++ u).head? := by
      rw [firstOr, List.head?_append]
    rw [render_cons, List.append_assoc, hitsFrom_inner hp token _ _ _ _ (hnext ▸ ht),
      hitsFrom_innerAll hp tokens _ _ _ _ hts]
    simp; congr 1; omega

end

/-- At the head of a token exactly the patterns stand that it spells. -/
theorem standsAt_token {pattern u : Text} {token : Token} (hp : IsPattern pattern)
    (h : token.Fits before u.head?) :
    standsAt pattern before (token.text ++ u) = token.spells pattern := by
  cases token with
  | word w => exact standsAt_run hp h.1 h.2.1 h.2.2.1
  | number digits =>
    obtain ⟨hd, hall, -⟩ := h
    cases digits with
    | nil => simp at hd
    | cons c x =>
      exact standsAt_number hp _ (List.all_eq_true.1 hall c (by simp))
  | quoted body => exact standsAt_other hp _ (by decide) (by decide)
  | ticked c => exact standsAt_other hp _ (by decide) (by decide)
  | group inner => exact standsAt_other hp _ (by decide) (by decide)
  | symbol s =>
    rcases hp with ⟨hr, ha⟩ | hp
    · have key : ∀ s ∈ symbols, s.head?.any isIdentChar = false ∧ s ≠ []
          ∧ s.head?.any Char.isAlpha = false := by decide
      obtain ⟨hs, hne, hsa⟩ := key s h.1
      have hhead : (s ++ u).head?.any isIdentChar = false := by
        rw [List.head?_append_of_ne_nil _ hne]; exact hs
      rw [standsAt_alpha ha, text_symbol, wholeWord?_eq_none hr _ hhead, spells]
      cases hsp : s == pattern with
      | false => rfl
      | true => rw [beq_iff_eq] at hsp; rw [hsp, ha] at hsa; cases hsa
    · have key : ∀ s ∈ symbols, ∀ p ∈ symbolPatterns, p.isPrefixOf s = (s == p) := by decide
      rw [standsAt_symbol hp, text_symbol, isPrefixOf_append_of_blank hp h.2, key s h.1 _ hp, spells]
  | mark c =>
    have key : ∀ c ∈ marks, isIdentChar c = false ∧ c.isAlpha = false := by decide
    obtain ⟨hi, hca⟩ := key c h.1
    rcases hp with ⟨hr, ha⟩ | hp
    · rw [standsAt_alpha ha, text_mark, wholeWord?_eq_none hr _ (by simpa using hi), spells]
      cases hsp : [c] == pattern with
      | false => rfl
      | true => rw [beq_iff_eq] at hsp; rw [← hsp] at ha; simp [hca] at ha
    · have key : ∀ c ∈ marks, ∀ p ∈ symbolPatterns,
          p = [c] ∨ c ≠ p.headD c ∨ (c = ':' ∧ p = [':', '=']) := by decide
      rw [standsAt_symbol hp, spells, text_mark, List.singleton_append]
      rcases key c h.1 _ hp with rfl | hne | ⟨rfl, rfl⟩
      · simp [List.isPrefixOf]
      · cases pattern with
        | nil => exact absurd rfl hne
        | cons d r =>
          have hdc : (d == c) = false := by simpa using Ne.symm hne
          have hcd : (c == d) = false := by simpa using hne
          simp [List.isPrefixOf, hdc, hcd]
      · cases u with
        | nil => rfl
        | cons d u =>
          have hd : d ≠ '=' := fun hd => h.2.2.1 rfl (by rw [hd]; rfl)
          have : ('=' == d) = false := by simpa using Ne.symm hd
          simp [List.isPrefixOf, this]

/-- Inside a token that is neither a literal nor a group no pattern starts. -/
theorem standsAt_inside_token {pattern u : Text} {token : Token} (hp : IsPattern pattern)
    (h : token.Fits before u.head?) (hq : ∀ body, token ≠ quoted body) (ht : ∀ c, token ≠ ticked c)
    (hg : ∀ inner, token ≠ group inner) {a b : Text} {c : Char} (ha : a ≠ [])
    (hsplit : token.text = a ++ c :: b) :
    standsAt pattern (lastOr before a) (c :: (b ++ u)) = false := by
  cases token with
  | quoted body => exact absurd rfl (hq body)
  | ticked d => exact absurd rfl (ht d)
  | group inner => exact absurd rfl (hg inner)
  | word w =>
    rw [text_word] at hsplit
    have hall := List.all_eq_true.1 h.1.ident
    rw [lastOr_of_ne_nil ha, List.getLast?_eq_some_getLast ha]
    refine standsAt_inside hp (hall _ ?_) (hall c ?_)
    · rw [hsplit]; exact List.mem_append_left _ (List.getLast_mem ha)
    · rw [hsplit]; simp
  | number digits =>
    rw [text_number] at hsplit
    exact standsAt_number hp _ (List.all_eq_true.1 h.2.1 c (by rw [hsplit]; simp))
  | symbol s =>
    rw [text_symbol] at hsplit
    have key : ∀ s ∈ symbols, ∀ c ∈ s.drop 1, s.drop 1 = [c] ∧ isIdentChar c = false
        ∧ ∀ p ∈ symbolPatterns, p.isPrefixOf [c] = false := by decide
    cases a with
    | nil => exact absurd rfl ha
    | cons d a =>
      obtain ⟨htail, hi, hpre⟩ := key s h.1 c (by rw [hsplit]; simp)
      rw [hsplit, List.cons_append, List.drop_one, List.tail_cons,
        List.append_eq_singleton_iff] at htail
      obtain ⟨rfl, hb⟩ | ⟨-, hb⟩ := htail
      · obtain rfl : b = [] := by simpa using congrArg List.tail hb
        rw [List.nil_append]
        rcases hp with ⟨hr, hpa⟩ | hp
        · rw [standsAt_alpha hpa, wholeWord?_eq_none hr _ (by simpa using hi)]; rfl
        · rw [standsAt_symbol hp, ← List.singleton_append, isPrefixOf_append_of_blank hp h.2,
            hpre _ hp]
      · cases hb
  | mark d =>
    rw [text_mark, List.singleton_eq_append_iff] at hsplit
    obtain ⟨rfl, -⟩ | ⟨-, hb⟩ := hsplit
    · exact absurd rfl ha
    · cases hb

/-- The hit at the head of a token. -/
theorem hitAt_token (hp : ∀ p ∈ patterns, IsPattern p) {token : Token} {u : Text}
    (h : token.Fits before u.head?) (position : Nat) :
    hitAt patterns position 0 before (token.text ++ u)
      = ((token.hit? patterns).map (position, ·)).toList := by
  have : firstHit? patterns before (token.text ++ u) = token.hit? patterns := by
    rw [firstHit?, hit?]
    induction patterns with
    | nil => rfl
    | cons p ps ih =>
      rw [List.findIdx?_cons, List.findIdx?_cons, standsAt_token (hp p (by simp)) h,
        ih fun q hq => hp q (by simp [hq])]
  rw [hitAt, this]; rfl

/-- A plain token holds no hit after its first character. -/
theorem hitsFrom_plain (hp : ∀ p ∈ patterns, IsPattern p) {token : Token} {u : Text}
    (h : token.Fits before u.head?) (hq : ∀ body, token ≠ quoted body) (ht : ∀ c, token ≠ ticked c)
    (hg : ∀ inner, token ≠ group inner) (position : Nat) :
    hitsFrom patterns position 0 before (token.text ++ u) =
      hitAt patterns position 0 before (token.text ++ u)
        ++ hitsFrom patterns (position + token.text.length) 0 (lastOr before token.text) u := by
  obtain ⟨c, x, hx⟩ := List.exists_cons_of_ne_nil h.text_ne_nil
  obtain ⟨hcode, ho, hc⟩ := h.code rfl hq ht hg (a := []) (by simpa using hx)
  rw [lastOr_nil] at hcode
  rw [hx, List.cons_append, hitsFrom_code _ _ _ hcode]
  simp only [beq_iff_eq, ho, hc, if_false]
  rw [hitsFrom_pass x, lastOr_cons, List.length_cons]
  · congr 2; omega
  · intro a d b hsplit
    have hsplit' : token.text = (c :: a) ++ d :: b := by rw [hx, hsplit]; rfl
    obtain ⟨hcode, ho, hc⟩ := h.code rfl hq ht hg hsplit'
    rw [lastOr_cons] at hcode
    refine ⟨hcode, ho, hc, fun _ p hpp => ?_⟩
    have := standsAt_inside_token (hp p hpp) h hq ht hg (by simp) hsplit'
    rwa [lastOr_cons] at this

/-- **Outside parentheses a token is a hit exactly when it spells a pattern.** -/
theorem hitsFrom_token (hp : ∀ p ∈ patterns, IsPattern p) {token : Token} {u : Text}
    (h : token.Fits before u.head?) (position : Nat) :
    hitsFrom patterns position 0 before (token.text ++ u) =
      ((token.hit? patterns).map (position, ·)).toList
        ++ hitsFrom patterns (position + token.text.length) 0 (lastOr before token.text) u := by
  rw [← hitAt_token hp h]
  cases token with
  | word w => exact hitsFrom_plain hp h (by simp) (by simp) (by simp) _
  | number digits => exact hitsFrom_plain hp h (by simp) (by simp) (by simp) _
  | symbol s => exact hitsFrom_plain hp h (by simp) (by simp) (by simp) _
  | mark c => exact hitsFrom_plain hp h (by simp) (by simp) (by simp) _
  | quoted body =>
    have hat : Lexeme.at before ('"' :: ((body ++ ['"']) ++ u))
        = .literal ((body ++ ['"']).length + 1) := by simpa using at_quoted h rfl
    rw [text_quoted, List.cons_append, hitsFrom_literal _ _ _ hat, lastOr_cons, List.length_cons]
    congr 2; omega
  | ticked c =>
    have hat : Lexeme.at before ('\'' :: ([c, '\''] ++ u)) = .literal 3 := at_ticked u h
    rw [text_ticked, List.cons_append, hitsFrom_literal _ _ _ hat]
    rfl
  | group inner =>
    have hnil : hitAt patterns position 0 before ((group inner).text ++ u) = [] :=
      hitAt_eq_nil (fun p h => standsAt_other (hp p h) _ (by decide) (by decide)) _ _
    rw [hnil, text_group, List.cons_append, List.append_assoc, hitsFrom_open hp,
      hitsFrom_innerAll hp inner _ _ _ _ (by exact h), List.singleton_append, hitsFrom_close hp,
      List.nil_append, lastOr_cons, lastOr_append, List.length_cons, List.length_append]
    congr 1; simp only [List.length_singleton]; omega

/-- **The hits in a sequence are its tokens that spell a pattern.** -/
theorem hitsFrom_render (hp : ∀ p ∈ patterns, IsPattern p) {tokens : List Token} {u : Text}
    (h : FitAll before tokens u.head?) (position : Nat) :
    hitsFrom patterns position 0 before (render tokens ++ u) =
      hits patterns position tokens
        ++ hitsFrom patterns (position + (render tokens).length) 0 (lastOr before (render tokens))
          u := by
  induction tokens generalizing before position with
  | nil => rfl
  | cons token tokens ih =>
    obtain ⟨ht, hts⟩ := h
    rw [firstOr, ← List.head?_append] at ht
    rw [render_cons, List.append_assoc, hitsFrom_token hp ht, ih hts, hits, lastOr_append,
      List.length_append, List.append_assoc, Nat.add_assoc]

theorem hits_append (patterns : List Text) (position : Nat) (ts us : List Token) :
    hits patterns position (ts ++ us) =
      hits patterns position ts ++ hits patterns (position + (render ts).length) us := by
  induction ts generalizing position with
  | nil => rfl
  | cons t ts ih =>
    rw [List.cons_append, hits, hits, ih, render_cons, List.length_append, List.append_assoc,
      Nat.add_assoc]

end Token
end CanonicalVhdl
