import CanonicalVhdl.Proofs.Settled.Text

/-!
# Segments of a text

A text is a row of segments: characters of code, literals and comments.  Masking replaces each
comment by blanks.  A comment reaches to the end of its line, and no lexeme that begins in front
of a comment looks at more of it than its two hyphens, so the masked text has the same segments
but for the blanks, each of which is code.

## Main definitions

* `Segment` — a lexeme together with its characters.
* `Lexes before ps` — behind `before`, the text made of these segments is read as them.
* `Veils u u'` — the texts agree up to the first comment of one, which blanks replace in the other.

## Main statements

* `exists_lexes` — every text is a row of segments.
* `maskComments_source` — masking a text blanks out its comments and nothing else.
* `commentFree_masked` — a masked text holds no comment.
-/

namespace CanonicalVhdl.Text

open Token

/-- The characters of a lexeme. -/
structure Segment where
  /-- Whether the lexeme is a comment. -/
  isComment : Bool
  /-- Its characters. -/
  text : Text

/-- What masking shows of a segment: one blank for each byte of a comment. -/
def Segment.shown (p : Segment) : Text :=
  if p.isComment then blanked p.text else p.text

/-- The text made of some segments. -/
def source (ps : List Segment) : Text :=
  ps.flatMap Segment.text

/-- The text made of some segments, with their comments blanked out. -/
def masked (ps : List Segment) : Text :=
  ps.flatMap Segment.shown

@[simp] theorem source_nil : source [] = [] := rfl

@[simp] theorem source_cons (p : Segment) (ps : List Segment) :
    source (p :: ps) = p.text ++ source ps :=
  List.flatMap_cons

@[simp] theorem masked_code (x : Text) (ps : List Segment) :
    masked (⟨false, x⟩ :: ps) = x ++ masked ps :=
  List.flatMap_cons

@[simp] theorem masked_comment (x : Text) (ps : List Segment) :
    masked (⟨true, x⟩ :: ps) = blanked x ++ masked ps :=
  List.flatMap_cons

/-- Behind the character `before`, the text made of these segments is read as them. -/
inductive Lexes : Option Char → List Segment → Prop
  /-- Nothing is left. -/
  | nil {before : Option Char} : Lexes before []
  /-- A character of code comes first. -/
  | code {before : Option Char} {c : Char} {ps : List Segment}
      (hat : Lexeme.at before (c :: source ps) = .code) (h : Lexes (some c) ps) :
      Lexes before (⟨false, [c]⟩ :: ps)
  /-- A literal comes first. -/
  | literal {before : Option Char} {c : Char} {x : Text} {ps : List Segment}
      (hat : Lexeme.at before (c :: (x ++ source ps)) = .literal (x.length + 1))
      (h : Lexes (lastOr (some c) x) ps) : Lexes before (⟨false, c :: x⟩ :: ps)
  /-- A comment comes first. -/
  | comment {before : Option Char} {c : Char} {x : Text} {ps : List Segment}
      (hat : Lexeme.at before (c :: (x ++ source ps)) = .comment (x.length + 1))
      (h : Lexes (lastOr (some c) x) ps) : Lexes before (⟨true, c :: x⟩ :: ps)

/-- Every text is a row of segments. -/
theorem exists_lexes (n : Nat) : ∀ (t : Text) (before : Option Char), t.length ≤ n →
    ∃ ps, Lexes before ps ∧ source ps = t := by
  induction n with
  | zero =>
    intro t before ht
    rw [List.eq_nil_of_length_eq_zero (Nat.le_zero.1 ht)]
    exact ⟨[], .nil, rfl⟩
  | succ n ih =>
    intro t before ht
    cases t with
    | nil => exact ⟨[], .nil, rfl⟩
    | cons c t =>
      rw [List.length_cons] at ht
      obtain hat | ⟨x, r, rfl, hat | hat⟩ := at_split before c t
      · obtain ⟨ps, h, rfl⟩ := ih t (some c) (by omega)
        exact ⟨⟨false, [c]⟩ :: ps, .code hat h, rfl⟩
      · rw [List.length_append] at ht
        obtain ⟨ps, h, rfl⟩ := ih r (lastOr (some c) x) (by omega)
        exact ⟨⟨true, c :: x⟩ :: ps, .comment hat h, rfl⟩
      · rw [List.length_append] at ht
        obtain ⟨ps, h, rfl⟩ := ih r (lastOr (some c) x) (by omega)
        exact ⟨⟨false, c :: x⟩ :: ps, .literal hat h, rfl⟩

section Rows

variable {before : Option Char} {ps : List Segment}

/-! ## What masking does -/

theorem Lexes.maskFrom_source (h : Lexes before ps) :
    maskFrom [] false 0 before (source ps) = masked ps := by
  induction h with
  | nil => rfl
  | @code before c ps hat h ih =>
    rw [source_cons, List.singleton_append, maskFrom_code hat, ih, masked_code]
    rfl
  | @literal before c x ps hat h ih =>
    rw [source_cons, List.cons_append, maskFrom_literal hat, ih, masked_code]
    rfl
  | @comment before c x ps hat h ih =>
    rw [source_cons, List.cons_append, maskFrom_comment hat, ih, masked_comment]

/-- **Masking blanks out the comments** of a text, and nothing else. -/
theorem maskComments_source (h : Lexes none ps) : maskComments (source ps) = masked ps :=
  h.maskFrom_source

theorem byteLength_masked (ps : List Segment) : byteLength (masked ps) = byteLength (source ps) := by
  induction ps with
  | nil => rfl
  | cons p ps ih =>
    obtain ⟨isComment, x⟩ := p
    cases isComment with
    | true => rw [masked_comment, source_cons, byteLength_append, byteLength_append, ih,
        ListEntry.byteLength_blanked]
    | false => rw [masked_code, source_cons, byteLength_append, byteLength_append, ih]

/-- The characters of a comment, and what follows it. -/
theorem eq_of_at_comment {c : Char} {x r : Text}
    (hat : Lexeme.at before (c :: (x ++ r)) = .comment (x.length + 1)) :
    ∃ y, c = '-' ∧ x = '-' :: y ∧ '\n' ∉ y ∧ AtLineEnd r := by
  obtain ⟨y, r', heq, hlen, hy, hr⟩ := exists_comment hat
  obtain ⟨rfl, htail⟩ := List.cons.inj heq
  have hlength : x.length = ('-' :: y).length := by
    rw [List.length_cons]
    omega
  obtain ⟨rfl, rfl⟩ := List.append_inj (show x ++ r = ('-' :: y) ++ r' from htail) hlength
  exact ⟨y, rfl, rfl, hy, hr⟩

/-- The first character of a literal. -/
theorem eq_of_at_literal {c : Char} {t : Text} {n : Nat} (hat : Lexeme.at before (c :: t) = .literal n) :
    c = '"' ∨ c = '\'' := by
  rw [Lexeme.at_cons] at hat
  split_ifs at hat with hhyphens hquote htick
  · exact .inl hquote
  · exact .inr htick.1

/-! ## The beginning of a masked text -/

/-- The texts agree up to the first comment of one, which blanks replace in the other. -/
inductive Veils : Text → Text → Prop
  /-- There is no comment. -/
  | nil : Veils [] []
  /-- A character in front of the comment. -/
  | cons (c : Char) {u u' : Text} (h : Veils u u') : Veils (c :: u) (c :: u')
  /-- The comment. -/
  | comment (w w' : Text) : Veils ('-' :: '-' :: w) (' ' :: ' ' :: w')

theorem Veils.append {u u' : Text} (h : Veils u u') (x : Text) : Veils (x ++ u) (x ++ u') := by
  induction x with
  | nil => exact h
  | cons c x ih => exact .cons c ih

theorem Lexes.veils (h : Lexes before ps) : Veils (source ps) (masked ps) := by
  induction h with
  | nil => exact .nil
  | code hat h ih =>
    rw [source_cons, masked_code]
    exact ih.append _
  | literal hat h ih =>
    rw [source_cons, masked_code]
    exact ih.append _
  | @comment before c x ps hat h ih =>
    obtain ⟨y, rfl, rfl, -, -⟩ := eq_of_at_comment hat
    have hhyphen : List.replicate '-'.utf8Size ' ' = [' '] := by decide
    rw [source_cons, masked_comment, blanked_cons, blanked_cons, hhyphen]
    exact .comment _ _

/-- A character of code stays one in front of blanks in place of a comment. -/
theorem Veils.at_code {u u' : Text} (h : Veils u u') {c : Char}
    (hat : Lexeme.at before (c :: u) = .code) : Lexeme.at before (c :: u') = .code := by
  rw [Lexeme.at_cons] at hat ⊢
  split_ifs at hat with hhyphens hquote htick
  -- a tick opens a literal only in front of another tick, and neither text has one there
  cases h with
  | nil => simp [hquote]
  | comment w w' => simp [hquote]
  | cons d h =>
    have hd : ¬ (c = '-' ∧ d = '-') := by simpa using hhyphens
    cases h with
    | nil => simp [hquote, hd]
    | comment w w' => simp [hquote, hd]
    | cons e h => rw [if_neg (by simpa using hhyphens), if_neg hquote, if_neg (by simpa using htick)]

/-- A quoted literal that ends in front of a character of its line is closed, so that any other
character but a quotation mark may follow it. -/
theorem quotedLength_closed {d : Char} {r v : Text} (hquote : d ≠ '"') (hline : d ≠ '\n')
    (hv : v.head? ≠ some '"') (n : Nat) (x : Text)
    (h : Lexeme.quotedLength n (x ++ d :: r) = n + x.length) :
    Lexeme.quotedLength n (x ++ v) = n + x.length := by
  fun_induction Lexeme.quotedLength n x with
  | case1 n rest ih =>
    simp only [List.cons_append, Lexeme.quotedLength, List.length_cons] at h ⊢
    rw [ih (by omega)]
    omega
  | case2 n rest hrest =>
    cases rest with
    | nil =>
      cases v with
      | nil => rfl
      | cons e v =>
        have he : e ≠ '"' := fun he => hv (by rw [he]; rfl)
        simp [Lexeme.quotedLength, he]
    | cons e rest =>
      have he : e ≠ '"' := fun he => hrest rest (by rw [he])
      simp [Lexeme.quotedLength, he] at h
  | case3 n rest => simp [Lexeme.quotedLength] at h
  | case4 n c rest h1 h2 h3 ih =>
    have hq : c ≠ '"' := h2
    have hn : c ≠ '\n' := h3
    have hstep : ∀ u, Lexeme.quotedLength n (c :: u) = Lexeme.quotedLength (n + 1) u := by
      intro u
      rw [Lexeme.quotedLength]
      · exact fun _ hc => absurd hc hq
      · exact hq
      · exact hn
    rw [List.cons_append, hstep, List.length_cons] at h ⊢
    rw [ih (by omega)]
    omega
  | case5 n =>
    have hle := le_quotedLength (n + 1) r
    rw [List.nil_append, Lexeme.quotedLength, List.length_nil] at h
    · omega
    · exact fun _ hd => absurd hd hquote
    · exact hquote
    · exact hline

/-- A literal stays one in front of blanks in place of a comment. -/
theorem Veils.at_literal {u u' : Text} (h : Veils u u') {c : Char} {x : Text}
    (hat : Lexeme.at before (c :: (x ++ u)) = .literal (x.length + 1)) :
    Lexeme.at before (c :: (x ++ u')) = .literal (x.length + 1) := by
  cases h with
  | nil => exact hat
  | cons d h => exact literal_stable hat _
  | comment w w' =>
    rw [Lexeme.at_cons] at hat ⊢
    split_ifs at hat with hhyphens hquote htick
    · have hlen := Lexeme.literal.inj hat
      have hclosed := quotedLength_closed (d := '-') (r := '-' :: w) (v := ' ' :: ' ' :: w')
        (by decide) (by decide) (by simp) 1 x (by omega)
      rw [if_neg (by simp [hquote]), if_pos hquote, hclosed, Nat.add_comm]
    · -- both ticks stand in front of the comment
      obtain ⟨e, f, rfl⟩ := List.length_eq_two.1 (Nat.succ.inj (Lexeme.literal.inj hat)).symm
      rw [if_neg (by simp [htick.1]), if_neg hquote, if_pos (by simpa using htick)]
      rfl

/-! ## Masked texts -/

/-- Plain code in front of a text adds no comment. -/
theorem commentFree_plain_append {s t : Text} (hs : s.all isPlain = true) :
    ∀ {before : Option Char}, CommentFree (lastOr before s) t → CommentFree before (s ++ t) := by
  induction s with
  | nil => exact fun h => h
  | cons c s ih =>
    intro before h
    rw [List.all_cons, Bool.and_eq_true] at hs
    rw [lastOr_cons] at h
    exact (commentFree_cons_code (at_plain before hs.1 _)).2 (ih hs.2 h)

theorem all_isPlain_blanked (x : Text) : (blanked x).all isPlain = true := by
  rw [List.all_eq_true]
  intro c hc
  rw [List.eq_of_mem_replicate hc]
  decide

/-- What precedes a text matters only when it starts with a tick. -/
theorem at_congr {b : Option Char} {c : Char} {t : Text}
    (hb : c = '\'' → Lexeme.bindsTick before = Lexeme.bindsTick b) :
    Lexeme.at b (c :: t) = Lexeme.at before (c :: t) := by
  rw [Lexeme.at_cons, Lexeme.at_cons]
  by_cases hc : c = '\''
  · rw [hb hc]
  · simp [hc]

/-- The character before a text, or any other one in front of a line end. -/
def EntersAlike (before b : Option Char) (t : Text) : Prop :=
  b = before ∨ AtLineEnd t

theorem EntersAlike.at {b : Option Char} {c : Char} {t : Text} (h : EntersAlike before b (c :: t)) :
    Lexeme.at b (c :: t) = Lexeme.at before (c :: t) := by
  rcases h with rfl | hline
  · rfl
  · obtain rfl : c = '\n' := hline c rfl
    exact at_congr fun hc => absurd hc (by decide)

/-- **A masked text holds no comment.**  Behind the blanks of a comment its line ends, and so it
does not matter that they are blanks. -/
theorem Lexes.commentFree_masked (h : Lexes before ps) :
    ∀ {b : Option Char}, EntersAlike before b (source ps) → CommentFree b (masked ps) := by
  induction h with
  | nil => exact fun _ => rfl
  | @code before c ps hat h ih =>
    intro b hb
    rw [masked_code, List.singleton_append]
    rw [source_cons, List.singleton_append] at hb
    rw [← hb.at] at hat
    exact (commentFree_cons_code (h.veils.at_code hat)).2 (ih (.inl rfl))
  | @literal before c x ps hat h ih =>
    intro b hb
    rw [masked_code, List.cons_append]
    rw [source_cons, List.cons_append] at hb
    rw [← hb.at] at hat
    exact (commentFree_cons_literal (h.veils.at_literal hat)).2 (ih (.inl rfl))
  | @comment before c x ps hat h ih =>
    intro b _
    obtain ⟨-, -, -, -, hline⟩ := eq_of_at_comment hat
    rw [masked_comment]
    exact commentFree_plain_append (all_isPlain_blanked _) (ih (.inr hline))

theorem commentStart?_maskComments (t : Text) : commentStart? (maskComments t) = none := by
  obtain ⟨ps, h, rfl⟩ := exists_lexes t.length t none (Nat.le_refl _)
  rw [maskComments_source h]
  exact h.commentFree_masked (.inl rfl)

theorem maskComments_idem (t : Text) : maskComments (maskComments t) = maskComments t :=
  maskComments_eq_self (commentStart?_maskComments t)

theorem byteLength_maskComments (t : Text) : byteLength (maskComments t) = byteLength t := by
  obtain ⟨ps, h, rfl⟩ := exists_lexes t.length t none (Nat.le_refl _)
  rw [maskComments_source h, byteLength_masked]

end Rows

end CanonicalVhdl.Text
