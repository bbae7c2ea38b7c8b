import CanonicalVhdl.Proofs.Bytewise.Lexeme
import CanonicalVhdl.Proofs.Comment.Stripped
import CanonicalVhdl.Proofs.Search.Separator

/-!
# Comments in the bytes of a text

A comment starts with two hyphens and ends where its line ends.  Neither lies inside a character, so
a text can be cut at both.

## Main definitions

* `Bytewise.commentStart` — the offset of the first comment.
* `Bytewise.stripComments`, `Bytewise.maskComments` — a text without comments, or with blanks in
  their place.
* `Bytewise.splitTrailing` — a line and its comment.

## Main statements

* `Bytewise.commentStart_eq`, `Bytewise.stripComments_eq`, `Bytewise.maskComments_eq`,
  `Bytewise.splitTrailing_eq` — the bytes answer what the characters answer.
-/

namespace CanonicalVhdl.Bytewise

open Text Token

/-! ## The first comment -/

/-- One turn of the search for a comment. -/
def commentTurn (bs : List UInt8) (_ : Unit) (i : Nat) : Checked (Turn Unit (Option Nat)) := do
  let (_, lexeme) ← lexemeAt bs i
  match lexeme with
  | .comment _ => return .done (some i)
  | .literal n => return .next () (i + n)
  | .code => return .next () (i + 1)

/-- The offset of the first comment. -/
def commentStart (t : Text) : Checked (Option Nat) :=
  loop (byteLength t) (commentTurn (bytes t)) (fun _ _ => return none) () 0

section Starts

variable {before : Option Char} {ps : List Segment}

theorem commentStart_lexes (h : Lexes before ps) :
    ∀ a : Text, a.getLast? = before →
      loop (byteLength (a ++ source ps)) (commentTurn (bytes (a ++ source ps))) (fun _ _ => return none) ()
          (byteLength a)
        = .ok ((commentFrom? 0 a.length before (source ps)).map (offset (a ++ source ps))) := by
  induction h with
  | nil =>
    intro a _
    rw [source_nil, List.append_nil, loop_end (Nat.le_refl _)]
    rfl
  | @code before c ps hat h ih =>
    rintro a rfl
    have hturn : ∀ k < c.utf8Size, commentTurn (bytes (a ++ c :: source ps)) () (byteLength a + k)
        = .ok (.next () (byteLength a + k + 1)) := by
      intro k hk
      obtain ⟨b, -, -, hlexeme⟩ := lexemeAt_code hat hk
      rw [commentTurn, hlexeme]
      rfl
    have hrest := ih (a ++ [c]) List.getLast?_concat
    rw [List.append_assoc, List.singleton_append, List.length_append, List.length_singleton] at hrest
    rw [source_cons, List.singleton_append, loop_char a c _ hturn, hrest, commentFrom?, hat]
  | @literal before c x ps hat h ih =>
    rintro a rfl
    have hturn : commentTurn (bytes (a ++ (c :: x ++ source ps))) () (byteLength a)
        = .ok (.next () (byteLength (a ++ c :: x))) := by
      rw [commentTurn, lexemeAt_literal hat, byteLength_append]
      rfl
    have hrest := ih (a ++ c :: x) (by rw [← lastOr_getLast?, lastOr_cons])
    rw [List.append_assoc, List.length_append, List.length_cons, ← Nat.add_assoc] at hrest
    rw [source_cons, loop_place _ (List.cons_ne_nil c x) hturn, hrest, List.cons_append, commentFrom?, hat]
    simp only [Nat.add_sub_cancel, commentFrom?_skip, Nat.add_right_comm]
  | @comment before c x ps hat h ih =>
    rintro a rfl
    have hturn : commentTurn (bytes (a ++ (c :: x ++ source ps))) () (byteLength a)
        = .ok (.done (some (byteLength a))) := by
      rw [commentTurn, lexemeAt_comment hat]
      rfl
    rw [source_cons, List.cons_append] at *
    rw [loop_answer _ hturn, commentFrom?, hat, Option.map_some, offset_length]

/-- **The bytes start a comment where the characters start it.** -/
theorem commentStart_eq (t : Text) : commentStart t = .ok ((commentStart? t).map (offset t)) := by
  obtain ⟨ps, h, rfl⟩ := exists_lexes t.length t none (Nat.le_refl _)
  exact commentStart_lexes h [] rfl

/-- A text is cut in two at its first comment. -/
theorem exists_of_commentStart? {t : Text} {i : Nat} (h : commentStart? t = some i) :
    ∃ s u, t = s ++ '-' :: '-' :: u ∧ i = s.length := by
  obtain ⟨s, u, ht, hi⟩ := eq_of_commentFrom? h
  exact ⟨s, u, ht, by rw [hi, Nat.zero_add]⟩

end Starts

/-! ## Texts without comments -/

/-- The code of a line, without blanks at its end. -/
def codeOfLine (line : Text) : Checked Text := do
  match ← commentStart line with
  | some n => return trimEnd (← part line 0 n)
  | none => return trimEnd line

/-- Adds the code of lines to a text. -/
def stripFrom (out : Text) : List Text → Checked Text
  | [] => return out
  | line :: rest => do
    let code ← codeOfLine line
    if (trimStart code).isEmpty then stripFrom out rest
    else stripFrom (if out.isEmpty then code else out ++ '\n' :: code) rest

/-- Removes comments, blanks at the ends of lines, and lines left blank. -/
def stripComments (t : Text) : Checked Text :=
  stripFrom [] (lines t)

/-- The text without its comments; a text that has none stays as it is. -/
def withoutComments (t : Text) : Checked Text := do
  match ← commentStart t with
  | some _ => stripComments t
  | none => return t

/-- A line without the comment that ends it, and the text of that comment. -/
def splitTrailing (line : Text) : Checked (Text × Option Text) := do
  match ← commentStart line with
  | some n =>
    let code ← part line 0 n
    let comment ← part line (n + 2) (byteLength line)
    return (trimEnd code, some (trimEnd comment))
  | none => return (trimEnd line, none)

section Lines

theorem codeOfLine_eq (line : Text) : codeOfLine line = .ok (lineCode line) := by
  rw [codeOfLine, commentStart_eq, lineCode]
  cases h : commentStart? line with
  | none => rfl
  | some i =>
    obtain ⟨s, u, rfl, rfl⟩ := exists_of_commentStart? h
    rw [Option.map_some, offset_length]
    simp only [bind, Except.bind, part_front, Option.elim_some, List.take_left]
    rfl

/-- A text without blanks at its end that holds only blanks is empty. -/
theorem isEmpty_trimStart_trimEnd (t : Text) : (trimStart (trimEnd t)).isEmpty = (trimEnd t).isEmpty := by
  rw [Bool.eq_iff_iff, List.isEmpty_iff, List.isEmpty_iff]
  constructor
  · intro h
    rw [trimStart, List.dropWhile_eq_nil_iff] at h
    by_contra hne
    rw [trimEnd, List.reverse_eq_nil_iff] at hne
    obtain ⟨c, r, hr⟩ := List.exists_cons_of_ne_nil hne
    have hlast := List.head?_dropWhile_not isBlank t.reverse
    rw [hr] at hlast
    have hmem : c ∈ trimEnd t := by
      rw [trimEnd, hr]
      simp
    rw [List.head?_cons] at hlast
    simp [h c hmem] at hlast
  · intro h
    rw [h]
    rfl

/-- Two lines that are joined already, and lines behind them. -/
theorem join_join (x y : Text) (rest : List Text) :
    join ['\n'] ((x ++ '\n' :: y) :: rest) = join ['\n'] (x :: y :: rest) := by
  rw [join_cons x (List.cons_ne_nil y rest)]
  by_cases hrest : rest = []
  · subst hrest
    rw [join, List.intercalate_singleton, join, List.intercalate_singleton]
  · rw [join_cons _ hrest, join_cons _ hrest, List.append_assoc, List.cons_append]

theorem stripFrom_eq (rest : List Text) :
    ∀ out : Text, stripFrom out rest
      = .ok (join ['\n'] ((if out.isEmpty then [] else [out])
          ++ (rest.map lineCode).filter fun code => !code.isEmpty)) := by
  induction rest with
  | nil =>
    intro out
    by_cases hout : out = []
    · subst hout
      rfl
    · rw [stripFrom, List.map_nil, List.filter_nil, List.append_nil, if_neg (by simpa using hout), join,
        List.intercalate_singleton]
      rfl
  | cons line rest ih =>
    intro out
    rw [stripFrom, codeOfLine_eq]
    simp only [bind, Except.bind]
    rw [List.map_cons, List.filter_cons, lineCode, isEmpty_trimStart_trimEnd, ← lineCode]
    cases hcode : (lineCode line).isEmpty with
    | true =>
      simp only [Bool.not_true, Bool.false_eq_true, if_true, if_false]
      exact ih out
    | false =>
      simp only [Bool.not_false, Bool.false_eq_true, if_true, if_false]
      rw [ih]
      cases hout : out.isEmpty with
      | true =>
        simp only [hcode, Bool.false_eq_true, if_true, if_false]
        rfl
      | false =>
        have hjoined : (out ++ '\n' :: lineCode line).isEmpty = false := by simp
        simp only [Bool.false_eq_true, if_false, hjoined]
        rw [List.singleton_append, List.singleton_append, join_join]

theorem stripComments_eq (t : Text) : stripComments t = .ok (Text.stripComments t) :=
  stripFrom_eq (lines t) []

theorem withoutComments_eq (t : Text) : withoutComments t = .ok (Text.withoutComments t) := by
  rw [withoutComments, commentStart_eq, Text.withoutComments]
  cases h : commentStart? t with
  | none => rfl
  | some i => exact stripComments_eq t

theorem splitTrailing_eq (line : Text) : splitTrailing line = .ok (Text.splitTrailing line) := by
  rw [splitTrailing, commentStart_eq, Text.splitTrailing]
  cases h : commentStart? line with
  | none => rfl
  | some i =>
    obtain ⟨s, u, rfl, rfl⟩ := exists_of_commentStart? h
    have hback := part_back (s ++ ['-', '-']) u
    rw [List.append_assoc, byteLength_append] at hback
    have hsize : byteLength ['-', '-'] = 2 := rfl
    have hdrop : (s ++ (['-', '-'] ++ u)).drop (s.length + 2) = u := by
      rw [← List.drop_drop, List.drop_left]
      rfl
    rw [hsize] at hback
    rw [Option.map_some, offset_length]
    simp only [bind, Except.bind, part_front, List.take_left]
    rw [show s ++ '-' :: '-' :: u = s ++ (['-', '-'] ++ u) from rfl, hback, hdrop]
    rfl

end Lines

/-! ## Masked texts -/

/-- One turn of masking; the state holds the masked text so far, and the offset up to which it is
made of the text. -/
def maskTurn (t : Text) (state : Text × Nat) (i : Nat) : Checked (Turn (Text × Nat) Text) := do
  let (_, lexeme) ← lexemeAt (bytes t) i
  match lexeme with
  | .comment n =>
    let shown ← part t state.2 i
    return .next (state.1 ++ shown ++ List.replicate n ' ', i + n) (i + n)
  | .literal n => return .next state (i + n)
  | .code => return .next state (i + 1)

/-- Adds the rest of a text to the masked text so far. -/
def maskRest (t : Text) (state : Text × Nat) (_ : Nat) : Checked Text := do
  return state.1 ++ (← part t state.2 (byteLength t))

/-- Replaces every byte of a comment with a blank, so that offsets stay put. -/
def maskComments (t : Text) : Checked Text :=
  loop (byteLength t) (maskTurn t) (maskRest t) ([], 0) 0

section Masks

variable {before : Option Char} {ps : List Segment}

/-- What is shown of a text so far, and not yet copied, is copied before a comment or at the end. -/
theorem maskComments_lexes (h : Lexes before ps) :
    ∀ a shown out : Text, (a ++ shown).getLast? = before →
      loop (byteLength (a ++ shown ++ source ps)) (maskTurn (a ++ shown ++ source ps))
          (maskRest (a ++ shown ++ source ps)) (out, byteLength a) (byteLength (a ++ shown))
        = .ok (out ++ (shown ++ masked ps)) := by
  induction h with
  | nil =>
    intro a shown out _
    rw [source_nil, List.append_nil, loop_end (Nat.le_refl _), maskRest, part_back]
    simp [masked]
  | @code before c ps hat h ih =>
    rintro a shown out rfl
    have hturn : ∀ k < c.utf8Size, maskTurn (a ++ shown ++ c :: source ps) (out, byteLength a)
        (byteLength (a ++ shown) + k)
          = .ok (.next (out, byteLength a) (byteLength (a ++ shown) + k + 1)) := by
      intro k hk
      obtain ⟨b, -, -, hlexeme⟩ := lexemeAt_code hat hk
      rw [maskTurn, hlexeme]
      rfl
    have hrest := ih a (shown ++ [c]) out (by rw [← List.append_assoc, List.getLast?_concat])
    rw [← List.append_assoc, List.append_assoc _ [c], List.singleton_append] at hrest
    rw [source_cons, List.singleton_append, loop_char _ c _ hturn, hrest, masked_code, List.append_assoc]
  | @literal before c x ps hat h ih =>
    rintro a shown out rfl
    have hturn : maskTurn (a ++ shown ++ (c :: x ++ source ps)) (out, byteLength a) (byteLength (a ++ shown))
        = .ok (.next (out, byteLength a) (byteLength (a ++ shown ++ c :: x))) := by
      rw [maskTurn, lexemeAt_literal hat, byteLength_append (a ++ shown)]
      rfl
    have hrest := ih a (shown ++ c :: x) out (by
      rw [← List.append_assoc, ← lastOr_getLast?, lastOr_cons])
    rw [← List.append_assoc, List.append_assoc _ (c :: x)] at hrest
    rw [source_cons, loop_place _ (List.cons_ne_nil c x) hturn, hrest, masked_code, List.append_assoc]
  | @comment before c x ps hat h ih =>
    rintro a shown out rfl
    have hpart : part (a ++ shown ++ (c :: x ++ source ps)) (byteLength a) (byteLength (a ++ shown))
        = .ok shown := by
      rw [List.append_assoc, part_between]
    have hturn : maskTurn (a ++ shown ++ (c :: x ++ source ps)) (out, byteLength a) (byteLength (a ++ shown))
        = .ok (.next (out ++ shown ++ blanked (c :: x), byteLength (a ++ shown ++ c :: x))
          (byteLength (a ++ shown ++ c :: x))) := by
      rw [maskTurn, lexemeAt_comment hat, byteLength_append (a ++ shown)]
      simp only [bind, Except.bind, hpart]
      rfl
    have hrest := ih (a ++ shown ++ c :: x) [] (out ++ shown ++ blanked (c :: x)) (by
      rw [List.append_nil, ← lastOr_getLast?, lastOr_cons])
    rw [List.append_nil, List.append_assoc _ (c :: x), List.nil_append] at hrest
    rw [source_cons, loop_place _ (List.cons_ne_nil c x) hturn, hrest, masked_comment]
    simp only [List.append_assoc]

/-- **The bytes of comments become blanks.** -/
theorem maskComments_eq (t : Text) : maskComments t = .ok (Text.maskComments t) := by
  obtain ⟨ps, h, rfl⟩ := exists_lexes t.length t none (Nat.le_refl _)
  rw [maskComments_source h]
  exact maskComments_lexes h [] [] [] rfl

end Masks

end CanonicalVhdl.Bytewise
