import CanonicalVhdl.Proofs.Region.Pieces

/-!
# Comments behind the code of a line

The lines of a list between parentheses may end with comments, and a comment may hold
any characters but line ends: parentheses, separators and quotation marks among them.
Searches pass over a comment whatever it holds, and masking replaces it with as many
blanks as it has bytes.

## Main definitions

* `remark` — a comment with the blank before it.
* `IsCommented l` — a line of tokens, perhaps with a comment behind them.

## Main statements

* `scan_stack`, `extentFrom_stack` — lines below each other are passed over.
* `maskFrom_render`, `maskFrom_remark` — what masking leaves of tokens and of comments.
-/

namespace CanonicalVhdl

open Text Token

/-- A comment with the blank before it. -/
def remark : Option Comment → Text
  | none => []
  | some c => ' ' :: c.line

theorem Comment.append_eq (t : Text) (comment : Option Comment) :
    Comment.append t comment = t ++ remark comment := by
  cases comment with
  | none => exact (List.append_nil t).symm
  | some c => rfl

/-- Whether a comment, if there is one, takes one line. -/
def IsRemark (comment : Option Comment) : Prop :=
  ∀ c ∈ comment, IsCommentText c.text

theorem IsRemark.newline_not_mem {comment : Option Comment} (h : IsRemark comment) :
    '\n' ∉ remark comment := by
  cases comment with
  | none => exact List.not_mem_nil
  | some c =>
    have hc := (h c rfl).newline_not_mem
    simp only [remark, Comment.line, List.mem_cons, not_or]
    exact ⟨by decide, by decide, by decide, hc⟩

/-- What follows a comment is the end of the line, and what precedes it ends a phrase. -/
theorem closes_remark (comment : Option Comment) {u : Text} (hu : AtLineEnd u) :
    Closes (remark comment ++ u).head? := by
  cases comment with
  | none => simpa [remark] using hu.closes (show Closes none from rfl)
  | some c => rfl

/-! ## Searches -/

section Searches

variable {position depth : Nat} {before : Option Char} {comment : Option Comment} {u : Text}

/-- The blank before a comment is code. -/
theorem at_blank_code (before : Option Char) (u : Text) : Lexeme.at before (' ' :: u) = .code :=
  at_code (by decide) (fun h => absurd h (by decide)) (fun h => absurd h (by decide))

theorem at_remark {c : Comment} (hc : '\n' ∉ c.text) (hu : AtLineEnd u) (before : Option Char) :
    Lexeme.at before ('-' :: (('-' :: c.text) ++ u)) = .comment (('-' :: c.text).length + 1) :=
  at_comment hc hu before

/-- The scan for the end of a statement passes over a comment. -/
theorem extentFrom_remark {parens : Nat} {s : Nesting} (h : ∀ c ∈ comment, '\n' ∉ c.text)
    (hu : AtLineEnd u) :
    extentFrom parens s 0 position before (remark comment ++ u)
      = extentFrom parens s 0 (position + (remark comment).length) (lastOr before (remark comment))
          u := by
  cases comment with
  | none => rfl
  | some c =>
    have hblank : extentFrom parens s 0 position before (' ' :: '-' :: (('-' :: c.text) ++ u))
        = extentFrom parens s 0 (position + 1) (some ' ') ('-' :: (('-' :: c.text) ++ u)) :=
      extentFrom_pad isPad_blank _
    show extentFrom parens s 0 position before (' ' :: '-' :: (('-' :: c.text) ++ u)) = _
    rw [hblank, extentFrom_comment (at_remark (h c rfl) hu _)]
    congr 1
    simp only [remark, Comment.line, List.length_cons]
    omega

/-- The search for a closing parenthesis passes over a comment. -/
theorem closeFrom_remark {state : Option (Nat × Nat)} (h : IsRemark comment) (hu : AtLineEnd u) :
    closeFrom state position depth before (remark comment ++ u)
      = closeFrom state (position + (remark comment).length) depth (lastOr before (remark comment))
          u := by
  cases comment with
  | none => rfl
  | some c =>
    show closeFrom state position depth before (' ' :: '-' :: (('-' :: c.text) ++ u)) = _
    rw [closeFrom_code state position depth (at_blank_code before _) (by decide) (by decide),
      closeFrom, codePointsFrom_comment _ _ (at_remark (h c rfl).newline_not_mem hu _), closeFrom]
    congr 2
    simp only [remark, Comment.line, List.length_cons]
    omega

/-- A search outside parentheses finds nothing in a comment. -/
theorem hitsFrom_remark {patterns : List Text} (hp : ∀ p ∈ patterns, IsPattern p)
    (h : IsRemark comment) (hu : AtLineEnd u) :
    hitsFrom patterns position 0 before (remark comment ++ u)
      = hitsFrom patterns (position + (remark comment).length) 0 (lastOr before (remark comment))
          u := by
  cases comment with
  | none => rfl
  | some c =>
    show hitsFrom patterns position 0 before (' ' :: '-' :: (('-' :: c.text) ++ u)) = _
    rw [hitsFrom_code patterns position 0 (at_blank_code before _),
      hitAt_eq_nil (fun p hm => standsAt_other (hp p hm) _ (by decide) (by decide)),
      List.nil_append, hitsFrom]
    show List.filterMap _ (codePointsFrom [] 0 (position + 1) 0 (some ' ')
      ('-' :: (('-' :: c.text) ++ u))) = _
    rw [codePointsFrom_comment _ _ (at_remark (h c rfl).newline_not_mem hu _), hitsFrom]
    congr 2
    simp only [remark, Comment.line, List.length_cons]
    omega

end Searches

/-! ## Lines between parentheses -/

/-- A line of tokens, perhaps with a comment behind them. -/
def IsCommented (l : Text) : Prop :=
  ∃ ts comment, IsPhrase ts ∧ IsRemark comment ∧ l = render ts ++ remark comment

theorem opens_lineBreak (k : Nat) (before : Option Char) : Opens (lastOr before (lineBreak k)) := by
  have hpad : IsPad (List.replicate (4 * k) ' ') := fun c hc => .inl (List.eq_of_mem_replicate hc)
  rw [lineBreak, lastOr_cons]
  exact hpad.opens (by rfl)

/-- A scan that passes over line breaks and over lines passes over lines below each other. -/
theorem scan_stack {β : Type} {F : Nat → Option Char → Text → β}
    (hbreak : ∀ k u position before, F position before (lineBreak k ++ u)
      = F (position + (lineBreak k).length) (lastOr before (lineBreak k)) u)
    {ls : List Text} (hline : ∀ l ∈ ls, ∀ u position before, Opens before → AtLineEnd u →
      F position before (l ++ u) = F (position + l.length) (lastOr before l) u)
    (k : Nat) {u : Text} (hu : AtLineEnd u) :
    ∀ position before, F position before (stack k ls ++ u)
      = F (position + (stack k ls).length) (lastOr before (stack k ls)) u := by
  induction ls with
  | nil => exact fun _ _ => rfl
  | cons l ls ih =>
    intro position before
    rw [stack_cons, List.append_assoc, List.append_assoc, hbreak,
      hline l List.mem_cons_self _ _ _ (opens_lineBreak k before) (atLineEnd_stack k ls hu),
      ih fun l hl => hline l (List.mem_cons_of_mem _ hl)]
    simp only [lastOr_append, List.length_append, Nat.add_assoc]

/-- Inside parentheses the scan for the end of a statement passes over lines. -/
theorem extentFrom_stack {ls : List Text} (h : ∀ l ∈ ls, IsCommented l) (k : Nat) {u : Text}
    (hu : AtLineEnd u) (parens : Nat) (s : Nesting) (position : Nat) (before : Option Char) :
    extentFrom (parens + 1) s 0 position before (stack k ls ++ u)
      = extentFrom (parens + 1) s 0 (position + (stack k ls).length) (lastOr before (stack k ls))
          u := by
  refine scan_stack (F := extentFrom (parens + 1) s 0) (fun k u _ _ =>
    extentFrom_pad (isPad_lineBreak k) u) ?_ k hu position before
  intro l hl u position before hbefore hu
  obtain ⟨ts, comment, hts, hcomment, rfl⟩ := h l hl
  have hfit := hts before _ hbefore (closes_remark comment hu)
  rw [List.append_assoc, extentFrom_innerAll s ts _ parens position before hfit,
    extentFrom_remark (fun c hc => (hcomment c hc).newline_not_mem) hu, lastOr_append, List.length_append,
    Nat.add_assoc]

/-! ## Masking -/

/-- What masking was given comes first. -/
theorem maskFrom_reverse (masked : Text) (hide : Bool) (skip : Nat) (before : Option Char)
    (t : Text) :
    maskFrom masked hide skip before t = masked.reverse ++ maskFrom [] hide skip before t := by
  induction t generalizing masked hide skip before with
  | nil => simp [maskFrom]
  | cons c t ih =>
    cases skip with
    | succ skip =>
      cases hide with
      | true =>
        simp only [maskFrom, if_true]
        rw [ih, ih (_ ++ [])]
        simp
      | false =>
        simp only [maskFrom, Bool.false_eq_true, if_false]
        rw [ih, ih [c]]
        simp
    | zero =>
      simp only [maskFrom]
      split
      · rw [ih, ih (_ ++ [])]
        simp
      · rw [ih, ih [c]]
        simp
      · rw [ih, ih [c]]
        simp

/-- As many blanks as a text has bytes. -/
def blanked (x : Text) : Text :=
  List.replicate (byteLength x) ' '

@[simp] theorem blanked_cons (c : Char) (x : Text) :
    blanked (c :: x) = List.replicate c.utf8Size ' ' ++ blanked x := by
  rw [blanked, byteLength_cons, List.replicate_add]
  rfl

/-- A lexeme that is shown stays as it is, one that is hidden becomes blanks. -/
theorem maskFrom_skip (hide : Bool) (x u : Text) (before : Option Char) :
    maskFrom [] hide x.length before (x ++ u)
      = (if hide then blanked x else x) ++ maskFrom [] hide 0 (lastOr before x) u := by
  induction x generalizing before with
  | nil => cases hide <;> rfl
  | cons c x ih =>
    rw [List.length_cons, List.cons_append, maskFrom, maskFrom_reverse, ih, lastOr_cons]
    cases hide with
    | true => simp
    | false => rfl

/-- Between lexemes nothing is hidden. -/
theorem maskFrom_hide (masked : Text) (hide : Bool) (before : Option Char) (t : Text) :
    maskFrom masked hide 0 before t = maskFrom masked false 0 before t := by
  cases t <;> rfl

theorem maskFrom_code {before : Option Char} {c : Char} {u : Text}
    (h : Lexeme.at before (c :: u) = .code) :
    maskFrom [] false 0 before (c :: u) = c :: maskFrom [] false 0 (some c) u := by
  rw [maskFrom, h]
  exact maskFrom_reverse [c] false 0 (some c) u

theorem maskFrom_literal {before : Option Char} {c : Char} {x u : Text}
    (h : Lexeme.at before (c :: (x ++ u)) = .literal (x.length + 1)) :
    maskFrom [] false 0 before (c :: (x ++ u))
      = c :: (x ++ maskFrom [] false 0 (lastOr (some c) x) u) := by
  rw [maskFrom, h]
  simp only [Nat.add_sub_cancel]
  rw [maskFrom_reverse, maskFrom_skip]
  rfl

theorem maskFrom_pass {u : Text} :
    ∀ (x : Text) (before : Option Char),
      (∀ a c b, x = a ++ c :: b → Lexeme.at (lastOr before a) (c :: (b ++ u)) = .code) →
      maskFrom [] false 0 before (x ++ u) = x ++ maskFrom [] false 0 (lastOr before x) u
  | [], _, _ => rfl
  | c :: x, before, h => by
    have hcode := h [] c x rfl
    rw [lastOr_nil] at hcode
    rw [List.cons_append, maskFrom_code hcode, maskFrom_pass x _ fun a d b hx => by
      have := h (c :: a) d b (by rw [hx]; rfl)
      rwa [lastOr_cons] at this, lastOr_cons]
    rfl

namespace Token

mutual

/-- Masking leaves a token as it is. -/
theorem maskFrom_token :
    ∀ (token : Token) (u : Text) (before : Option Char), token.Fits before u.head? →
      maskFrom [] false 0 before (token.text ++ u)
        = token.text ++ maskFrom [] false 0 (lastOr before token.text) u
  | .word w, u, before, h =>
    maskFrom_pass _ _ fun a c b hx => (h.code rfl (by simp) (by simp) (by simp) hx).1
  | .number digits, u, before, h =>
    maskFrom_pass _ _ fun a c b hx => (h.code rfl (by simp) (by simp) (by simp) hx).1
  | .symbol s, u, before, h =>
    maskFrom_pass _ _ fun a c b hx => (h.code rfl (by simp) (by simp) (by simp) hx).1
  | .mark c, u, before, h =>
    maskFrom_pass _ _ fun a c b hx => (h.code rfl (by simp) (by simp) (by simp) hx).1
  | .quoted body, u, before, h => by
    have hat : Lexeme.at before ('"' :: ((body ++ ['"']) ++ u))
        = .literal ((body ++ ['"']).length + 1) := by simpa using at_quoted h rfl
    rw [text_quoted, List.cons_append, maskFrom_literal hat, lastOr_cons]
    rfl
  | .ticked c, u, before, h => by
    have hat : Lexeme.at before ('\'' :: ([c, '\''] ++ u)) = .literal 3 := at_ticked u h
    exact maskFrom_literal hat
  | .group inner, u, before, h => by
    rw [text_group, List.cons_append, List.append_assoc, List.singleton_append,
      maskFrom_code (at_open _), maskFrom_tokens inner _ _ (by exact h), maskFrom_code (at_close _),
      lastOr_cons, lastOr_append]
    simp

/-- Masking leaves a sequence of tokens as it is. -/
theorem maskFrom_tokens :
    ∀ (tokens : List Token) (u : Text) (before : Option Char), FitAll before tokens u.head? →
      maskFrom [] false 0 before (render tokens ++ u)
        = render tokens ++ maskFrom [] false 0 (lastOr before (render tokens)) u
  | [], _, _, _ => rfl
  | token :: tokens, u, before, h => by
    obtain ⟨ht, hts⟩ := h
    rw [firstOr, ← List.head?_append] at ht
    rw [render_cons, List.append_assoc, maskFrom_token token _ _ ht, maskFrom_tokens tokens _ _ hts,
      lastOr_append, List.append_assoc]

end

end Token

/-- Masking replaces a comment with blanks. -/
theorem maskFrom_remark {comment : Option Comment} {u : Text} (h : IsRemark comment)
    (hu : AtLineEnd u) (before : Option Char) :
    maskFrom [] false 0 before (remark comment ++ u)
      = blanked (remark comment)
        ++ maskFrom [] false 0 (lastOr before (remark comment)) u := by
  cases comment with
  | none => rfl
  | some c =>
    have hcomment : maskFrom [] false 0 (some ' ') ('-' :: (('-' :: c.text) ++ u))
        = blanked ('-' :: '-' :: c.text)
          ++ maskFrom [] false 0 (lastOr (some '-') ('-' :: c.text)) u := by
      rw [maskFrom, at_remark (h c rfl).newline_not_mem hu]
      simp only [Nat.add_sub_cancel]
      rw [maskFrom_reverse, maskFrom_skip, maskFrom_hide]
      simp
    show maskFrom [] false 0 before (' ' :: '-' :: (('-' :: c.text) ++ u)) = _
    have htext : remark (some c) = ' ' :: '-' :: '-' :: c.text := rfl
    have hblank : List.replicate ' '.utf8Size ' ' = [' '] := by decide
    rw [maskFrom_code (at_blank_code before _), hcomment, htext, blanked_cons ' ', hblank]
    simp only [lastOr_cons, List.cons_append, List.nil_append]

end CanonicalVhdl
