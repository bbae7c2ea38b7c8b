import CanonicalVhdl.Proofs.Text.Ends

/-!
# Tokens

Every text that the library writes is a sequence of *tokens*: words, numbers, literals,
symbols between blanks, single marks, and groups in parentheses.  Searches look at
characters and never see tokens; they are a second view of a text, in which
parentheses match because a group is one token.

A sequence *fits* between two characters when no token runs into its neighbour: a
word ends where it should, a hyphen starts no comment, a tick is read as what it is.

## Main definitions

* `Token`, `Token.text`, `Token.render` — tokens and their text.
* `Token.Fits`, `Token.FitAll` — tokens that keep apart.
* `Text.lastOr` — the last character of a text, or the one before it.

## Main statements

* `Token.fitAll_append` — sequences fit together when they fit each other's ends.
* `Token.at_quoted`, `Token.at_ticked`, `Token.at_code` — the lexemes that tokens start with.
-/

namespace CanonicalVhdl

/-- The lexeme at the head of a text, case by case. -/
theorem Lexeme.at_cons (before : Option Char) (c : Char) (t : Text) :
    Lexeme.at before (c :: t)
      = if c = '-' ∧ t.head? = some '-' then .comment (lineLength 2 t.tail)
        else if c = '"' then .literal (quotedLength 1 t)
        else if c = '\'' ∧ t.head?.any (fun d => decide (d.toNat < 128) && d != '\n') = true
          ∧ t.tail.head? = some '\'' ∧ bindsTick before = false then .literal 3
        else .code := by
  by_cases hhyphen : c = '-'
  · subst hhyphen
    rcases t with _ | ⟨d, t⟩
    · rfl
    · by_cases hd : d = '-'
      · subst hd; rfl
      · simp [Lexeme.at, hd]
  · by_cases hquote : c = '"'
    · subst hquote
      simp [Lexeme.at]
    · by_cases htick : c = '\''
      · subst htick
        rcases t with _ | ⟨d, _ | ⟨e, t⟩⟩
        · rfl
        · simp [Lexeme.at]
        · by_cases he : e = '\''
          · subst he
            cases hb : bindsTick before <;> simp [Lexeme.at, hb]
          · simp [Lexeme.at, he]
      · simp [Lexeme.at, hhyphen, hquote, htick]

namespace Text

/-- The last character of a text, or the given one when the text is empty. -/
def lastOr (before : Option Char) (t : Text) : Option Char :=
  t.getLast?.or before

@[simp] theorem lastOr_nil (before : Option Char) : lastOr before [] = before := rfl

@[simp] theorem lastOr_cons (before : Option Char) (c : Char) (t : Text) :
    lastOr before (c :: t) = lastOr (some c) t := by
  cases t with
  | nil => rfl
  | cons d t =>
    cases h : (d :: t).getLast? with
    | none => simp at h
    | some e => simp [lastOr, List.getLast?_cons_cons, h]

@[simp] theorem lastOr_append (before : Option Char) (s t : Text) :
    lastOr before (s ++ t) = lastOr (lastOr before s) t := by
  induction s generalizing before with
  | nil => rfl
  | cons c s ih => simp [ih]

theorem lastOr_getLast? (a x : Text) : lastOr a.getLast? x = (a ++ x).getLast? := by
  rw [lastOr, List.getLast?_append]

theorem lastOr_of_ne_nil {t : Text} (h : t ≠ []) (before : Option Char) :
    lastOr before t = t.getLast? := by
  cases h' : t.getLast? with
  | none => exact absurd (List.getLast?_eq_none_iff.1 h') h
  | some c => simp [lastOr, h']

end Text

open Text

/-! ## Tokens and their text -/

/-- A lexical element of a canonical text. -/
inductive Token where
  /-- A run of letters, digits and underscores that starts with no digit. -/
  | word (w : Text)
  /-- Digits, perhaps with a point among them. -/
  | number (digits : Text)
  /-- Characters between quotation marks. -/
  | quoted (body : Text)
  /-- A character between ticks. -/
  | ticked (c : Char)
  /-- An operator or arrow with a blank on its right. -/
  | symbol (s : Text)
  /-- A blank, a separator, a sign or an attribute tick. -/
  | mark (c : Char)
  /-- Tokens in parentheses. -/
  | group (inner : List Token)

namespace Token

mutual

/-- A token as written. -/
def text : Token → Text
  | word w => w
  | number digits => digits
  | quoted body => '"' :: (body ++ ['"'])
  | ticked c => ['\'', c, '\'']
  | symbol s => s
  | mark c => [c]
  | group inner => '(' :: (render inner ++ [')'])

/-- Tokens one after the other. -/
def render : List Token → Text
  | [] => []
  | token :: tokens => token.text ++ render tokens

end

@[simp] theorem render_nil : render [] = [] := rfl

@[simp] theorem render_cons (token : Token) (tokens : List Token) :
    render (token :: tokens) = token.text ++ render tokens := rfl

@[simp] theorem render_append (ts us : List Token) : render (ts ++ us) = render ts ++ render us := by
  induction ts with
  | nil => rfl
  | cons t ts ih => simp [ih]

@[simp] theorem text_word (w : Text) : (word w).text = w := rfl
@[simp] theorem text_number (digits : Text) : (number digits).text = digits := rfl
@[simp] theorem text_quoted (body : Text) : (quoted body).text = '"' :: (body ++ ['"']) := rfl
@[simp] theorem text_ticked (c : Char) : (ticked c).text = ['\'', c, '\''] := rfl
@[simp] theorem text_symbol (s : Text) : (symbol s).text = s := rfl
@[simp] theorem text_mark (c : Char) : (mark c).text = [c] := rfl
@[simp] theorem text_group (inner : List Token) :
    (group inner).text = '(' :: (render inner ++ [')']) := rfl

/-! ## Tokens that keep apart -/

/-- Whether a character may stand in a number. -/
def isNumberChar (c : Char) : Bool :=
  c.isDigit || c == '.'

/-- The symbols. -/
def symbols : List Text :=
  ["=", "/=", "<", "<=", ">", ">=", "+", "-", "*", "/", "&", "=>", ":=", "|"].map String.toList

/-- The marks. -/
def marks : List Char := [' ', '\n', ',', ';', '.', ':', '\'', '-']

/-- The first character of a sequence, or the given one when it is empty. -/
def firstOr (tokens : List Token) (next : Option Char) : Option Char :=
  (render tokens).head?.or next

mutual

/-- Whether a token keeps apart from the characters before and after it. -/
def Fits (before : Option Char) : Token → Option Char → Prop
  | word w, next =>
    IsRun w ∧ before.any isIdentChar = false ∧ next.any isIdentChar = false
      ∧ w.head?.any Char.isDigit = false
  | number digits, next =>
    digits.head?.any Char.isDigit = true ∧ digits.all isNumberChar = true
      ∧ before.any isIdentChar = false ∧ next.any (fun c => isIdentChar c || c == '.') = false
  | quoted body, next => (body.all fun c => c != '"' && c != '\n') = true ∧ next ≠ some '"'
  | ticked c, _ => (c.toNat < 128 ∧ c ≠ '\n') ∧ Lexeme.bindsTick before = false
  | symbol s, next => s ∈ symbols ∧ next.all isAsciiBlank = true
  | mark c, next =>
    c ∈ marks ∧ (c = '-' → next ≠ some '-') ∧ (c = ':' → next ≠ some '=')
      ∧ (c = '\'' → Lexeme.bindsTick before = true)
  | group inner, _ => FitAll (some '(') inner (some ')')

/-- Whether every token of a sequence keeps apart from its neighbours. -/
def FitAll (before : Option Char) : List Token → Option Char → Prop
  | [], _ => True
  | token :: tokens, next =>
    token.Fits before (firstOr tokens next) ∧ FitAll (lastOr before token.text) tokens next

end

theorem firstOr_append (ts us : List Token) (next : Option Char) :
    firstOr (ts ++ us) next = firstOr ts (firstOr us next) := by
  simp only [firstOr, render_append, List.head?_append, Option.or_assoc]

/-- Two sequences fit together when each fits with the end of the other. -/
theorem fitAll_append {before next : Option Char} {ts us : List Token} :
    FitAll before (ts ++ us) next ↔
      FitAll before ts (firstOr us next) ∧ FitAll (lastOr before (render ts)) us next := by
  induction ts generalizing before with
  | nil => simp [FitAll]
  | cons t ts ih =>
    simp only [List.cons_append, FitAll, ih, firstOr_append, render_cons, lastOr_append, and_assoc]

/-- The text of a token that fits is not empty. -/
theorem Fits.text_ne_nil {before next : Option Char} {token : Token}
    (h : token.Fits before next) : token.text ≠ [] := by
  cases token with
  | word w => exact h.1.ne_nil
  | number digits =>
    rintro hd
    rw [text_number] at hd
    rw [hd] at h
    exact absurd h.1 (by simp)
  | symbol s =>
    rintro hs
    have : s ≠ [] := by
      have key : ∀ s ∈ symbols, s ≠ [] := by decide
      exact key s h.1
    exact this hs
  | quoted | ticked | mark | group => simp

/-! ## Lexemes -/

/-- The length of a quoted literal that holds neither marks nor line feeds. -/
theorem quotedLength_append {body u : Text} (hb : (body.all fun c => c != '"' && c != '\n') = true)
    (hu : u.head? ≠ some '"') (n : Nat) :
    Lexeme.quotedLength n (body ++ '"' :: u) = n + body.length + 1 := by
  induction body generalizing n with
  | nil =>
    cases u with
    | nil => simp [Lexeme.quotedLength]
    | cons c u =>
      have hc : c ≠ '"' := by simpa using hu
      simp only [List.nil_append]
      rw [Lexeme.quotedLength]
      · rfl
      · rintro rest ⟨⟩; exact hc rfl
  | cons c body ih =>
    simp only [List.all_cons, Bool.and_eq_true, bne_iff_ne, ne_eq] at hb
    obtain ⟨⟨hq, hn⟩, hb⟩ := hb
    rw [List.cons_append, Lexeme.quotedLength]
    · rw [ih (by simpa using hb)]; simp only [List.length_cons]; omega
    · rintro rest rfl; exact absurd rfl hq
    · exact hq
    · exact hn

theorem at_quoted {before next : Option Char} {body u : Text}
    (h : (quoted body).Fits before next) (hu : next = u.head?) :
    Lexeme.at before ((quoted body).text ++ u) = .literal (body.length + 2) := by
  have := quotedLength_append h.1 (hu ▸ h.2) 1
  simp only [text_quoted, List.cons_append, List.append_assoc, List.nil_append, Lexeme.at, this]
  congr 1; omega

theorem at_ticked {before next : Option Char} {c : Char} (u : Text)
    (h : (ticked c).Fits before next) :
    Lexeme.at before ((ticked c).text ++ u) = .literal 3 := by
  obtain ⟨⟨hc, hn⟩, hb⟩ := h
  simp [Lexeme.at, hc, hn, hb]

/-- A character that opens neither a comment nor a literal is code. -/
theorem at_code {before : Option Char} {c : Char} {u : Text} (hq : c ≠ '"')
    (ht : c = '\'' → Lexeme.bindsTick before = true) (hd : c = '-' → u.head? ≠ some '-') :
    Lexeme.at before (c :: u) = .code := by
  rw [Lexeme.at.eq_def]
  split
  · rename_i heq
    obtain ⟨rfl, rfl⟩ := List.cons_eq_cons.1 heq
    exact absurd rfl (hd rfl)
  · rename_i heq
    obtain ⟨rfl, rfl⟩ := List.cons_eq_cons.1 heq
    exact absurd rfl hq
  · rename_i heq
    obtain ⟨rfl, rfl⟩ := List.cons_eq_cons.1 heq
    simp [ht rfl]
  · rfl

theorem at_ident {before : Option Char} {c : Char} (u : Text) (hc : isIdentChar c = true) :
    Lexeme.at before (c :: u) = .code := by
  apply at_code
  · rintro rfl; exact absurd hc (by decide)
  · rintro rfl; exact absurd hc (by decide)
  · rintro rfl; exact absurd hc (by decide)

theorem at_number {before : Option Char} {c : Char} (u : Text) (hc : isNumberChar c = true) :
    Lexeme.at before (c :: u) = .code := by
  rcases Bool.or_eq_true_iff.1 hc with h | h
  · exact at_ident u (isIdentChar_of_isDigit h)
  · rw [beq_iff_eq] at h
    exact at_code (by rw [h]; decide) (fun e => absurd (h ▸ e) (by decide))
      fun e => absurd (h ▸ e) (by decide)

theorem at_open {before : Option Char} (u : Text) : Lexeme.at before ('(' :: u) = .code :=
  at_code (by decide) (fun h => absurd h (by decide)) fun h => absurd h (by decide)

theorem at_close {before : Option Char} (u : Text) : Lexeme.at before (')' :: u) = .code :=
  at_code (by decide) (fun h => absurd h (by decide)) fun h => absurd h (by decide)

theorem at_mark {before next : Option Char} {c : Char} {u : Text} (h : (mark c).Fits before next)
    (hu : next = u.head?) : Lexeme.at before (c :: u) = .code := by
  obtain ⟨hm, hd, -, ht⟩ := h
  refine at_code ?_ ht (hu ▸ hd)
  rintro rfl; exact absurd hm (by decide)

/-- Every character of a symbol is code. -/
theorem at_symbol {next : Option Char} {s u : Text} (hs : s ∈ symbols)
    (hn : next.all isAsciiBlank = true) (hu : next = u.head?) {c : Char} {a b : Text}
    (hsplit : s = a ++ c :: b) (before : Option Char) : Lexeme.at before (c :: (b ++ u)) = .code := by
  have key : ∀ s ∈ symbols, ∀ c ∈ s, c ≠ '"' ∧ c ≠ '\'' ∧ (c = '-' → s = ['-']) := by decide
  obtain ⟨hq, ht, hd⟩ := key s hs c (by simp [hsplit])
  refine at_code hq (fun h => absurd h ht) fun h => ?_
  have := hd h
  rw [hsplit, List.append_eq_singleton_iff] at this
  obtain ⟨-, hb⟩ | ⟨-, hb⟩ := this
  · obtain rfl : b = [] := by simpa using congrArg List.tail hb
    rw [List.nil_append, ← hu]
    rintro rfl; exact absurd hn (by decide)
  · exact absurd hb (by simp)

end Token
end CanonicalVhdl
