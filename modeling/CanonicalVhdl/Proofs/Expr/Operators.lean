import CanonicalVhdl.Expr.Read
import CanonicalVhdl.Proofs.Expr.Tokens
import CanonicalVhdl.Proofs.Token.Search

/-!
# Operators among tokens

The reader of expressions looks for binary operators in plain text.  In a sequence
of tokens it finds exactly the tokens that are operators; a sign is one only after
an operand.

## Main definitions

* `Token.operator?` — the operator that a token is.
* `Token.operandAfter`, `Token.endsOperand` — whether an operand has just ended.
* `Token.operators` — the operators of a sequence with their places.

## Main statements

* `Token.scan_render` — the operators found in a sequence are its operator tokens.
* `Operator.pivot?_split` — the cut is made at the last operator of the loosest tier.
-/

namespace CanonicalVhdl

open Text

namespace Token

/-! ## Operator tokens -/

/-- The binary operator that a token is, given whether an operand has just ended. -/
def operator? (operand : Bool) : Token → Option BinaryOp
  | word w => BinaryOp.ofWord? w
  | symbol s => (Operator.symbol? operand s).map (·.1)
  | mark c => (Operator.symbol? operand [c]).map (·.1)
  | number _ | quoted _ | ticked _ | group _ => none

/-- Whether an operand has just ended after a token. -/
def operandAfter (operand : Bool) (token : Token) : Bool :=
  if (token.operator? operand).isSome then false
  else
    match token with
    | word w => !sameWord w "not".toList
    | number _ | quoted _ | ticked _ | group _ => true
    | symbol _ | mark _ => operand

/-- Whether an operand has just ended after a sequence. -/
def endsOperand (operand : Bool) (tokens : List Token) : Bool :=
  tokens.foldl operandAfter operand

/-- The operator that a token is, with its place. -/
def operatorAt (operand : Bool) (position : Nat) (token : Token) : List Operator :=
  ((token.operator? operand).map fun op => ⟨position, position + token.text.length, op⟩).toList

/-- The operators of a sequence, from some place on. -/
def operators (operand : Bool) (position : Nat) : List Token → List Operator
  | [] => []
  | token :: tokens =>
    token.operatorAt operand position
      ++ operators (token.operandAfter operand) (position + token.text.length) tokens

@[simp] theorem endsOperand_nil (operand : Bool) : endsOperand operand [] = operand := rfl

@[simp] theorem endsOperand_cons (operand : Bool) (token : Token) (tokens : List Token) :
    endsOperand operand (token :: tokens) = endsOperand (token.operandAfter operand) tokens := rfl

@[simp] theorem endsOperand_append (operand : Bool) (ts us : List Token) :
    endsOperand operand (ts ++ us) = endsOperand (endsOperand operand ts) us :=
  List.foldl_append ..

theorem operators_append (operand : Bool) (position : Nat) (ts us : List Token) :
    operators operand position (ts ++ us) =
      operators operand position ts
        ++ operators (endsOperand operand ts) (position + (render ts).length) us := by
  induction ts generalizing operand position with
  | nil => rfl
  | cons t ts ih =>
    rw [List.cons_append, operators, operators, ih, endsOperand_cons, render_cons,
      List.length_append, List.append_assoc, Nat.add_assoc]

/-! ## Scanning -/

section Scan

variable {found : List Operator} {operand : Bool} {depth position : Nat} {before : Option Char}

theorem scanFrom_skip (x u : Text) :
    Operator.scanFrom found depth operand x.length position before (x ++ u) =
      Operator.scanFrom found depth operand 0 (position + x.length) (lastOr before x) u := by
  induction x generalizing position before with
  | nil => rfl
  | cons c x ih =>
    simp only [List.cons_append, List.length_cons, Operator.scanFrom, lastOr_cons]
    rw [ih]; congr 1; omega

/-- Inside parentheses code is passed over. -/
theorem scanFrom_pass {u : Text} :
    ∀ (x : Text) (position : Nat) (before : Option Char),
      (∀ a c b, x = a ++ c :: b →
        Lexeme.at (lastOr before a) (c :: (b ++ u)) = .code ∧ c ≠ '(' ∧ c ≠ ')') →
      Operator.scanFrom found (depth + 1) operand 0 position before (x ++ u) =
        Operator.scanFrom found (depth + 1) operand 0 (position + x.length) (lastOr before x) u
  | [], _, _, _ => rfl
  | c :: x, position, before, h => by
    obtain ⟨hcode, ho, hc⟩ := h [] c x rfl
    rw [lastOr_nil] at hcode
    have hne : (depth + 1 != 0) = true := by simp
    rw [List.cons_append, Operator.scanFrom, hcode]
    simp only [hne, if_true, beq_iff_eq, ho, hc, if_false]
    rw [scanFrom_pass x _ _ fun a d b hx => by
        have := h (c :: a) d b (by rw [hx]; rfl)
        rwa [lastOr_cons] at this, lastOr_cons, List.length_cons]
    congr 1; omega

theorem scanFrom_quoted {body u : Text} (h : (quoted body).Fits before u.head?) :
    Operator.scanFrom found depth operand 0 position before ((quoted body).text ++ u) =
      Operator.scanFrom found depth true 0 (position + (quoted body).text.length)
        (lastOr before (quoted body).text) u := by
  have hat : Lexeme.at before ('"' :: ((body ++ ['"']) ++ u))
      = .literal ((body ++ ['"']).length + 1) := by simpa using at_quoted h rfl
  rw [text_quoted, List.cons_append, Operator.scanFrom, hat]
  simp only [Nat.add_sub_cancel]
  rw [scanFrom_skip, lastOr_cons, List.length_cons]
  congr 1; omega

theorem scanFrom_ticked {c : Char} {u : Text} (h : (ticked c).Fits before u.head?) :
    Operator.scanFrom found depth operand 0 position before ((ticked c).text ++ u) =
      Operator.scanFrom found depth true 0 (position + (ticked c).text.length)
        (lastOr before (ticked c).text) u := by
  have hat : Lexeme.at before ('\'' :: ([c, '\''] ++ u)) = .literal 3 := at_ticked u h
  rw [text_ticked, List.cons_append, Operator.scanFrom, hat]
  exact scanFrom_skip [c, '\''] u

mutual

/-- Inside parentheses no token is an operator. -/
theorem scanFrom_inner :
    ∀ (token : Token) (u : Text) (operand : Bool) (depth position : Nat) (before : Option Char),
      token.Fits before u.head? →
      ∃ operand', Operator.scanFrom found (depth + 1) operand 0 position before (token.text ++ u) =
        Operator.scanFrom found (depth + 1) operand' 0 (position + token.text.length)
          (lastOr before token.text) u
  | .quoted body, u, _, _, _, _, h => ⟨true, scanFrom_quoted h⟩
  | .ticked c, u, _, _, _, _, h => ⟨true, scanFrom_ticked h⟩
  | .word w, u, operand, _, _, _, h =>
    ⟨operand, scanFrom_pass _ _ _ fun a c b hx => Fits.code h rfl (by simp) (by simp) (by simp) hx⟩
  | .number digits, u, operand, _, _, _, h =>
    ⟨operand, scanFrom_pass _ _ _ fun a c b hx => Fits.code h rfl (by simp) (by simp) (by simp) hx⟩
  | .symbol s, u, operand, _, _, _, h =>
    ⟨operand, scanFrom_pass _ _ _ fun a c b hx => Fits.code h rfl (by simp) (by simp) (by simp) hx⟩
  | .mark c, u, operand, _, _, _, h =>
    ⟨operand, scanFrom_pass _ _ _ fun a c b hx => Fits.code h rfl (by simp) (by simp) (by simp) hx⟩
  | .group inner, u, operand, depth, position, before, h => by
    have hopen : Operator.scanFrom found (depth + 1) operand 0 position before
          ('(' :: (render inner ++ (')' :: u)))
        = Operator.scanFrom found (depth + 2) operand 0 (position + 1) (some '(')
          (render inner ++ (')' :: u)) := by
      rw [Operator.scanFrom, at_open]; rfl
    obtain ⟨operand', hinner⟩ := scanFrom_innerAll inner (')' :: u) operand (depth + 1)
      (position + 1) (some '(') (by exact h)
    have hclose : ∀ position before,
        Operator.scanFrom found (depth + 2) operand' 0 position before (')' :: u)
          = Operator.scanFrom found (depth + 1) false 0 (position + 1) (some ')') u := by
      intro position before
      rw [Operator.scanFrom, at_close]; rfl
    refine ⟨false, ?_⟩
    rw [text_group, List.cons_append, List.append_assoc, List.singleton_append, hopen, hinner,
      hclose, lastOr_cons, lastOr_append, List.length_cons, List.length_append]
    congr 1; simp only [List.length_singleton]; omega

/-- Inside parentheses a sequence holds no operator. -/
theorem scanFrom_innerAll :
    ∀ (tokens : List Token) (u : Text) (operand : Bool) (depth position : Nat)
      (before : Option Char), FitAll before tokens u.head? →
      ∃ operand', Operator.scanFrom found (depth + 1) operand 0 position before (render tokens ++ u)
        = Operator.scanFrom found (depth + 1) operand' 0 (position + (render tokens).length)
          (lastOr before (render tokens)) u
  | [], _, operand, _, _, _, _ => ⟨operand, rfl⟩
  | token :: tokens, u, operand, depth, position, before, h => by
    obtain ⟨ht, hts⟩ := h
    rw [firstOr, ← List.head?_append] at ht
    obtain ⟨operand', h'⟩ := scanFrom_inner token (render tokens ++ u) operand depth position
      before ht
    obtain ⟨operand'', h''⟩ := scanFrom_innerAll tokens u operand' depth
      (position + token.text.length) (lastOr before token.text) hts
    refine ⟨operand'', ?_⟩
    rw [render_cons, List.append_assoc, h', h'', lastOr_append, List.length_append, Nat.add_assoc]

end

/-- A group is an operand. -/
theorem scanFrom_group {inner : List Token} {u : Text} (h : (group inner).Fits before u.head?) :
    Operator.scanFrom found 0 operand 0 position before ((group inner).text ++ u) =
      Operator.scanFrom found 0 true 0 (position + (group inner).text.length)
        (lastOr before (group inner).text) u := by
  have hopen : Operator.scanFrom found 0 operand 0 position before
        ('(' :: (render inner ++ (')' :: u)))
      = Operator.scanFrom found 1 operand 0 (position + 1) (some '(')
        (render inner ++ (')' :: u)) := by
    rw [Operator.scanFrom, at_open]; rfl
  obtain ⟨operand', hinner⟩ := scanFrom_innerAll inner (')' :: u) operand 0 (position + 1)
    (some '(') (by exact h)
  have hclose : ∀ position before,
      Operator.scanFrom found 1 operand' 0 position before (')' :: u)
        = Operator.scanFrom found 0 true 0 (position + 1) (some ')') u := by
    intro position before
    rw [Operator.scanFrom, at_close]; rfl
  rw [text_group, List.cons_append, List.append_assoc, List.singleton_append, hopen, hinner,
    hclose, lastOr_cons, lastOr_append, List.length_cons, List.length_append]
  congr 1; simp only [List.length_singleton]; omega

/-- The length of a number is that of its text. -/
theorem numberLength_append {x u : Text} (hx : x.all isNumberChar = true)
    (hu : u.head?.any (fun c => isIdentChar c || c == '.') = false) (n : Nat) :
    Operator.numberLength n false (x ++ u) = n + x.length := by
  induction x generalizing n with
  | nil =>
    cases u with
    | nil => rfl
    | cons c u =>
      have hc : (isIdentChar c || c == '.') = false := by simpa using hu
      simp only [List.nil_append, Operator.numberLength, hc, Bool.false_and, Bool.false_eq_true,
        if_false, List.length_nil, Nat.add_zero]
  | cons c x ih =>
    simp only [List.all_cons, Bool.and_eq_true] at hx
    have hc : (isIdentChar c || c == '.') = true := by
      rcases Bool.or_eq_true_iff.1 hx.1 with h | h
      · simp [isIdentChar_of_isDigit h]
      · simp [h]
    have hmark : (c == 'e' || c == 'E') = false := by
      cases hm : (c == 'e' || c == 'E') with
      | false => rfl
      | true =>
        have key : isNumberChar 'e' = false ∧ isNumberChar 'E' = false := by decide
        rcases Bool.or_eq_true_iff.1 hm with h | h
        · rw [beq_iff_eq] at h; rw [h, key.1] at hx; cases hx.1
        · rw [beq_iff_eq] at h; rw [h, key.2] at hx; cases hx.1
    simp only [List.cons_append, Operator.numberLength, hc, if_true, hmark]
    rw [ih hx.2, List.length_cons]; omega

/-- A number is an operand. -/
theorem scanFrom_number {digits u : Text} (h : (number digits).Fits before u.head?) :
    Operator.scanFrom found 0 operand 0 position before ((number digits).text ++ u) =
      Operator.scanFrom found 0 true 0 (position + (number digits).text.length)
        (lastOr before (number digits).text) u := by
  obtain ⟨hd, hall, -, hn⟩ := h
  have hlen := numberLength_append hall hn 0
  rw [text_number]
  cases digits with
  | nil => simp at hd
  | cons c x =>
    have hc : c.isDigit = true := by simpa using hd
    have hop : (c == '(') = false ∧ (c == ')') = false := by
      constructor <;> (rw [beq_eq_false_iff_ne]; rintro rfl; exact absurd hc (by decide))
    rw [List.cons_append] at hlen ⊢
    rw [Operator.scanFrom, at_ident _ (isIdentChar_of_isDigit hc)]
    simp only [bne_self_eq_false, Bool.false_eq_true, if_false, hop.1, hop.2, hc, if_true, hlen,
      List.length_cons, Nat.zero_add, Nat.add_sub_cancel]
    rw [scanFrom_skip, lastOr_cons]
    congr 1; omega

/-- A word is an operator, a negation or an operand. -/
theorem scanFrom_word {w u : Text} (h : (word w).Fits before u.head?) :
    Operator.scanFrom found 0 operand 0 position before ((word w).text ++ u) =
      Operator.scanFrom ((word w).operatorAt operand position ++ found) 0
        ((word w).operandAfter operand) 0 (position + w.length) (lastOr before w) u := by
  obtain ⟨hr, -, hn, hd⟩ := h
  have htake : (w ++ u).takeWhile isIdentChar = w := by
    rw [List.takeWhile_append_of_pos (List.all_eq_true.1 hr.ident)]
    cases u with
    | nil => simp
    | cons c u =>
      have hc : isIdentChar c = false := by simpa using hn
      simp [hc]
  rw [text_word]
  cases w with
  | nil => exact absurd rfl hr.ne_nil
  | cons c x =>
    have hc : isIdentChar c = true := List.all_eq_true.1 hr.ident c (by simp)
    have hdc : c.isDigit = false := by simpa using hd
    have hop : (c == '(') = false ∧ (c == ')') = false := by
      constructor <;> (rw [beq_eq_false_iff_ne]; rintro rfl; exact absurd hc (by decide))
    rw [List.cons_append] at htake ⊢
    rw [Operator.scanFrom, at_ident _ hc]
    simp only [bne_self_eq_false, Bool.false_eq_true, if_false, hop.1, hop.2, hdc, hc, if_true,
      htake, operatorAt, operator?, operandAfter, text_word]
    rcases Option.eq_none_or_eq_some (BinaryOp.ofWord? (c :: x)) with ho | ⟨op, ho⟩
    · simp only [ho, Option.map_none, Option.toList_none, List.nil_append, Option.isSome_none,
        Bool.false_eq_true, if_false, List.length_cons, Nat.add_sub_cancel]
      rw [scanFrom_skip, lastOr_cons]
      congr 1; omega
    · simp only [ho, Option.map_some, Option.toList_some, List.singleton_append, Option.isSome_some,
        if_true, List.length_cons, Nat.add_sub_cancel]
      rw [scanFrom_skip, lastOr_cons]
      congr 1; omega

/-- A symbol between blanks is read as itself. -/
theorem symbol?_append {s : Text} (hs : s ∈ operatorSymbols) {u : Text}
    (hu : u.head?.all isAsciiBlank = true) (operand : Bool) :
    Operator.symbol? operand (s ++ u) = Operator.symbol? operand s := by
  have hne : ∀ v, u ≠ '=' :: v := by
    rintro v rfl
    exact absurd hu (by simp; decide)
  simp only [operatorSymbols, List.map_cons, List.map_nil, List.mem_cons, List.not_mem_nil,
    or_false] at hs
  rcases hs with rfl | rfl | rfl | rfl | rfl | rfl | rfl | rfl | rfl | rfl | rfl
  all_goals
    cases u with
    | nil => rfl
    | cons c u =>
      have hc : c ≠ '=' := fun h => hne u (by rw [h])
      simp [Operator.symbol?]

/-- The characters at which code is tried as a symbol. -/
theorem scanFrom_symbolic {c : Char} {u : Text} (hcode : Lexeme.at before (c :: u) = .code)
    (ho : c ≠ '(') (hc : c ≠ ')') (hi : isIdentChar c = false)
    (harrow : ("=>".toList.isPrefixOf (c :: u) || ":=".toList.isPrefixOf (c :: u)) = false)
    (hstar : "**".toList.isPrefixOf (c :: u) = false) :
    Operator.scanFrom found 0 operand 0 position before (c :: u) =
      match Operator.symbol? operand (c :: u) with
      | some (op, n) =>
        Operator.scanFrom (⟨position, position + n, op⟩ :: found) 0 false (n - 1) (position + 1)
          (some c) u
      | none => Operator.scanFrom found 0 operand 0 (position + 1) (some c) u := by
  have hd : c.isDigit = false := by
    cases h : c.isDigit with
    | false => rfl
    | true => rw [isIdentChar_of_isDigit h] at hi; cases hi
  rw [Operator.scanFrom, hcode]
  cases Operator.symbol? operand (c :: u) <;>
    simp only [bne_self_eq_false, Bool.false_eq_true, if_false, beq_iff_eq, ho, hc, hd, hi, harrow,
      hstar]

/-- A symbol is an operator, or a sign where none can stand. -/
theorem scanFrom_symbol {s u : Text} (hs : s ∈ operatorSymbols)
    (h : (symbol s).Fits before u.head?) :
    Operator.scanFrom found 0 operand 0 position before ((symbol s).text ++ u) =
      Operator.scanFrom ((symbol s).operatorAt operand position ++ found) 0
        ((symbol s).operandAfter operand) 0 (position + s.length) (lastOr before s) u := by
  have key : ∀ s ∈ operatorSymbols, ∃ c x, s = c :: x ∧ c ≠ '(' ∧ c ≠ ')' ∧ isIdentChar c = false ∧
      "=>".toList.isPrefixOf s = false ∧ ":=".toList.isPrefixOf s = false ∧
      "**".toList.isPrefixOf s = false := by
    simp only [operatorSymbols, List.map_cons, List.map_nil, List.forall_mem_cons]
    refine ⟨⟨_, _, rfl, ?_⟩, ⟨_, _, rfl, ?_⟩, ⟨_, _, rfl, ?_⟩, ⟨_, _, rfl, ?_⟩, ⟨_, _, rfl, ?_⟩,
      ⟨_, _, rfl, ?_⟩, ⟨_, _, rfl, ?_⟩, ⟨_, _, rfl, ?_⟩, ⟨_, _, rfl, ?_⟩, ⟨_, _, rfl, ?_⟩,
      ⟨_, _, rfl, ?_⟩, by simp⟩
    all_goals decide
  have hlen : ∀ s ∈ operatorSymbols, ∀ operand,
      (Operator.symbol? operand s).elim 1 (·.2) = s.length := by decide
  obtain ⟨c, x, rfl, ho, hc, hi, harrow, hassign, hstar⟩ := key s hs
  have hlen := hlen _ hs operand
  have hblank : ∀ p : Text, (p.all fun c => !isAsciiBlank c) = true →
      p.isPrefixOf (c :: x ++ u) = p.isPrefixOf (c :: x) := fun p hp =>
    isPrefixOf_append_blank hp h.2
  have hcode : Lexeme.at before (c :: (x ++ u)) = .code :=
    (Fits.code h rfl (by simp) (by simp) (by simp) (a := []) rfl).1
  have hsym := symbol?_append hs h.2 operand
  rw [text_symbol]
  rw [List.cons_append] at hsym hblank ⊢
  rw [scanFrom_symbolic hcode ho hc hi
    (by rw [hblank _ (by decide), hblank _ (by decide), harrow, hassign]; rfl)
    (by rw [hblank _ (by decide), hstar]), hsym]
  simp only [operatorAt, operandAfter, operator?, text_symbol]
  rcases Option.eq_none_or_eq_some (Operator.symbol? operand (c :: x)) with hop | ⟨⟨op, n⟩, hop⟩
  · rw [hop] at hlen
    obtain rfl : x = [] := by simpa using hlen.symm
    simp only [hop]
    rfl
  · rw [hop] at hlen
    simp only [Option.elim_some] at hlen
    simp only [hop, Option.map_some, Option.toList_some, List.singleton_append, Option.isSome_some,
      if_true, hlen, List.length_cons, Nat.add_sub_cancel]
    rw [scanFrom_skip, lastOr_cons]
    congr 1; omega

/-- A mark is no operator, unless it is a sign after an operand. -/
theorem scanFrom_mark {c : Char} {u : Text} (h : (mark c).Fits before u.head?) :
    Operator.scanFrom found 0 operand 0 position before ((mark c).text ++ u) =
      Operator.scanFrom ((mark c).operatorAt operand position ++ found) 0
        ((mark c).operandAfter operand) 0 (position + 1) (some c) u := by
  have key : ∀ c ∈ marks, c ≠ '(' ∧ c ≠ ')' ∧ isIdentChar c = false ∧ c ≠ '=' ∧ c ≠ '*' := by
    decide
  obtain ⟨ho, hc, hi, heq, hstar⟩ := key c h.1
  have harrow : ("=>".toList.isPrefixOf (c :: u) || ":=".toList.isPrefixOf (c :: u)) = false := by
    have h1 : "=>".toList.isPrefixOf (c :: u) = false := by
      have : ('=' == c) = false := by simpa using Ne.symm heq
      simp [List.isPrefixOf, this]
    rw [h1, Bool.false_or]
    cases u with
    | nil => simp [List.isPrefixOf]
    | cons d u =>
      by_cases hcolon : c = ':'
      · have hd : ('=' == d) = false := by
          have := h.2.2.1 hcolon
          simpa using fun h : '=' = d => this (by rw [h]; rfl)
        simp [List.isPrefixOf, hd]
      · have : (':' == c) = false := by simpa using Ne.symm hcolon
        simp [List.isPrefixOf, this]
  have hstar' : "**".toList.isPrefixOf (c :: u) = false := by
    have : ('*' == c) = false := by simpa using Ne.symm hstar
    simp [List.isPrefixOf, this]
  have hsym : ∀ c ∈ marks, c ≠ '-' → ∀ operand, Operator.symbol? operand [c] = none := by decide
  rw [text_mark, List.singleton_append, scanFrom_symbolic (at_mark h rfl) ho hc hi harrow hstar']
  simp only [operatorAt, operandAfter, operator?, text_mark]
  by_cases hd : c = '-'
  · subst hd
    cases operand <;> rfl
  · have hnone : Operator.symbol? operand (c :: u) = none := by
      have key : ∀ c ∈ marks, c ≠ '-' → c ∉ ['/', '<', '>', '=', '*', '&', '+', '-'] := by decide
      have hmem := key c h.1 hd
      simp only [List.mem_cons, List.not_mem_nil, or_false, not_or] at hmem
      unfold Operator.symbol?
      split <;> simp_all
    simp only [hnone, hsym c h.1 hd operand]
    rfl

/-- Whether every symbol is an operator. -/
def isScanned : Token → Bool
  | symbol s => operatorSymbols.contains s
  | _ => true

theorem isScanned_of_isCalm {token : Token} (h : token.isCalm = true) : token.isScanned = true := by
  cases token with
  | symbol s => exact h
  | word | number | quoted | ticked | mark | group => rfl

/-- **Outside parentheses the operators found are the operator tokens.** -/
theorem scanFrom_token {token : Token} {u : Text} (hs : token.isScanned = true)
    (h : token.Fits before u.head?) :
    Operator.scanFrom found 0 operand 0 position before (token.text ++ u) =
      Operator.scanFrom (token.operatorAt operand position ++ found) 0
        (token.operandAfter operand) 0 (position + token.text.length) (lastOr before token.text)
        u := by
  cases token with
  | word w => exact scanFrom_word h
  | number digits => exact scanFrom_number h
  | quoted body => exact scanFrom_quoted h
  | ticked c => exact scanFrom_ticked h
  | symbol s => exact scanFrom_symbol (by simpa [isScanned] using hs) h
  | mark c => exact scanFrom_mark h
  | group inner => exact scanFrom_group h

theorem scanFrom_render {tokens : List Token} {u : Text}
    (hs : ∀ t ∈ tokens, t.isScanned = true) (h : FitAll before tokens u.head?) :
    Operator.scanFrom found 0 operand 0 position before (render tokens ++ u) =
      Operator.scanFrom ((operators operand position tokens).reverse ++ found) 0
        (endsOperand operand tokens) 0 (position + (render tokens).length)
        (lastOr before (render tokens)) u := by
  induction tokens generalizing found operand position before with
  | nil => rfl
  | cons token tokens ih =>
    obtain ⟨ht, hts⟩ := h
    rw [firstOr, ← List.head?_append] at ht
    have hat : (token.operatorAt operand position).reverse = token.operatorAt operand position := by
      rw [operatorAt]
      cases token.operator? operand <;> rfl
    rw [render_cons, List.append_assoc, scanFrom_token (hs token (by simp)) ht,
      ih (fun t hm => hs t (by simp [hm])) hts, operators, endsOperand_cons, lastOr_append,
      List.length_append, List.reverse_append, hat, List.append_assoc, Nat.add_assoc]

end Scan

/-- **The operators of a text made of tokens.** -/
theorem scan_render {tokens : List Token} (hs : ∀ t ∈ tokens, t.isScanned = true)
    (h : FitAll none tokens none) :
    Operator.scan (render tokens) = some (operators false 0 tokens) := by
  have := @scanFrom_render [] false 0 none tokens [] hs h
  rw [Operator.scan, ← List.append_nil (render tokens), this]
  simp [Operator.scanFrom]

end Token

/-! ## The cut -/

namespace Operator

/-- The last operator of the loosest tier splits the others. -/
theorem pivot?_split {l r : List Operator} {o : Operator} (hl : ∀ p ∈ l, o.op.tier ≤ p.op.tier)
    (hr : ∀ p ∈ r, o.op.tier < p.op.tier)
    (hrel : o.op.isRel = true → ∀ p ∈ l, o.op.tier < p.op.tier) :
    pivot? (l ++ o :: r) = some o := by
  have hmin : ((l ++ o :: r).map (·.op.tier)).min? = some o.op.tier := by
    rw [List.min?_eq_some_iff]
    refine ⟨by simp, ?_⟩
    intro n hn
    simp only [List.map_append, List.map_cons, List.mem_append, List.mem_map, List.mem_cons] at hn
    rcases hn with ⟨p, hp, rfl⟩ | rfl | ⟨p, hp, rfl⟩
    · exact hl p hp
    · exact Nat.le_refl _
    · exact Nat.le_of_lt (hr p hp)
  have hfilter : r.filter (·.op.tier == o.op.tier) = [] := by
    rw [List.filter_eq_nil_iff]
    intro p hp
    simpa using Nat.ne_of_gt (hr p hp)
  have htier : (l ++ o :: r).filter (·.op.tier == o.op.tier)
      = l.filter (·.op.tier == o.op.tier) ++ [o] := by
    rw [List.filter_append, List.filter_cons, if_pos (by simp), hfilter]
  simp only [pivot?, hmin, Option.bind_eq_bind, Option.bind_some, htier,
    List.getLast?_append, List.getLast?_singleton, Option.some_or]
  rw [if_neg]
  intro h
  simp only [Bool.and_eq_true, decide_eq_true_eq, List.length_append, List.length_singleton] at h
  have hnil : l.filter (·.op.tier == o.op.tier) = [] := by
    rw [List.filter_eq_nil_iff]
    intro p hp
    simpa using Nat.ne_of_gt (hrel h.1 p hp)
  rw [hnil] at h
  simp at h

/-- The cut is made at one of the operators. -/
theorem mem_of_pivot? {ops : List Operator} {o : Operator} (h : pivot? ops = some o) : o ∈ ops := by
  simp only [pivot?, Option.bind_eq_bind, Option.bind_eq_some_iff] at h
  obtain ⟨n, -, last, hlast, h⟩ := h
  split at h
  · cases h
  · obtain rfl := Option.some.inj h
    exact List.mem_of_mem_filter (List.mem_of_getLast? hlast)

end Operator
end CanonicalVhdl
