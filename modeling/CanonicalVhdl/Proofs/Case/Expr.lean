import CanonicalVhdl.Proofs.Case.Scan
import CanonicalVhdl.Proofs.Case.Tree
import CanonicalVhdl.Expr.Read

/-!
# Expressions in either case

The readers of expressions commute with folding: the folded text is read exactly when the text
is, and as the folded tree.  Readers are compared by the shape of what they read; the readers
for the expressions inside are assumed to commute with folding, and the induction on the room
supplies that assumption.

## Main statements

* `Operator.scan_fold` — the same operators stand at the same places.
* `Literal.readWith_fold`, `Reference.readWith_fold`, `Range.readWith_fold`,
  `Index.readWith_fold` — literals, references, ranges and indices.
* **`Expr.readCode_fold`**, `Expr.read_fold` — expressions.
-/

namespace CanonicalVhdl

open Text

/-! ## Numbers -/

theorem fold_of_digits {t : Text} (h : t.all (fun c => c.isDigit || c == '_') = true) :
    fold t = t := by
  rw [List.all_eq_true] at h
  refine (List.map_congr_left fun c hc => ?_).trans (List.map_id t)
  rcases toLower_eq_self_or c with hlow | ⟨n, rfl⟩
  · exact hlow
  · have hcap : ∀ n : Fin 26, ((Char.ofNat (65 + n)).isDigit || Char.ofNat (65 + n) == '_') = false := by
      decide
    exact absurd (h _ hc) (by rw [hcap n]; decide)

theorem digitGroup?_fold (t : Text) : digitGroup? (fold t) = digitGroup? t := by
  have hall : (fold t).all (fun c => c.isDigit || c == '_') = t.all fun c => c.isDigit || c == '_' :=
    all_fold (fun c => by rw [isDigit_toLower, beq_toLower (by decide)]) t
  by_cases h : t.all (fun c => c.isDigit || c == '_') = true
  · rw [fold_of_digits h]
  · rw [digitGroup?, digitGroup?, hall, Bool.eq_false_iff.2 h]
    simp

theorem splitSign_cons (c : Char) (t : Text) :
    splitSign (c :: t) = if c = '-' then (true, t) else (false, c :: t) := by
  split
  · rename_i h
    rw [h, splitSign]
  · rename_i h
    rw [splitSign]
    intro _ hc
    exact absurd (List.cons.inj hc).1 h

theorem splitSign_fold (t : Text) : splitSign (fold t) = Prod.map id fold (splitSign t) := by
  cases t with
  | nil => rfl
  | cons c t =>
    rw [fold_cons, splitSign_cons, splitSign_cons]
    simp only [toLower_eq_iff (k := '-') (by decide)]
    split <;> rfl

theorem Integer64.read_fold (t : Text) : Integer64.read (fold t) = Integer64.read t := by
  rw [Integer64.read, Integer64.read, splitSign_fold]
  simp only [Prod.map_fst, Prod.map_snd, id_eq, digitGroup?_fold]

namespace Real64

theorem readExponent_cons (c : Char) (t : Text) :
    readExponent (c :: t)
      = if c = '+' then (digitGroup? t).map fun digits => (digitsValue digits : Int)
        else if c = '-' then (digitGroup? t).map fun digits => -(digitsValue digits : Int)
        else (digitGroup? (c :: t)).map fun digits => (digitsValue digits : Int) := by
  by_cases hplus : c = '+'
  · subst hplus; rfl
  · by_cases hminus : c = '-'
    · subst hminus; rfl
    · rw [readExponent, if_neg hplus, if_neg hminus]
      · intro _ h
        exact hplus (List.cons.inj h).1
      · intro _ h
        exact hminus (List.cons.inj h).1

theorem readExponent_fold (t : Text) : readExponent (fold t) = readExponent t := by
  cases t with
  | nil => rfl
  | cons c t =>
    rw [fold_cons, readExponent_cons, readExponent_cons, ← fold_cons]
    simp only [toLower_eq_iff (k := '+') (by decide), toLower_eq_iff (k := '-') (by decide),
      digitGroup?_fold]

theorem read_fold (t : Text) : read (fold t) = read t := by
  have hmark : ∀ c : Char, (!(c.toLower == 'e' || c.toLower == 'E')) = !(c == 'e' || c == 'E') :=
    test_toLower (fun c => !(c == 'e' || c == 'E')) (by decide)
  rw [read, read, splitSign_fold]
  simp only [Prod.map_fst, Prod.map_snd, id_eq,
    dropWhile_fold (p := fun c => !(c == 'e' || c == 'E')) hmark,
    takeWhile_fold (p := fun c => !(c == 'e' || c == 'E')) hmark,
    splitOnce_fold (k := '.') (by decide)]
  cases (splitSign t).2.dropWhile fun c => !(c == 'e' || c == 'E') with
  | nil =>
    simp only [fold_nil]
    cases splitOnce '.' ((splitSign t).2.takeWhile fun c => !(c == 'e' || c == 'E')) with
    | none => rfl
    | some parts => simp [digitGroup?_fold]
  | cons c exponent =>
    simp only [fold_cons, readExponent_fold]
    cases splitOnce '.' ((splitSign t).2.takeWhile fun c => !(c == 'e' || c == 'E')) with
    | none => rfl
    | some parts => simp [digitGroup?_fold]

end Real64

/-! ## Ranges and indices

`expr` is the reader for the expressions inside. -/

section Readers

variable {expr : Text → Option Expr} (hexpr : ∀ t, expr (Text.fold t) = (expr t).map Expr.fold)
include hexpr

theorem Range.readWith_fold (t : Text) :
    Range.readWith expr (Text.fold t) = (Range.readWith expr t).map Range.fold := by
  simp only [Range.readWith, trim_fold, fits_fold,
    outerMatches_fold (by decide : IsKey "downto".toList),
    outerMatches_fold (by decide : IsKey "to".toList)]
  split
  · rfl
  · split
    · rename_i i _
      rw [take_fold, drop_fold, hexpr, hexpr]
      cases expr ((trim t).take i) with
      | none => rfl
      | some high => cases expr ((trim t).drop (i + 6)) <;> rfl
    · split
      · rename_i i _
        rw [take_fold, drop_fold, hexpr, hexpr]
        cases expr ((trim t).take i) with
        | none => rfl
        | some low => cases expr ((trim t).drop (i + 2)) <;> rfl
      · rfl
    · rfl

theorem Index.readWith_fold (t : Text) :
    Index.readWith expr (Text.fold t) = (Index.readWith expr t).map Index.fold := by
  simp only [Index.readWith, trim_fold, sameWord_fold, Range.readWith_fold hexpr, hexpr]
  split
  · rfl
  · cases Range.readWith expr (trim t) with
    | none => cases expr (trim t) <;> rfl
    | some range => rfl

end Readers

/-! ## Literals -/

theorem Bit.ofChar?_toLower (c : Char) : Bit.ofChar? c.toLower = Bit.ofChar? c :=
  test_toLower Bit.ofChar? (by decide) c

theorem Logic.ofChar?_toLower (c : Char) : Logic.ofChar? c.toLower = Logic.ofChar? c := by
  rw [Logic.ofChar?, toUpper_toLower, Logic.ofChar?]

theorem digit?_toLower (n : Nat) (c : Char) : digit? n c.toLower = digit? n c := by
  have hvalue : digitValue? n c.toLower = digitValue? n c := by
    rcases toLower_eq_self_or c with h | ⟨k, rfl⟩
    · rw [h]
    · have hnone : ∀ k : Fin 26, (Char.ofNat (65 + k)).isDigit = false := by decide
      simp only [digitValue?, isDigit_toLower, hnone k, toLower_toLower, Bool.false_eq_true, if_false]
  rw [digit?, digit?, hvalue]

theorem HexDigit.ofChar?_toLower (c : Char) : HexDigit.ofChar? c.toLower = HexDigit.ofChar? c :=
  digit?_toLower 16 c

theorem OctalDigit.ofChar?_toLower (c : Char) : OctalDigit.ofChar? c.toLower = OctalDigit.ofChar? c :=
  digit?_toLower 8 c

theorem mapM_fold {α : Type} {value? : Char → Option α} (h : ∀ c, value? c.toLower = value? c)
    (t : Text) : (fold t).mapM value? = t.mapM value? := by
  rw [fold, mapM_map_of_comm (g := id) (fun c => by rw [h, Option.map_id_apply]), List.map_id_fun,
    Option.map_id_apply]

namespace VectorLiteral

/-- The body of a quoted string, by its first character. -/
theorem quotedBody?_cons (c : Char) (t : Text) :
    quotedBody? (c :: t)
      = if c = '"' then if t = [] then some [] else
          if t.head? = some '"' then (quotedBody? t.tail).map ('"' :: ·) else none
        else if c = '\n' then none else (quotedBody? t).map (c :: ·) := by
  by_cases hc : c = '"'
  · subst hc
    rcases t with _ | ⟨d, t⟩
    · rfl
    · by_cases hd : d = '"'
      · subst hd
        simp [quotedBody?]
      · simp [quotedBody?, hd]
  · rw [quotedBody?]
    · simp [hc]
    · intro h
      exact absurd h hc
    · intro _ h
      exact absurd h hc

theorem quotedBody?_fold (t : Text) :
    quotedBody? (Text.fold t) = (quotedBody? t).map Text.fold := by
  induction hn : t.length using Nat.strongRecOn generalizing t with
  | ind n ih =>
    cases t with
    | nil => rfl
    | cons c t =>
      have htail : (Text.fold t).tail = Text.fold t.tail := List.map_tail.symm
      have hnil : Text.fold t = [] ↔ t = [] := List.map_eq_nil_iff
      have hlong : t.tail.length < n := by simp at hn ⊢; omega
      simp only [fold_cons, quotedBody?_cons, toLower_eq_iff (k := '"') (by decide),
        toLower_eq_iff (k := '\n') (by decide), htail, hnil,
        Lexeme.head?_fold_eq_iff (k := '"') (by decide), ih t.length (by simp at hn; omega) t rfl,
        ih t.tail.length hlong t.tail rfl]
      split
      · split
        · rfl
        · split
          · cases quotedBody? t.tail <;> rfl
          · rfl
      · split
        · rfl
        · cases quotedBody? t <;> rfl

theorem bitStringDigits?_fold (t : Text) :
    bitStringDigits? (Text.fold t) = (bitStringDigits? t).map Text.fold := by
  have hfilter : (Text.fold t).filter (· != '_') = Text.fold (t.filter (· != '_')) := by
    rw [Text.fold, List.filter_map]
    exact congrArg (List.map Char.toLower)
      (List.filter_congr fun c _ => bne_toLower (by decide) c)
  rw [bitStringDigits?, bitStringDigits?, head?_beq_fold (by decide), getLast?_beq_fold (by decide),
    hasDoubleUnderscore_fold, hfilter]
  split <;> rfl

theorem digitsWith_fold {α : Type} {value? : Char → Option α}
    (h : ∀ c, value? c.toLower = value? c) (t : Text) :
    digitsWith value? (Text.fold t) = digitsWith value? t := by
  rw [digitsWith, digitsWith, bitStringDigits?_fold]
  cases bitStringDigits? t with
  | none => rfl
  | some digits => exact mapM_fold h digits

theorem readBased_fold (base : Char) (t : Text) :
    readBased base (Text.fold t) = (readBased base t).map VectorLiteral.fold := by
  simp only [readBased, digitsWith_fold Bit.ofChar?_toLower,
    digitsWith_fold HexDigit.ofChar?_toLower, digitsWith_fold OctalDigit.ofChar?_toLower]
  split
  · cases digitsWith HexDigit.ofChar? t <;> rfl
  · split
    · cases digitsWith OctalDigit.ofChar? t <;> rfl
    · split
      · cases digitsWith Bit.ofChar? t <;> rfl
      · rfl

theorem readValues_fold (t : Text) :
    readValues (Text.fold t) = (readValues t).map VectorLiteral.fold := by
  simp only [readValues, mapM_fold Bit.ofChar?_toLower, mapM_fold Logic.ofChar?_toLower]
  cases t.mapM Bit.ofChar? with
  | some values => rfl
  | none => cases t.mapM Logic.ofChar? <;> rfl

end VectorLiteral

section Readers

variable {expr : Text → Option Expr} (hexpr : ∀ t, expr (Text.fold t) = (expr t).map Expr.fold)
  {literal : Text → Option Literal}
  (hliteral : ∀ t, literal (Text.fold t) = (literal t).map Literal.fold)

namespace VectorLiteral

include hexpr hliteral

theorem readElement_fold (t : Text) :
    readElement expr literal (Text.fold t) = (readElement expr literal t).map Element.fold := by
  rw [readElement, readElement, cutOuter?_fold (by decide)]
  cases cutOuter? "=>".toList t with
  | none => rfl
  | some parts =>
    simp only [Option.map_some, Option.bind_eq_bind, Option.bind_some, Prod.map_fst, Prod.map_snd,
      Index.readWith_fold hexpr, hliteral]
    cases Index.readWith expr parts.1 with
    | none => rfl
    | some index => cases literal parts.2 <;> rfl

theorem readAggregate_fold (t : Text) :
    readAggregate expr literal (Text.fold t)
      = (readAggregate expr literal t).map (List.map Element.fold) := by
  rw [readAggregate, readAggregate, parenthesised?_fold]
  cases parenthesised? t with
  | none => rfl
  | some parts =>
    simp only [Option.map_some, Option.bind_eq_bind, Option.bind_some, Prod.map_fst, Prod.map_snd,
      isEmpty_fold, outerMatch?_fold (by decide : IsKey "=>".toList), splitOuter_fold (k := ',')
      (by decide), mapM_map_of_comm (readElement_fold hexpr hliteral)]
    split <;> rfl

omit hexpr hliteral in
/-- A vector literal, by its first characters. -/
theorem readWith_of_trim {t u : Text} {c : Char} (h : trim t = c :: u) :
    readWith expr literal t
      = if !fits Limits.literalBytes (c :: u) then none
        else if c = '(' then (readAggregate expr literal (c :: u)).map .aggregate
        else if c = '"' then (quotedBody? u).bind readValues
        else if u.head? = some '"' ∧ c.toNat < 128 then
          (quotedBody? u.tail).bind (readBased c.toLower)
        else none := by
  simp only [readWith, h]
  split
  · rfl
  · by_cases hparen : c = '('
    · subst hparen; rfl
    · by_cases hquote : c = '"'
      · subst hquote; rfl
      · rw [if_neg hparen, if_neg hquote]
        split
        · rename_i heq
          exact absurd (List.cons.inj heq).1 hparen
        · rename_i heq
          exact absurd (List.cons.inj heq).1 hquote
        · rename_i heq
          obtain ⟨rfl, rfl⟩ := List.cons.inj heq
          simp
        · rename_i hrest
          rw [if_neg]
          rintro ⟨hd, -⟩
          cases u with
          | nil => cases hd
          | cons d u => exact hrest c u (by rw [List.head?_cons, Option.some.injEq] at hd; rw [hd])

theorem readWith_fold (t : Text) :
    readWith expr literal (Text.fold t) = (readWith expr literal t).map VectorLiteral.fold := by
  cases h : trim t with
  | nil => simp [readWith, h]
  | cons c u =>
    have hfold : trim (Text.fold t) = c.toLower :: Text.fold u := by rw [trim_fold, h, fold_cons]
    have htail : (Text.fold u).tail = Text.fold u.tail := List.map_tail.symm
    have hascii : c.toLower.toNat < 128 ↔ c.toNat < 128 := decide_eq_decide.1 (isAscii_toLower c)
    rw [readWith_of_trim hfold, readWith_of_trim h]
    simp only [toLower_eq_iff (k := '(') (by decide), toLower_eq_iff (k := '"') (by decide),
      ← fold_cons, fits_fold, htail, hascii, Lexeme.head?_fold_eq_iff (k := '"') (by decide),
      toLower_toLower, readAggregate_fold hexpr hliteral, quotedBody?_fold]
    split
    · rfl
    · split
      · rw [Option.map_map, Option.map_map]
        congr 1
        funext es
        simp [VectorLiteral.fold, Element.foldAll_eq_map]
      · split
        · cases quotedBody? u with
          | none => rfl
          | some body => exact readValues_fold body
        · split
          · cases quotedBody? u.tail with
            | none => rfl
            | some body => exact readBased_fold c.toLower body
          · rfl

end VectorLiteral

namespace Literal

theorem readTicked_toLower (c : Char) : readTicked c.toLower = readTicked c := by
  rw [readTicked, readTicked, Bit.ofChar?_toLower, Logic.ofChar?_toLower]

include hexpr hliteral

theorem readPlain_fold (t : Text) :
    readPlain expr literal (Text.fold t) = (readPlain expr literal t).map Literal.fold := by
  simp only [readPlain, sameWord_fold, Integer64.read_fold, contains_fold (k := '.') (by decide),
    Real64.read_fold, VectorLiteral.readWith_fold hexpr hliteral]
  split
  · rfl
  · split
    · rfl
    · cases Integer64.read t with
      | some n => rfl
      | none =>
        simp only
        split
        · cases Real64.read t <;> rfl
        · cases VectorLiteral.readWith expr literal t <;> rfl

omit hliteral

omit hexpr in
/-- A literal between ticks. -/
theorem readNested_of_ticked (fuel : Nat) {t : Text} {c : Char} (h : trim t = ['\'', c, '\'']) :
    readNested expr (fuel + 1) t
      = if !fits Limits.literalBytes ['\'', c, '\''] then none else readTicked c := by
  simp only [readNested, h, List.isEmpty_cons, Bool.false_or]

omit hexpr in
/-- A literal that is not between ticks. -/
theorem readNested_of_ne_ticked (fuel : Nat) {t : Text} (h : ∀ c, trim t ≠ ['\'', c, '\'']) :
    readNested expr (fuel + 1) t
      = if (trim t).isEmpty || !fits Limits.literalBytes (trim t) then none
        else readPlain expr (readNested expr fuel) (trim t) := by
  simp only [readNested]

omit hexpr in
theorem eq_ticked_of_fold {t : Text} {d : Char} (h : Text.fold t = ['\'', d, '\'']) :
    ∃ c, t = ['\'', c, '\''] := by
  rcases t with _ | ⟨a, _ | ⟨b, _ | ⟨c, _ | ⟨e, t⟩⟩⟩⟩ <;> simp [toLower_eq_iff] at h
  exact ⟨b, by rw [h.1, h.2.2]⟩

theorem readNested_fold (fuel : Nat) (t : Text) :
    readNested expr fuel (Text.fold t) = (readNested expr fuel t).map Literal.fold := by
  induction fuel generalizing t with
  | zero => rfl
  | succ fuel ih =>
    by_cases h : ∃ c, trim t = ['\'', c, '\'']
    · obtain ⟨c, hc⟩ := h
      have hfold : trim (Text.fold t) = ['\'', c.toLower, '\''] := by rw [trim_fold, hc]; rfl
      rw [readNested_of_ticked fuel hfold, readNested_of_ticked fuel hc, readTicked_toLower,
        show ['\'', c.toLower, '\''] = Text.fold ['\'', c, '\''] from rfl, fits_fold]
      split
      · rfl
      · rw [readTicked]
        cases Bit.ofChar? c with
        | some value => rfl
        | none => cases Logic.ofChar? c <;> rfl
    · have hplain : ∀ c, trim t ≠ ['\'', c, '\''] := fun c hc => h ⟨c, hc⟩
      have hfold : ∀ c, trim (Text.fold t) ≠ ['\'', c, '\''] := fun c hc =>
        h (eq_ticked_of_fold (by rwa [trim_fold] at hc))
      rw [readNested_of_ne_ticked fuel hfold, readNested_of_ne_ticked fuel hplain, trim_fold, isEmpty_fold,
        fits_fold, readPlain_fold hexpr ih]
      split <;> rfl

theorem readWith_fold (t : Text) :
    Literal.readWith expr (Text.fold t) = (Literal.readWith expr t).map Literal.fold := by
  rw [Literal.readWith, Literal.readWith, length_fold, readNested_fold hexpr]

end Literal

/-! ## References -/

namespace Reference

theorem readDesignator_fold (t : Text) : readDesignator (Text.fold t) = readDesignator t := by
  have hhead : (Text.fold t).head?.any Char.isAlpha = t.head?.any Char.isAlpha := by
    cases t <;> simp
  rw [readDesignator, readDesignator, hhead, all_fold isIdentChar_toLower, fold_fold]

include hexpr

theorem readIndexed_fold (t : Text) :
    readIndexed expr (Text.fold t) = (readIndexed expr t).map Reference.fold := by
  rw [readIndexed, readIndexed, takeWhile_bne_fold (by decide),
    balancedSpan?_fold (by decide) (by decide)]
  cases balancedSpan? '(' ')' t with
  | none => rfl
  | some span =>
    simp only [Option.bind_eq_bind, Option.bind_some, length_fold, trimEnd_fold, Ident.ofText?_fold,
      take_fold, drop_fold, Index.readWith_fold hexpr]
    split
    · rfl
    · cases Ident.ofText? (trimEnd (t.takeWhile (· != '('))) with
      | none => rfl
      | some name =>
        simp only [Option.map_some, Option.bind_some]
        cases Index.readWith expr ((t.take (span.2 - 1)).drop (span.1 + 1)) <;> rfl

theorem readWith_fold (t : Text) :
    Reference.readWith expr (Text.fold t) = (Reference.readWith expr t).map Reference.fold := by
  simp only [Reference.readWith, trim_fold, Ident.ofText?_fold, getLast?_beq_fold (k := ')')
    (by decide), contains_fold (k := '(') (by decide), readIndexed_fold hexpr,
    splitOnce_fold (k := '.') (by decide), splitOnce_fold (k := '\'') (by decide)]
  cases Ident.ofText? (trim t) with
  | some name => rfl
  | none =>
    simp only [Option.map_none]
    split
    · split <;> rfl
    · cases splitOnce '.' (trim t) with
      | some parts =>
        simp only [Option.map_some, Prod.map_fst, Prod.map_snd, trim_fold, Ident.ofText?_fold,
          Option.bind_eq_bind]
        cases Ident.ofText? (trim parts.1) with
        | none => rfl
        | some record => cases Ident.ofText? (trim parts.2) <;> rfl
      | none =>
        cases splitOnce '\'' (trim t) with
        | none => rfl
        | some parts =>
          simp only [Option.map_some, Option.map_none, Prod.map_fst, Prod.map_snd, trimEnd_fold,
            Ident.ofText?_fold, Option.bind_eq_bind, Option.bind_some, readDesignator_fold]
          cases Ident.ofText? (trimEnd parts.1) with
          | none => rfl
          | some object => cases readDesignator parts.2 <;> rfl

end Reference

end Readers

/-! ## Operators -/

theorem BinaryOp.ofWord?_fold (w : Text) : BinaryOp.ofWord? (Text.fold w) = BinaryOp.ofWord? w := by
  simp only [BinaryOp.ofWord?, sameWord_fold]

namespace Operator

/-- The operator that a text starts with, by its first characters. -/
theorem symbol?_cons (operand : Bool) (c : Char) (t : Text) :
    symbol? operand (c :: t)
      = if c = '/' then some (if t.head? = some '=' then (.rel .ne, 2) else (.arith .div, 1))
        else if c = '<' then some (if t.head? = some '=' then (.rel .le, 2) else (.rel .lt, 1))
        else if c = '>' then some (if t.head? = some '=' then (.rel .ge, 2) else (.rel .gt, 1))
        else if c = '=' then some (.rel .eq, 1)
        else if c = '*' then some (.arith .mul, 1)
        else if c = '&' then some (.arith .concat, 1)
        else if c = '+' then if operand then some (.arith .add, 1) else none
        else if c = '-' then if operand then some (.arith .sub, 1) else none
        else none := by
  rw [symbol?.eq_def]
  split <;> simp_all [List.head?_eq_some_iff]

theorem symbol?_fold (operand : Bool) (t : Text) :
    symbol? operand (Text.fold t) = symbol? operand t := by
  cases t with
  | nil => rfl
  | cons c t =>
    simp only [fold_cons, symbol?_cons, toLower_eq_iff (k := '/') (by decide),
      toLower_eq_iff (k := '<') (by decide), toLower_eq_iff (k := '>') (by decide),
      toLower_eq_iff (k := '=') (by decide), toLower_eq_iff (k := '*') (by decide),
      toLower_eq_iff (k := '&') (by decide), toLower_eq_iff (k := '+') (by decide),
      toLower_eq_iff (k := '-') (by decide), Lexeme.head?_fold_eq_iff (k := '=') (by decide)]

theorem numberLength_fold (n : Nat) (mark : Bool) (t : Text) :
    numberLength n mark (Text.fold t) = numberLength n mark t := by
  have hmark : ∀ c : Char, (c.toLower == 'e' || c.toLower == 'E') = (c == 'e' || c == 'E') :=
    test_toLower (fun c => c == 'e' || c == 'E') (by decide)
  have hdigit : ∀ t : Text, (Text.fold t).head?.any Char.isDigit = t.head?.any Char.isDigit := by
    intro t
    cases t <;> simp
  induction t generalizing n mark with
  | nil => rfl
  | cons c t ih =>
    simp only [fold_cons, numberLength, isIdentChar_toLower, beq_toLower (k := '.') (by decide),
      beq_toLower (k := '+') (by decide), beq_toLower (k := '-') (by decide), hmark, hdigit, ih]

theorem scanFrom_fold (found : List Operator) (depth : Nat) (operand : Bool) (skip position : Nat)
    (before : Option Char) (t : Text) :
    scanFrom found depth operand skip position (before.map Char.toLower) (Text.fold t)
      = scanFrom found depth operand skip position before t := by
  induction t generalizing found depth operand skip position before with
  | nil => rfl
  | cons c t ih =>
    have hnext : some c.toLower = (some c).map Char.toLower := rfl
    cases skip with
    | succ skip =>
      simp only [fold_cons, scanFrom]
      exact ih _ _ _ _ _ (some c)
    | zero =>
      have hat := Lexeme.at_fold before (c :: t)
      have htake := takeWhile_isIdentChar_fold (c :: t)
      have hlength := numberLength_fold 0 false (c :: t)
      have hsymbol := symbol?_fold operand (c :: t)
      have harrow := isPrefixOf_fold (by decide : ("=>".toList).all (!·.isAlpha) = true) (c :: t)
      have hassign := isPrefixOf_fold (by decide : (":=".toList).all (!·.isAlpha) = true) (c :: t)
      have hpower := isPrefixOf_fold (by decide : ("**".toList).all (!·.isAlpha) = true) (c :: t)
      rw [fold_cons] at hat htake hlength hsymbol harrow hassign hpower
      simp only [fold_cons, scanFrom, hat, htake, hlength, hsymbol, harrow, hassign, hpower,
        isIdentChar_toLower, isDigit_toLower, beq_toLower (k := '(') (by decide),
        beq_toLower (k := ')') (by decide), BinaryOp.ofWord?_fold, length_fold, sameWord_fold,
        hnext, ih]

/-- The same operators stand outside parentheses in either case. -/
theorem scan_fold (t : Text) : scan (Text.fold t) = scan t :=
  scanFrom_fold [] 0 false 0 0 none t

end Operator

/-! ## Expressions -/

theorem Expr.fold_binary (a : Expr) (op : BinaryOp) (b : Expr) :
    (Expr.binary a op b).fold = Expr.binary a.fold op b.fold := by
  cases op <;> rfl

theorem Conversion.ofName?_fold (name : Text) :
    Conversion.ofName? (Text.fold name) = Conversion.ofName? name := by
  simp only [Conversion.ofName?, sameWord_fold]

theorem Edge.ofName?_fold (name : Text) : Edge.ofName? (Text.fold name) = Edge.ofName? name := by
  simp only [Edge.ofName?, sameWord_fold]

section Readers

variable {code expr : Text → Option Expr}
  (hcode : ∀ t, code (Text.fold t) = (code t).map Expr.fold)
  (hexpr : ∀ t, expr (Text.fold t) = (expr t).map Expr.fold)

include hexpr in
theorem Argument.readWith_fold (t : Text) :
    Argument.readWith expr (Text.fold t) = (Argument.readWith expr t).map Argument.fold := by
  rw [Argument.readWith, Argument.readWith, cutOuter?_fold (by decide)]
  cases cutOuter? "=>".toList t with
  | none =>
    simp only [Option.map_none, hexpr]
    cases expr t <;> rfl
  | some parts =>
    simp only [Option.map_some, Prod.map_fst, Prod.map_snd, trim_fold, Ident.ofText?_fold, hexpr,
      Option.bind_eq_bind]
    cases Ident.ofText? (trim parts.1) with
    | none => rfl
    | some parameter => cases expr parts.2 <;> rfl

namespace Expr

theorem callShape?_fold (t : Text) :
    callShape? (Text.fold t) = (callShape? t).map (Prod.map Ident.fold Text.fold) := by
  have hlast : ((Text.fold t).getLast? != some ')') = (t.getLast? != some ')') := by
    rw [bne, bne, getLast?_beq_fold (by decide)]
  simp only [callShape?, hlast, takeWhile_bne_fold (k := '(') (by decide),
    length_fold, drop_fold, parenthesised?_fold, trimEnd_fold, Ident.ofText?_fold]
  split
  · rfl
  · cases Ident.ofText? (trimEnd (t.takeWhile (· != '('))) with
    | none => rfl
    | some name =>
      cases parenthesised? (t.drop (t.takeWhile (· != '(')).length) with
      | none => rfl
      | some parts =>
        simp only [Option.map_some, Option.bind_eq_bind, Option.bind_some, Prod.map_fst,
          Prod.map_snd, isEmpty_fold]
        split <;> rfl

theorem callOf?_fold (name : Ident) (arguments : List Argument) :
    callOf? name.fold (arguments.map Argument.fold) = (callOf? name arguments).map fold := by
  rw [callOf?, callOf?, List.isEmpty_map]
  split
  · rfl
  · rw [Option.map_some, fold, Argument.foldAll_eq_map]

include hcode hexpr

theorem readCall_fold (name : Ident) (inner : Text) :
    readCall code expr name.fold (Text.fold inner) = (readCall code expr name inner).map fold := by
  simp only [readCall, Ident.text_fold, Conversion.ofName?_fold, Edge.ofName?_fold,
    splitOuter_fold (k := ',') (by decide), List.length_map, hcode, Reference.readWith_fold hexpr,
    mapM_map_of_comm (Argument.readWith_fold hexpr), Index.readWith_fold hexpr]
  cases Conversion.ofName? name.text with
  | some kind =>
    simp only
    split
    · cases code inner <;> rfl
    · rfl
  | none =>
    cases Edge.ofName? name.text with
    | some kind =>
      simp only
      split
      · cases Reference.readWith expr inner <;> rfl
      · rfl
    | none =>
      cases (splitOuter ',' inner).mapM (Argument.readWith expr) with
      | some arguments => exact callOf?_fold name arguments
      | none =>
        simp only [Option.map_none]
        split
        · rcases Index.readWith expr inner with _ | (_ | _ | _) <;> rfl
        · rfl

theorem readOperand_fold (t : Text) :
    readOperand code expr (Text.fold t) = (readOperand code expr t).map fold := by
  rw [readOperand, readOperand, head?_beq_fold (by decide), parenthesised?_fold, afterWord?_fold,
    Reference.readWith_fold hexpr]
  split
  · cases parenthesised? t with
    | none => rfl
    | some parts =>
      simp only [Option.map_some, Option.bind_eq_bind, Option.bind_some, Prod.map_fst, Prod.map_snd,
        isEmpty_fold, hcode]
      split
      · cases code parts.1 <;> rfl
      · rfl
  · cases afterWord? "not".toList t with
    | some operand =>
      simp only [Option.map_some, hcode]
      cases code operand <;> rfl
    | none =>
      simp only [Option.map_none]
      cases Reference.readWith expr t <;> rfl

omit hexpr in
theorem readBinary_fold (o : Operator) (t : Text) :
    readBinary code o (Text.fold t) = (readBinary code o t).map fold := by
  simp only [readBinary, take_fold, drop_fold, hcode, Option.bind_eq_bind]
  cases code (t.take o.start) with
  | none => rfl
  | some lhs =>
    cases code (t.drop o.stop) with
    | none => rfl
    | some rhs => simp [fold_binary]

theorem readShape_fold (t : Text) :
    readShape code expr (Text.fold t) = (readShape code expr t).map fold := by
  rw [readShape, readShape, Literal.readWith_fold hexpr, callShape?_fold, Operator.scan_fold]
  cases Literal.readWith expr t with
  | some l => rfl
  | none =>
    cases callShape? t with
    | some call => exact readCall_fold hcode hexpr call.1 call.2
    | none =>
      rcases Operator.scan t with _ | (_ | ⟨o, ops⟩)
      · rfl
      · exact readOperand_fold hcode hexpr t
      · simp only [Option.map_none]
        cases Operator.pivot? (o :: ops) with
        | none => rfl
        | some pivot => exact readBinary_fold hcode pivot t

end Expr

end Readers

namespace Expr

/-- **An expression free of comments is read in either case**: the folded text as the folded
tree. -/
theorem readCode_fold (room : Nat) (t : Text) :
    readCode room (Text.fold t) = (readCode room t).map fold := by
  induction room generalizing t with
  | zero => rfl
  | succ room ih =>
    have hexpr : ∀ u, readCode room (withoutComments (Text.fold u))
        = (readCode room (withoutComments u)).map fold := fun u => by
      rw [withoutComments_fold, ih]
    simp only [readCode, trim_fold, isEmpty_fold, fits_fold]
    split
    · rfl
    · exact readShape_fold ih hexpr (trim t)

theorem read_fold (room : Nat) (t : Text) : read room (Text.fold t) = (read room t).map fold := by
  rw [read, read, withoutComments_fold, readCode_fold]

end Expr

theorem Range.read_fold (room : Nat) (t : Text) :
    Range.read room (Text.fold t) = (Range.read room t).map Range.fold :=
  Range.readWith_fold (Expr.read_fold room) t

theorem Reference.read_fold (room : Nat) (t : Text) :
    Reference.read room (Text.fold t) = (Reference.read room t).map Reference.fold :=
  Reference.readWith_fold (Expr.read_fold room) t

end CanonicalVhdl
