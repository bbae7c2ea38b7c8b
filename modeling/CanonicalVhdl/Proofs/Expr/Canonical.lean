import CanonicalVhdl.Proofs.Expr.Operators

/-!
# Canonical expressions

An expression is canonical when its text, read again, can only mean the expression
itself: operands bind at least as tightly as the operator between them requires, and
every leaf is written in the form that its kind of leaf is read from.  Real numbers
are left out, because the shortest decimal of one is a matter of its own.

## Main definitions

* `Expr.tier` — how tightly an expression binds.
* `Expr.isCanonical` and its companions — the canonical expressions and their parts.
* `Expr.levels` and its companions — how many levels of a reader's room are used up.

## Main statements

* `Expr.isDesignator_of_isCanonical` — the designators of canonical expressions.
* `Expr.tier_le_operators` — the operators outside the parentheses of an expression.
-/

namespace CanonicalVhdl

open Text Token

/-! ## Canonical trees -/

/-- The tier of the operator at the root; more than any tier when there is none. -/
def Expr.tier : Expr → Nat
  | .arith _ op _ => (BinaryOp.arith op).tier
  | .compare _ op _ => (BinaryOp.rel op).tier
  | .logic _ op _ => (BinaryOp.logic op).tier
  | _ => 5

/-- Whether two operands bind tightly enough for the operator between them.  Chains
associate to the left, and relations do not chain. -/
def Expr.areOperands (lhs : Expr) (op : BinaryOp) (rhs : Expr) : Bool :=
  (if op.isRel then op.tier < lhs.tier else op.tier ≤ lhs.tier) && op.tier < rhs.tier

/-- Whether a name is that of neither a conversion nor an edge test. -/
def Ident.isPlain (name : Ident) : Bool :=
  (Conversion.ofName? name.text).isNone && (Edge.ofName? name.text).isNone

/-- Whether a text is a designator in lower case, no reserved word but `range`. -/
def isPlainDesignator (d : Text) : Bool :=
  d.head?.any Char.isAlpha && d.all isIdentChar && fold d == d
    && (!isReserved d || d == "range".toList)

/-- Whether a reference is read as a reference where an expression stands: its name is
no truth value, and its parentheses hold no single position, as those of calls do. -/
def Reference.isOperand : Reference → Bool
  | .name n => !sameWord n.text "true".toList && !sameWord n.text "false".toList
  | .member _ _ | .attributeOf _ _ => true
  | .indexed _ (.position _) => false
  | .indexed n (.slice _) | .indexed n .others => n.isPlain

mutual

/-- Whether an expression is canonical. -/
def Expr.isCanonical : Expr → Bool
  | .reference r => r.isOperand && r.isCanonical
  | .literal l => l.isCanonical
  | .arith lhs op rhs => lhs.isCanonical && rhs.isCanonical && lhs.areOperands (.arith op) rhs
  | .group inner => inner.isCanonical
  | .compare lhs op rhs => lhs.isCanonical && rhs.isCanonical && lhs.areOperands (.rel op) rhs
  | .edge _ signal => signal.isCanonical
  | .negation operand => operand.isCanonical && operand.tier == 5
  | .logic lhs op rhs => lhs.isCanonical && rhs.isCanonical && lhs.areOperands (.logic op) rhs
  | .convert _ value => value.isCanonical
  | .call name arguments =>
    name.isPlain && !arguments.isEmpty && Argument.areCanonical arguments

/-- Whether the value of an argument is canonical. -/
def Argument.isCanonical : Argument → Bool
  | .mk _ value => value.isCanonical

/-- Whether the values of arguments are canonical. -/
def Argument.areCanonical : List Argument → Bool
  | [] => true
  | a :: as => a.isCanonical && Argument.areCanonical as

/-- Whether a reference is canonical. -/
def Reference.isCanonical : Reference → Bool
  | .name _ | .member _ _ => true
  | .indexed _ index => index.isCanonical
  | .attributeOf _ designator => isPlainDesignator designator

/-- Whether an index is canonical. -/
def Index.isCanonical : Index → Bool
  | .position value => value.isCanonical
  | .slice range => range.isCanonical
  | .others => true

/-- Whether the ends of a range are canonical. -/
def Range.isCanonical : Range → Bool
  | .ascending low high => low.isCanonical && high.isCanonical
  | .descending high low => high.isCanonical && low.isCanonical

/-- Whether a literal is canonical. -/
def Literal.isCanonical : Literal → Bool
  | .bit _ | .boolean _ | .integer _ => true
  | .real _ => false
  | .logic value => value.bit?.isNone
  | .vector value => value.isCanonical

/-- Whether a vector literal is canonical. -/
def VectorLiteral.isCanonical : VectorLiteral → Bool
  | .bits _ | .hexadecimal _ | .octal _ => true
  | .logics values => values.any (·.bit?.isNone)
  | .aggregate elements =>
    !elements.isEmpty && !(VectorLiteral.aggregate elements).text.contains '.'
      && Element.areCanonical elements

/-- Whether an element of an aggregate is canonical. -/
def Element.isCanonical : Element → Bool
  | .mk index value => index.isCanonical && value.isCanonical

/-- Whether the elements of an aggregate are canonical. -/
def Element.areCanonical : List Element → Bool
  | [] => true
  | e :: es => e.isCanonical && Element.areCanonical es

end

/-! ## Levels -/

mutual

/-- The number of levels that reading an expression uses up. -/
def Expr.levels : Expr → Nat
  | .reference r => r.levels + 1
  | .literal l => l.levels + 1
  | .arith lhs _ rhs => max lhs.levels rhs.levels + 1
  | .group inner => inner.levels + 1
  | .compare lhs _ rhs => max lhs.levels rhs.levels + 1
  | .edge _ signal => signal.levels + 1
  | .negation operand => operand.levels + 1
  | .logic lhs _ rhs => max lhs.levels rhs.levels + 1
  | .convert _ value => value.levels + 1
  | .call _ arguments => Argument.listLevels arguments + 1

/-- The levels that reading an argument uses up. -/
def Argument.levels : Argument → Nat
  | .mk _ value => value.levels

/-- The levels that reading arguments uses up. -/
def Argument.listLevels : List Argument → Nat
  | [] => 0
  | a :: as => max a.levels (Argument.listLevels as)

/-- The levels that reading a reference uses up. -/
def Reference.levels : Reference → Nat
  | .name _ | .member _ _ | .attributeOf _ _ => 0
  | .indexed _ index => index.levels

/-- The levels that reading an index uses up. -/
def Index.levels : Index → Nat
  | .position value => value.levels
  | .slice range => range.levels
  | .others => 0

/-- The levels that reading a range uses up. -/
def Range.levels : Range → Nat
  | .ascending low high => max low.levels high.levels
  | .descending high low => max high.levels low.levels

/-- The levels that reading a literal uses up: those of the positions inside. -/
def Literal.levels : Literal → Nat
  | .bit _ | .boolean _ | .real _ | .integer _ | .logic _ => 0
  | .vector value => value.levels

/-- The levels that reading a vector literal uses up. -/
def VectorLiteral.levels : VectorLiteral → Nat
  | .bits _ | .logics _ | .hexadecimal _ | .octal _ => 0
  | .aggregate elements => Element.listLevels elements

/-- The levels that reading an element uses up. -/
def Element.levels : Element → Nat
  | .mk index value => max index.levels value.levels

/-- The levels that reading elements uses up. -/
def Element.listLevels : List Element → Nat
  | [] => 0
  | e :: es => max e.levels (Element.listLevels es)

end

/-! ## Designators -/

theorem isDesignator_of_isPlainDesignator {d : Text} (h : isPlainDesignator d = true) :
    IsDesignator d := by
  simp only [isPlainDesignator, Bool.and_eq_true, Bool.or_eq_true, Bool.not_eq_true', beq_iff_eq] at h
  refine ⟨⟨h.1.1.1, h.1.1.2⟩, fun hr => ?_⟩
  rcases h.2 with hn | rfl
  · rw [hn] at hr; cases hr
  · exact sameWord_self _

mutual

/-- The designators of a canonical expression are no reserved words but `range`. -/
theorem Expr.isDesignator_of_isCanonical :
    ∀ e : Expr, e.isCanonical = true → ∀ d ∈ e.designators, IsDesignator d
  | .reference r, h => by
    simp only [Expr.isCanonical, Bool.and_eq_true] at h
    exact Reference.isDesignator_of_isCanonical r h.2
  | .literal l, h => Literal.isDesignator_of_isCanonical l h
  | .arith lhs op rhs, h => by
    simp only [Expr.isCanonical, Bool.and_eq_true] at h
    simp only [Expr.designators, List.mem_append, or_imp, forall_and]
    exact ⟨Expr.isDesignator_of_isCanonical lhs h.1.1, Expr.isDesignator_of_isCanonical rhs h.1.2⟩
  | .group inner, h => Expr.isDesignator_of_isCanonical inner h
  | .compare lhs op rhs, h => by
    simp only [Expr.isCanonical, Bool.and_eq_true] at h
    simp only [Expr.designators, List.mem_append, or_imp, forall_and]
    exact ⟨Expr.isDesignator_of_isCanonical lhs h.1.1, Expr.isDesignator_of_isCanonical rhs h.1.2⟩
  | .edge kind signal, h => Reference.isDesignator_of_isCanonical signal h
  | .negation operand, h => by
    simp only [Expr.isCanonical, Bool.and_eq_true] at h
    exact Expr.isDesignator_of_isCanonical operand h.1
  | .logic lhs op rhs, h => by
    simp only [Expr.isCanonical, Bool.and_eq_true] at h
    simp only [Expr.designators, List.mem_append, or_imp, forall_and]
    exact ⟨Expr.isDesignator_of_isCanonical lhs h.1.1, Expr.isDesignator_of_isCanonical rhs h.1.2⟩
  | .convert kind value, h => Expr.isDesignator_of_isCanonical value h
  | .call name arguments, h => by
    simp only [Expr.isCanonical, Bool.and_eq_true] at h
    exact Argument.isDesignator_of_areCanonical arguments h.2

theorem Argument.isDesignator_of_areCanonical :
    ∀ as : List Argument, Argument.areCanonical as = true →
      ∀ d ∈ Argument.listDesignators as, IsDesignator d
  | [], _ => by simp [Argument.listDesignators]
  | .mk parameter value :: as, h => by
    simp only [Argument.areCanonical, Argument.isCanonical, Bool.and_eq_true] at h
    simp only [Argument.listDesignators, Argument.designators, List.mem_append, or_imp, forall_and]
    exact ⟨Expr.isDesignator_of_isCanonical value h.1, Argument.isDesignator_of_areCanonical as h.2⟩

theorem Reference.isDesignator_of_isCanonical :
    ∀ r : Reference, r.isCanonical = true → ∀ d ∈ r.designators, IsDesignator d
  | .name _, _ => by simp [Reference.designators]
  | .member _ _, _ => by simp [Reference.designators]
  | .indexed _ index, h => Index.isDesignator_of_isCanonical index h
  | .attributeOf _ designator, h => by
    simp only [Reference.designators, List.forall_mem_singleton]
    exact isDesignator_of_isPlainDesignator h

theorem Index.isDesignator_of_isCanonical :
    ∀ i : Index, i.isCanonical = true → ∀ d ∈ i.designators, IsDesignator d
  | .position value, h => Expr.isDesignator_of_isCanonical value h
  | .slice range, h => Range.isDesignator_of_isCanonical range h
  | .others, _ => by simp [Index.designators]

theorem Range.isDesignator_of_isCanonical :
    ∀ r : Range, r.isCanonical = true → ∀ d ∈ r.designators, IsDesignator d
  | .ascending low high, h => by
    simp only [Range.isCanonical, Bool.and_eq_true] at h
    simp only [Range.designators, List.mem_append, or_imp, forall_and]
    exact ⟨Expr.isDesignator_of_isCanonical low h.1, Expr.isDesignator_of_isCanonical high h.2⟩
  | .descending high low, h => by
    simp only [Range.isCanonical, Bool.and_eq_true] at h
    simp only [Range.designators, List.mem_append, or_imp, forall_and]
    exact ⟨Expr.isDesignator_of_isCanonical high h.1, Expr.isDesignator_of_isCanonical low h.2⟩

theorem Literal.isDesignator_of_isCanonical :
    ∀ l : Literal, l.isCanonical = true → ∀ d ∈ l.designators, IsDesignator d
  | .bit _, _ => by simp [Literal.designators]
  | .boolean _, _ => by simp [Literal.designators]
  | .real _, _ => by simp [Literal.designators]
  | .integer _, _ => by simp [Literal.designators]
  | .logic _, _ => by simp [Literal.designators]
  | .vector value, h => VectorLiteral.isDesignator_of_isCanonical value h

theorem VectorLiteral.isDesignator_of_isCanonical :
    ∀ v : VectorLiteral, v.isCanonical = true → ∀ d ∈ v.designators, IsDesignator d
  | .bits _, _ => by simp [VectorLiteral.designators]
  | .logics _, _ => by simp [VectorLiteral.designators]
  | .hexadecimal _, _ => by simp [VectorLiteral.designators]
  | .octal _, _ => by simp [VectorLiteral.designators]
  | .aggregate elements, h => by
    simp only [VectorLiteral.isCanonical, Bool.and_eq_true] at h
    exact Element.isDesignator_of_areCanonical elements h.2

theorem Element.isDesignator_of_areCanonical :
    ∀ es : List Element, Element.areCanonical es = true →
      ∀ d ∈ Element.listDesignators es, IsDesignator d
  | [], _ => by simp [Element.listDesignators]
  | .mk index value :: es, h => by
    simp only [Element.areCanonical, Element.isCanonical, Bool.and_eq_true] at h
    simp only [Element.listDesignators, Element.designators, List.mem_append, or_imp, forall_and]
    exact ⟨⟨Index.isDesignator_of_isCanonical index h.1.1,
      Literal.isDesignator_of_isCanonical value h.1.2⟩, Element.isDesignator_of_areCanonical es h.2⟩

end

/-! ## Operators outside parentheses -/

theorem isReserved_congr {v w : Text} (h : sameWord v w = true) : isReserved v = isReserved w := by
  rw [isReserved, isReserved, sameWord_iff.1 h]

/-- The operators that are words, and the negation, are reserved. -/
theorem isReserved_operators :
    (∀ p ∈ BinaryOp.words, isReserved p.1.toList = true) ∧ isReserved "not".toList = true := by
  decide

/-- A name or a designator is an operand. -/
theorem operand_of_word {w : Text}
    (h : isReserved w = true → sameWord w "range".toList = true) (operand : Bool) :
    (word w).operator? operand = none ∧ (word w).operandAfter operand = true := by
  have hne : ∀ s : Text, isReserved s = true → sameWord "range".toList s = false →
      sameWord w s = false := by
    intro s hs hrange
    cases hws : sameWord w s with
    | false => rfl
    | true =>
      have hw : sameWord w "range".toList = true := h (by rw [isReserved_congr hws]; exact hs)
      have : sameWord "range".toList s = true := by
        rw [sameWord_iff] at hws hw ⊢
        rw [← hw, hws]
      rw [hrange] at this
      cases this
  have hop : (word w).operator? operand = none := by
    have key : ∀ p ∈ BinaryOp.words, sameWord "range".toList p.1.toList = false := by decide
    simp only [operator?, BinaryOp.ofWord?, Option.map_eq_none_iff, List.find?_eq_none]
    intro p hp
    simpa using hne _ (isReserved_operators.1 p hp) (key p hp)
  refine ⟨hop, ?_⟩
  rw [operandAfter, hop]
  simp only [Option.isSome_none, Bool.false_eq_true, if_false]
  rw [hne _ isReserved_operators.2 (by decide)]
  rfl

theorem operand_of_plain {w : Text} (h : isReserved w = false) (operand : Bool) :
    (word w).operator? operand = none ∧ (word w).operandAfter operand = true :=
  operand_of_word (fun hr => by rw [h] at hr; cases hr) operand

/-- A sequence that is one operand without an operator. -/
def IsOperand (tokens : List Token) : Prop :=
  (∀ position, operators false position tokens = []) ∧ endsOperand false tokens = true

theorem isOperand_word {w : Text} (h : isReserved w = false) : IsOperand [word w] := by
  obtain ⟨hop, hafter⟩ := operand_of_plain h false
  exact ⟨fun _ => by simp [operators, operatorAt, hop], by simp [hafter]⟩

/-- A word with a group after it. -/
theorem isOperand_call {w : Text} (h : isReserved w = false) (inner : List Token) :
    IsOperand [word w, group inner] := by
  obtain ⟨hop, hafter⟩ := operand_of_plain h false
  have hnone : (group inner).operator? true = none := rfl
  exact ⟨fun _ => by simp [operators, operatorAt, hop, hafter, hnone], by simp [hafter]; rfl⟩

/-- A word with a quoted literal after it. -/
theorem isOperand_based {w : Text} (h : isReserved w = false) (body : Text) :
    IsOperand [word w, quoted body] := by
  obtain ⟨hop, hafter⟩ := operand_of_plain h false
  have hnone : (quoted body).operator? true = none := rfl
  exact ⟨fun _ => by simp [operators, operatorAt, hop, hafter, hnone], by simp [hafter]; rfl⟩

/-- Two words joined by a mark. -/
theorem isOperand_selected {v w : Text} (hv : isReserved v = false)
    (hw : isReserved w = true → sameWord w "range".toList = true) {c : Char}
    (hc : c = '.' ∨ c = '\'') : IsOperand [word v, mark c, word w] := by
  obtain ⟨hop, hafter⟩ := operand_of_plain hv false
  obtain ⟨hop', hafter'⟩ := operand_of_word hw true
  have hmark : (mark c).operator? true = none ∧ (mark c).operandAfter true = true := by
    rcases hc with rfl | rfl
    · decide
    · decide
  exact ⟨fun _ => by simp [operators, operatorAt, hop, hafter, hmark, hop'],
    by simp [hafter, hmark, hafter']⟩

theorem Reference.isOperand_tokens :
    ∀ r : Reference, (∀ d ∈ r.designators, IsDesignator d) → IsOperand r.tokens
  | .name n, _ => isOperand_word n.not_isReserved
  | .member record field, _ =>
    isOperand_selected record.not_isReserved
      (fun h => by rw [field.not_isReserved] at h; cases h) (.inl rfl)
  | .indexed object index, _ => isOperand_call object.not_isReserved index.tokens
  | .attributeOf object designator, h =>
    isOperand_selected object.not_isReserved
      (h designator (by simp [Reference.designators])).range_of_isReserved (.inr rfl)

theorem isOperand_signed (negative : Bool) (digits : Text) :
    IsOperand ((if negative then [mark '-'] else []) ++ [number digits]) := by
  cases negative with
  | false => exact ⟨fun _ => rfl, rfl⟩
  | true => exact ⟨fun _ => rfl, rfl⟩

theorem Literal.isOperand_tokens : ∀ l : Literal, IsOperand l.tokens
  | .bit _ => ⟨fun _ => rfl, rfl⟩
  | .boolean value => isOperand_word (isReserved_names.2.2 _ (by cases value <;> simp))
  | .real value => isOperand_signed value.negative _
  | .integer value => by
    have := isOperand_signed (decide (value.val < 0)) (Text.ofNat value.val.natAbs)
    simpa only [decide_eq_true_eq, Literal.tokens, Integer64.tokens] using this
  | .logic _ => ⟨fun _ => rfl, rfl⟩
  | .vector (.bits _) => ⟨fun _ => rfl, rfl⟩
  | .vector (.logics _) => ⟨fun _ => rfl, rfl⟩
  | .vector (.hexadecimal _) => isOperand_based (isReserved_names.2.2 "x" (by simp)) _
  | .vector (.octal _) => isOperand_based (isReserved_names.2.2 "o" (by simp)) _
  | .vector (.aggregate _) => ⟨fun _ => rfl, rfl⟩

/-- A connective that is a binary operator after an operand. -/
def IsOperator (s : Text) (op : BinaryOp) : Prop :=
  (connective s).operator? true = some op

theorem ArithOp.isOperator (op : ArithOp) : IsOperator op.symbol.toList (.arith op) := by
  cases op <;> rfl

theorem RelOp.isOperator (op : RelOp) : IsOperator op.symbol.toList (.rel op) := by
  cases op <;> rfl

theorem LogicOp.isOperator (op : LogicOp) : IsOperator op.symbol.toList (.logic op) := by
  cases op <;> rfl

/-- An operator between two operands stands between their operators. -/
theorem operators_spaced {s : Text} {op : BinaryOp} (hs : IsOperator s op) {ts us : List Token}
    (hts : endsOperand false ts = true) (position : Nat) :
    operators false position (ts ++ (spaced s ++ us)) =
      operators false position ts
        ++ ⟨position + (render ts).length + 1, position + (render ts).length + 1 + s.length, op⟩
        :: operators false (position + (render ts).length + 1 + s.length + 1) us := by
  have hblank : ∀ operand, (mark ' ').operandAfter operand = operand := by decide
  have hnone : ∀ operand position, (mark ' ').operatorAt operand position = [] := by
    intro operand _
    cases operand
    · rfl
    · rfl
  have hop : (connective s).operator? true = some op := hs
  have hafter : (connective s).operandAfter true = false := by
    simp only [operandAfter.eq_def, hop]; rfl
  rw [operators_append, hts]
  simp only [spaced, List.cons_append, List.nil_append, operators, hblank, hnone, hafter, text_mark,
    List.length_singleton, text_connective]
  rw [operatorAt, hop, text_connective]
  rfl

theorem endsOperand_spaced {s : Text} {op : BinaryOp} (hs : IsOperator s op) {ts us : List Token}
    (hts : endsOperand false ts = true) (hus : endsOperand false us = true) :
    endsOperand false (ts ++ (spaced s ++ us)) = true := by
  have hblank : ∀ operand, (mark ' ').operandAfter operand = operand := by decide
  have hop : (connective s).operator? true = some op := hs
  have hafter : (connective s).operandAfter true = false := by
    simp only [operandAfter.eq_def, hop]; rfl
  simp [spaced, hts, hblank, hafter, hus]

/-- An expression ends with an operand. -/
theorem Expr.endsOperand_tokens :
    ∀ e : Expr, (∀ d ∈ e.designators, IsDesignator d) → endsOperand false e.tokens = true
  | .reference r, h => (r.isOperand_tokens h).2
  | .literal l, _ => l.isOperand_tokens.2
  | .arith lhs op rhs, h => by
    simp only [Expr.designators, List.mem_append, or_imp, forall_and] at h
    exact endsOperand_spaced op.isOperator (Expr.endsOperand_tokens lhs h.1)
      (Expr.endsOperand_tokens rhs h.2)
  | .group inner, _ => rfl
  | .compare lhs op rhs, h => by
    simp only [Expr.designators, List.mem_append, or_imp, forall_and] at h
    exact endsOperand_spaced op.isOperator (Expr.endsOperand_tokens lhs h.1)
      (Expr.endsOperand_tokens rhs h.2)
  | .edge kind signal, _ =>
    (isOperand_call kind.not_isReserved _).2
  | .negation operand, h => Expr.endsOperand_tokens operand h
  | .logic lhs op rhs, h => by
    simp only [Expr.designators, List.mem_append, or_imp, forall_and] at h
    exact endsOperand_spaced op.isOperator (Expr.endsOperand_tokens lhs h.1)
      (Expr.endsOperand_tokens rhs h.2)
  | .convert kind value, _ =>
    (isOperand_call kind.not_isReserved _).2
  | .call name arguments, _ => (isOperand_call name.not_isReserved _).2

theorem IsOperand.tier_le {tokens : List Token} (h : IsOperand tokens) (position n : Nat) :
    (n = 5 → operators false position tokens = []) ∧
      ∀ o ∈ operators false position tokens, n ≤ o.op.tier := by
  rw [h.1]
  exact ⟨fun _ => rfl, by simp⟩

theorem BinaryOp.tier_lt (op : BinaryOp) : op.tier < 5 := by
  cases op with
  | logic op => cases op <;> decide
  | rel op => cases op <;> decide
  | arith op => cases op <;> decide

/-- The tiers that two operands leave to the operator between them. -/
theorem Expr.tier_of_areOperands {lhs rhs : Expr} {op : BinaryOp}
    (h : lhs.areOperands op rhs = true) :
    op.tier ≤ lhs.tier ∧ op.tier < rhs.tier ∧ (op.isRel = true → op.tier < lhs.tier) := by
  simp only [Expr.areOperands, Bool.and_eq_true, decide_eq_true_eq] at h
  obtain ⟨hl, hr⟩ := h
  by_cases hrel : op.isRel = true
  · rw [if_pos hrel, decide_eq_true_eq] at hl
    exact ⟨Nat.le_of_lt hl, hr, fun _ => hl⟩
  · rw [if_neg hrel, decide_eq_true_eq] at hl
    exact ⟨hl, hr, fun h => absurd h hrel⟩

theorem tier_le_of_areOperands {lhs rhs : Expr} {op : BinaryOp} {s : Text} (hs : IsOperator s op)
    (hlhs : endsOperand false lhs.tokens = true) (h : lhs.areOperands op rhs = true)
    (hl : ∀ position, ∀ o ∈ operators false position lhs.tokens, lhs.tier ≤ o.op.tier)
    (hr : ∀ position, ∀ o ∈ operators false position rhs.tokens, rhs.tier ≤ o.op.tier)
    (position : Nat) :
    (op.tier = 5 → operators false position (lhs.tokens ++ (spaced s ++ rhs.tokens)) = []) ∧
      ∀ o ∈ operators false position (lhs.tokens ++ (spaced s ++ rhs.tokens)),
        op.tier ≤ o.op.tier := by
  obtain ⟨hlt, hrt, -⟩ := Expr.tier_of_areOperands h
  refine ⟨fun h5 => absurd h5 (Nat.ne_of_lt op.tier_lt), ?_⟩
  rw [operators_spaced hs hlhs]
  intro o ho
  rw [List.mem_append, List.mem_cons] at ho
  rcases ho with ho | rfl | ho
  · exact Nat.le_trans hlt (hl _ o ho)
  · exact Nat.le_refl _
  · exact Nat.le_trans (Nat.le_of_lt hrt) (hr _ o ho)

/-- **No operator outside the parentheses of an expression binds looser than its root.** -/
theorem Expr.tier_le_operators :
    ∀ e : Expr, e.isCanonical = true → ∀ position,
      (e.tier = 5 → operators false position e.tokens = []) ∧
        ∀ o ∈ operators false position e.tokens, e.tier ≤ o.op.tier
  | .reference r, h, position => by
    have hd := Expr.isDesignator_of_isCanonical (.reference r) h
    exact IsOperand.tier_le (r.isOperand_tokens hd) position _
  | .literal l, _, position => IsOperand.tier_le l.isOperand_tokens position _
  | .group inner, _, position => IsOperand.tier_le ⟨fun _ => rfl, rfl⟩ position _
  | .edge kind signal, _, position =>
    IsOperand.tier_le (isOperand_call kind.not_isReserved _) position _
  | .convert kind value, _, position =>
    IsOperand.tier_le (isOperand_call kind.not_isReserved _) position _
  | .call name arguments, _, position =>
    IsOperand.tier_le (isOperand_call name.not_isReserved _) position _
  | .negation operand, h, position => by
    simp only [Expr.isCanonical, Bool.and_eq_true, beq_iff_eq] at h
    have hnil : operators false position (Expr.negation operand).tokens = [] :=
      (Expr.tier_le_operators operand h.1 (position + 3 + 1)).1 h.2
    rw [hnil]
    exact ⟨fun _ => rfl, by simp⟩
  | .arith lhs op rhs, h, position => by
    have hd := Expr.isDesignator_of_isCanonical (.arith lhs op rhs) h
    simp only [Expr.designators, List.mem_append, or_imp, forall_and] at hd
    simp only [Expr.isCanonical, Bool.and_eq_true] at h
    exact tier_le_of_areOperands op.isOperator (lhs.endsOperand_tokens hd.1) h.2
      (fun p => (Expr.tier_le_operators lhs h.1.1 p).2)
      (fun p => (Expr.tier_le_operators rhs h.1.2 p).2) position
  | .compare lhs op rhs, h, position => by
    have hd := Expr.isDesignator_of_isCanonical (.compare lhs op rhs) h
    simp only [Expr.designators, List.mem_append, or_imp, forall_and] at hd
    simp only [Expr.isCanonical, Bool.and_eq_true] at h
    exact tier_le_of_areOperands op.isOperator (lhs.endsOperand_tokens hd.1) h.2
      (fun p => (Expr.tier_le_operators lhs h.1.1 p).2)
      (fun p => (Expr.tier_le_operators rhs h.1.2 p).2) position
  | .logic lhs op rhs, h, position => by
    have hd := Expr.isDesignator_of_isCanonical (.logic lhs op rhs) h
    simp only [Expr.designators, List.mem_append, or_imp, forall_and] at hd
    simp only [Expr.isCanonical, Bool.and_eq_true] at h
    exact tier_le_of_areOperands op.isOperator (lhs.endsOperand_tokens hd.1) h.2
      (fun p => (Expr.tier_le_operators lhs h.1.1 p).2)
      (fun p => (Expr.tier_le_operators rhs h.1.2 p).2) position

end CanonicalVhdl
