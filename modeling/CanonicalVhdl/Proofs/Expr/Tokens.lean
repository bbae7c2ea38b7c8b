import CanonicalVhdl.Expr.Print
import CanonicalVhdl.Lexical.Ident
import CanonicalVhdl.Proofs.Number.Text
import CanonicalVhdl.Proofs.Token.Phrase

/-!
# Expressions as tokens

The text of an expression is a phrase, provided that its attribute designators are
names.  No token outside its parentheses is a word with a meaning for statements,
a separator or an arrow, provided that no designator is a reserved word but `range`.

## Main definitions

* `Expr.tokens` and its companions — the tokens of expressions and their parts.
* `Expr.designators` and its companions — the attribute designators inside.
* `Token.isCalm` — the tokens that stand outside the parentheses of expressions.

## Main statements

* `Expr.render_tokens` and its companions — the tokens make up the canonical text.
* `Expr.isPhrase`, `Expr.isCalm` and their companions — what these tokens are like.
-/

namespace CanonicalVhdl

open Text Token

/-! ## Identifiers -/

namespace Ident

variable (i : Ident)

theorem isName : IsName i.text := by
  have h := i.valid
  simp only [isIdent, Bool.and_eq_true] at h
  exact ⟨h.1.1.1.1.1, h.1.1.1.2⟩

theorem not_isReserved : isReserved i.text = false := by
  have h := i.valid
  simp only [isIdent, Bool.and_eq_true, Bool.not_eq_true'] at h
  exact h.2

theorem ofText?_text : Ident.ofText? i.text = some i := by
  rw [Ident.ofText?, dif_pos i.valid]

theorem isRun : IsRun i.text := i.isName.isRun

/-- A text that is an identifier is a name that is not reserved. -/
theorem of_ofText? {t : Text} {i : Ident} (h : Ident.ofText? t = some i) : i.text = t := by
  rw [Ident.ofText?] at h
  split at h
  · obtain rfl := Option.some.inj h; rfl
  · cases h

theorem ofText?_eq_none {t : Text} {c : Char} (hc : c ∈ t) (hn : isIdentChar c = false) :
    Ident.ofText? t = none := by
  cases h : Ident.ofText? t with
  | none => rfl
  | some i => rw [← of_ofText? h] at hc; exact absurd hc (i.isRun.not_mem hn)

theorem ofText?_eq_none_of_isReserved {t : Text} (h : isReserved t = true) :
    Ident.ofText? t = none := by
  cases hi : Ident.ofText? t with
  | none => rfl
  | some i =>
    have := i.not_isReserved
    rw [of_ofText? hi, h] at this
    cases this

end Ident

/-! ## Tokens -/

mutual

/-- The tokens of an expression. -/
def Expr.tokens : Expr → List Token
  | .reference r => r.tokens
  | .literal l => l.tokens
  | .arith lhs op rhs => lhs.tokens ++ (spaced op.symbol.toList ++ rhs.tokens)
  | .group inner => [group inner.tokens]
  | .compare lhs op rhs => lhs.tokens ++ (spaced op.symbol.toList ++ rhs.tokens)
  | .edge kind signal => [word kind.name.toList, group signal.tokens]
  | .negation operand => word "not".toList :: mark ' ' :: operand.tokens
  | .logic lhs op rhs => lhs.tokens ++ (spaced op.symbol.toList ++ rhs.tokens)
  | .convert kind value => [word kind.name.toList, group value.tokens]
  | .call name arguments => [word name.text, group (commaJoin (Argument.tokenLists arguments))]

/-- The tokens of an argument. -/
def Argument.tokens : Argument → List Token
  | .mk none value => value.tokens
  | .mk (some parameter) value => [word parameter.text] ++ (spaced "=>".toList ++ value.tokens)

/-- The tokens of arguments. -/
def Argument.tokenLists : List Argument → List (List Token)
  | [] => []
  | a :: as => a.tokens :: Argument.tokenLists as

/-- The tokens of a reference. -/
def Reference.tokens : Reference → List Token
  | .name n => [word n.text]
  | .member record member => [word record.text, mark '.', word member.text]
  | .indexed name index => [word name.text, group index.tokens]
  | .attributeOf object designator => [word object.text, mark '\'', word designator]

/-- The tokens of an index. -/
def Index.tokens : Index → List Token
  | .position value => value.tokens
  | .slice range => range.tokens
  | .others => [word "others".toList]

/-- The tokens of a range. -/
def Range.tokens : Range → List Token
  | .ascending low high => low.tokens ++ (spaced "to".toList ++ high.tokens)
  | .descending high low => high.tokens ++ (spaced "downto".toList ++ low.tokens)

/-- The tokens of a literal. -/
def Literal.tokens : Literal → List Token
  | .bit value => [ticked value.char]
  | .boolean value => [word (if value then "true" else "false").toList]
  | .real value => value.tokens
  | .integer value => value.tokens
  | .logic value => [ticked value.char]
  | .vector value => value.tokens

/-- The tokens of a vector literal. -/
def VectorLiteral.tokens : VectorLiteral → List Token
  | .bits values => [quoted (values.map Bit.char)]
  | .logics values => [quoted (values.map Logic.char)]
  | .hexadecimal digits => [word ['x'], quoted (digits.map HexDigit.char)]
  | .octal digits => [word ['o'], quoted (digits.map OctalDigit.char)]
  | .aggregate elements => [group (commaJoin (Element.tokenLists elements))]

/-- The tokens of an element of an aggregate. -/
def Element.tokens : Element → List Token
  | .mk index value => index.tokens ++ (spaced "=>".toList ++ value.tokens)

/-- The tokens of elements. -/
def Element.tokenLists : List Element → List (List Token)
  | [] => []
  | e :: es => e.tokens :: Element.tokenLists es

end

theorem Argument.tokenLists_eq_map (as : List Argument) :
    Argument.tokenLists as = as.map Argument.tokens := by
  induction as with
  | nil => rfl
  | cons a as ih => rw [Argument.tokenLists, ih]; rfl

theorem Argument.texts_eq_map (as : List Argument) : Argument.texts as = as.map Argument.text := by
  induction as with
  | nil => rfl
  | cons a as ih => rw [Argument.texts, ih]; rfl

theorem Element.tokenLists_eq_map (es : List Element) :
    Element.tokenLists es = es.map Element.tokens := by
  induction es with
  | nil => rfl
  | cons e es ih => rw [Element.tokenLists, ih]; rfl

theorem Element.texts_eq_map (es : List Element) : Element.texts es = es.map Element.text := by
  induction es with
  | nil => rfl
  | cons e es ih => rw [Element.texts, ih]; rfl

mutual

/-- The tokens of an expression make up its text. -/
theorem Expr.render_tokens : ∀ e : Expr, render e.tokens = e.text
  | .reference r => r.render_tokens
  | .literal l => l.render_tokens
  | .arith lhs op rhs => by
    simp [Expr.tokens, Expr.text, Expr.render_tokens lhs, Expr.render_tokens rhs]
  | .group inner => by simp [Expr.tokens, Expr.text, Expr.render_tokens inner]
  | .compare lhs op rhs => by
    simp [Expr.tokens, Expr.text, Expr.render_tokens lhs, Expr.render_tokens rhs]
  | .edge kind signal => by simp [Expr.tokens, Expr.text, Reference.render_tokens signal]
  | .negation operand => by simp [Expr.tokens, Expr.text, Expr.render_tokens operand]
  | .logic lhs op rhs => by
    simp [Expr.tokens, Expr.text, Expr.render_tokens lhs, Expr.render_tokens rhs]
  | .convert kind value => by simp [Expr.tokens, Expr.text, Expr.render_tokens value]
  | .call name arguments => by
    simp [Expr.tokens, Expr.text, render_commaJoin, Argument.map_render arguments]

/-- The tokens of an argument make up its text. -/
theorem Argument.render_tokens : ∀ a : Argument, render a.tokens = a.text
  | .mk none value => by simp [Argument.tokens, Argument.text, Expr.render_tokens value]
  | .mk (some parameter) value => by
    simp [Argument.tokens, Argument.text, Expr.render_tokens value]

theorem Argument.map_render :
    ∀ as : List Argument, (Argument.tokenLists as).map render = Argument.texts as
  | [] => rfl
  | a :: as => by
    simp [Argument.tokenLists, Argument.texts, Argument.render_tokens a, Argument.map_render as]

/-- The tokens of a reference make up its text. -/
theorem Reference.render_tokens : ∀ r : Reference, render r.tokens = r.text
  | .name n => by simp [Reference.tokens, Reference.text]
  | .member record member => by simp [Reference.tokens, Reference.text]
  | .indexed name index => by simp [Reference.tokens, Reference.text, Index.render_tokens index]
  | .attributeOf object designator => by simp [Reference.tokens, Reference.text]

/-- The tokens of an index make up its text. -/
theorem Index.render_tokens : ∀ i : Index, render i.tokens = i.text
  | .position value => by simp [Index.tokens, Index.text, Expr.render_tokens value]
  | .slice range => by simp [Index.tokens, Index.text, Range.render_tokens range]
  | .others => by simp [Index.tokens, Index.text]

/-- The tokens of a range make up its text. -/
theorem Range.render_tokens : ∀ r : Range, render r.tokens = r.text
  | .ascending low high => by
    simp [Range.tokens, Range.text, Expr.render_tokens low, Expr.render_tokens high]
  | .descending high low => by
    simp [Range.tokens, Range.text, Expr.render_tokens low, Expr.render_tokens high]

/-- The tokens of a literal make up its text. -/
theorem Literal.render_tokens : ∀ l : Literal, render l.tokens = l.text
  | .bit value => by simp [Literal.tokens, Literal.text, tickedText]
  | .boolean value => by simp [Literal.tokens, Literal.text]
  | .real value => value.render_tokens
  | .integer value => value.render_tokens
  | .logic value => by simp [Literal.tokens, Literal.text, tickedText]
  | .vector value => VectorLiteral.render_tokens value

/-- The tokens of a vector literal make up its text. -/
theorem VectorLiteral.render_tokens : ∀ v : VectorLiteral, render v.tokens = v.text
  | .bits values => by simp [VectorLiteral.tokens, VectorLiteral.text, quotedText]
  | .logics values => by simp [VectorLiteral.tokens, VectorLiteral.text, quotedText]
  | .hexadecimal digits => by simp [VectorLiteral.tokens, VectorLiteral.text, quotedText]
  | .octal digits => by simp [VectorLiteral.tokens, VectorLiteral.text, quotedText]
  | .aggregate elements => by
    simp [VectorLiteral.tokens, VectorLiteral.text, render_commaJoin, Element.map_render elements]

/-- The tokens of an element make up its text. -/
theorem Element.render_tokens : ∀ e : Element, render e.tokens = e.text
  | .mk index value => by
    simp [Element.tokens, Element.text, Index.render_tokens index, Literal.render_tokens value]

theorem Element.map_render :
    ∀ es : List Element, (Element.tokenLists es).map render = Element.texts es
  | [] => rfl
  | e :: es => by
    simp [Element.tokenLists, Element.texts, Element.render_tokens e, Element.map_render es]

end

/-! ## Attribute designators -/

mutual

/-- The attribute designators in an expression. -/
def Expr.designators : Expr → List Text
  | .reference r => r.designators
  | .literal l => l.designators
  | .arith lhs _ rhs => lhs.designators ++ rhs.designators
  | .group inner => inner.designators
  | .compare lhs _ rhs => lhs.designators ++ rhs.designators
  | .edge _ signal => signal.designators
  | .negation operand => operand.designators
  | .logic lhs _ rhs => lhs.designators ++ rhs.designators
  | .convert _ value => value.designators
  | .call _ arguments => Argument.listDesignators arguments

/-- The attribute designators in an argument. -/
def Argument.designators : Argument → List Text
  | .mk _ value => value.designators

/-- The attribute designators in arguments. -/
def Argument.listDesignators : List Argument → List Text
  | [] => []
  | a :: as => a.designators ++ Argument.listDesignators as

/-- The attribute designators in a reference. -/
def Reference.designators : Reference → List Text
  | .name _ | .member _ _ => []
  | .indexed _ index => index.designators
  | .attributeOf _ designator => [designator]

/-- The attribute designators in an index. -/
def Index.designators : Index → List Text
  | .position value => value.designators
  | .slice range => range.designators
  | .others => []

/-- The attribute designators in a range. -/
def Range.designators : Range → List Text
  | .ascending low high => low.designators ++ high.designators
  | .descending high low => high.designators ++ low.designators

/-- The attribute designators in a literal. -/
def Literal.designators : Literal → List Text
  | .bit _ | .boolean _ | .real _ | .integer _ | .logic _ => []
  | .vector value => value.designators

/-- The attribute designators in a vector literal. -/
def VectorLiteral.designators : VectorLiteral → List Text
  | .bits _ | .logics _ | .hexadecimal _ | .octal _ => []
  | .aggregate elements => Element.listDesignators elements

/-- The attribute designators in an element of an aggregate. -/
def Element.designators : Element → List Text
  | .mk index value => index.designators ++ value.designators

/-- The attribute designators in elements. -/
def Element.listDesignators : List Element → List Text
  | [] => []
  | e :: es => e.designators ++ Element.listDesignators es

end

/-- A name that is no reserved word but `range`. -/
structure IsDesignator (d : Text) : Prop extends IsName d where
  /-- The only reserved word among designators is `range`. -/
  range_of_isReserved : isReserved d = true → sameWord d "range".toList = true

/-! ## Phrases -/

theorem isName_of_all {w : Text} (h : (w.head?.any Char.isAlpha && w.all isIdentChar) = true) :
    IsName w := by
  rw [Bool.and_eq_true] at h
  exact ⟨h.1, h.2⟩

theorem Edge.isName (kind : Edge) : IsName kind.name.toList := by
  cases kind <;> exact isName_of_all (by decide)

theorem Conversion.isName (kind : Conversion) : IsName kind.name.toList := by
  cases kind <;> exact isName_of_all (by decide)

theorem ArithOp.isConnective (op : ArithOp) : isConnective op.symbol.toList = true := by
  cases op <;> decide

theorem RelOp.isConnective (op : RelOp) : isConnective op.symbol.toList = true := by
  cases op <;> decide

theorem LogicOp.isConnective (op : LogicOp) : isConnective op.symbol.toList = true := by
  cases op <;> decide

theorem Integer64.isPhrase (n : Integer64) : IsPhrase n.tokens := by
  have hall := all_isDigit_ofNat n.val.natAbs
  have hhead : (Text.ofNat n.val.natAbs).head?.any Char.isDigit = true := by
    cases hd : Text.ofNat n.val.natAbs with
    | nil => exact absurd hd (ofNat_ne_nil _)
    | cons c t => rw [hd] at hall; simpa using List.all_eq_true.1 hall c (by simp)
  rw [tokens]
  split
  · exact isPhrase_signed hhead (all_isNumberChar_of_all_isDigit hall)
  · exact isPhrase_number hhead (all_isNumberChar_of_all_isDigit hall)

theorem Real64.isPhrase (x : Real64) : IsPhrase x.tokens := by
  obtain ⟨hhead, hall⟩ := (x.shortest fun _ => true).positional_chars
  rw [tokens]
  split
  · exact isPhrase_signed hhead hall
  · exact isPhrase_number hhead hall

/-- Whether a character may stand in a bit string that is written out. -/
def isValueChar (c : Char) : Bool :=
  (isIdentChar c && c != '_') || c == '-'

theorem ne_of_isValueChar {c d : Char} (h : isValueChar c = true) (hd : isValueChar d = false) :
    c ≠ d := by
  rintro rfl
  rw [h] at hd
  cases hd

theorem HexDigit.isValueChar_char (d : HexDigit) : isValueChar d.char = true := by
  have key : ∀ d : Fin 16, isValueChar (digitChar d.val) = true := by decide
  exact key d

theorem OctalDigit.isValueChar_char (d : OctalDigit) : isValueChar d.char = true := by
  have key : ∀ d : Fin 8, isValueChar (digitChar d.val) = true := by decide
  exact key d

theorem Bit.isValueChar_char (b : Bit) : isValueChar b.char = true := by
  cases b <;> decide

theorem Logic.isValueChar_char (l : Logic) : isValueChar l.char = true := by
  cases l <;> decide

/-- The characters of bit strings are neither quotation marks nor line ends. -/
theorem all_plain_map {α : Type} {char : α → Char} (h : ∀ a, isValueChar (char a) = true)
    (as : List α) : ((as.map char).all fun c => c != '"' && c != '\n') = true := by
  rw [List.all_map, List.all_eq_true]
  intro a _
  simpa using And.intro (ne_of_isValueChar (h a) (by decide : isValueChar '"' = false))
    (ne_of_isValueChar (h a) (by decide : isValueChar '\n' = false))

theorem not_mem_map {α : Type} {char : α → Char} (h : ∀ a, isValueChar (char a) = true)
    (as : List α) {c : Char} (hc : isValueChar c = false) : c ∉ as.map char := by
  rw [List.mem_map]
  rintro ⟨a, -, ha⟩
  exact ne_of_isValueChar (h a) hc ha

theorem Bit.isPhrase (b : Bit) : IsPhrase [ticked b.char] :=
  isPhrase_ticked (by cases b <;> decide) (ne_of_isValueChar b.isValueChar_char (by decide))

theorem Logic.isPhrase (l : Logic) : IsPhrase [ticked l.char] :=
  isPhrase_ticked (by cases l <;> decide) (ne_of_isValueChar l.isValueChar_char (by decide))

mutual

/-- The tokens of an expression are a phrase. -/
theorem Expr.isPhrase :
    ∀ e : Expr, (∀ d ∈ e.designators, IsName d) → IsPhrase e.tokens
  | .reference r, h => Reference.isPhrase r h
  | .literal l, h => Literal.isPhrase l h
  | .arith lhs op rhs, h => by
    simp only [Expr.designators, List.mem_append, or_imp, forall_and] at h
    exact (Expr.isPhrase lhs h.1).spaced (Expr.isPhrase rhs h.2) op.isConnective
  | .group inner, h => isPhrase_group (Expr.isPhrase inner h)
  | .compare lhs op rhs, h => by
    simp only [Expr.designators, List.mem_append, or_imp, forall_and] at h
    exact (Expr.isPhrase lhs h.1).spaced (Expr.isPhrase rhs h.2) op.isConnective
  | .edge kind signal, h => (Reference.isPhrase signal h).call kind.isName
  | .negation operand, h => (Expr.isPhrase operand h).prefixed (isName_of_all (by decide))
  | .logic lhs op rhs, h => by
    simp only [Expr.designators, List.mem_append, or_imp, forall_and] at h
    exact (Expr.isPhrase lhs h.1).spaced (Expr.isPhrase rhs h.2) op.isConnective
  | .convert kind value, h => (Expr.isPhrase value h).call kind.isName
  | .call name arguments, h =>
    (IsPhrase.commaJoin (Argument.all_isPhrase arguments h)).call name.isName

/-- The tokens of an argument are a phrase. -/
theorem Argument.isPhrase :
    ∀ a : Argument, (∀ d ∈ a.designators, IsName d) → IsPhrase a.tokens
  | .mk none value, h => Expr.isPhrase value h
  | .mk (some parameter) value, h =>
    (isPhrase_word parameter.isName).spaced (Expr.isPhrase value h) (by decide)

theorem Argument.all_isPhrase :
    ∀ as : List Argument, (∀ d ∈ Argument.listDesignators as, IsName d) →
      ∀ p ∈ Argument.tokenLists as, IsPhrase p
  | [], _, p, hp => absurd hp (by simp [Argument.tokenLists])
  | a :: as, h, p, hp => by
    simp only [Argument.listDesignators, List.mem_append, or_imp, forall_and] at h
    rw [Argument.tokenLists, List.mem_cons] at hp
    rcases hp with rfl | hp
    · exact Argument.isPhrase a h.1
    · exact Argument.all_isPhrase as h.2 p hp

/-- The tokens of a reference are a phrase. -/
theorem Reference.isPhrase :
    ∀ r : Reference, (∀ d ∈ r.designators, IsName d) → IsPhrase r.tokens
  | .name n, _ => isPhrase_word n.isName
  | .member record member, _ => isPhrase_selected record.isName member.isName (.inl rfl)
  | .indexed name index, h => (Index.isPhrase index h).call name.isName
  | .attributeOf object designator, h =>
    isPhrase_selected object.isName (h designator (by simp [Reference.designators])) (.inr rfl)

/-- The tokens of an index are a phrase. -/
theorem Index.isPhrase :
    ∀ i : Index, (∀ d ∈ i.designators, IsName d) → IsPhrase i.tokens
  | .position value, h => Expr.isPhrase value h
  | .slice range, h => Range.isPhrase range h
  | .others, _ => isPhrase_word (isName_of_all (by decide))

/-- The tokens of a range are a phrase. -/
theorem Range.isPhrase :
    ∀ r : Range, (∀ d ∈ r.designators, IsName d) → IsPhrase r.tokens
  | .ascending low high, h => by
    simp only [Range.designators, List.mem_append, or_imp, forall_and] at h
    exact (Expr.isPhrase low h.1).spaced (Expr.isPhrase high h.2) (by decide)
  | .descending high low, h => by
    simp only [Range.designators, List.mem_append, or_imp, forall_and] at h
    exact (Expr.isPhrase high h.1).spaced (Expr.isPhrase low h.2) (by decide)

/-- The tokens of a literal are a phrase. -/
theorem Literal.isPhrase :
    ∀ l : Literal, (∀ d ∈ l.designators, IsName d) → IsPhrase l.tokens
  | .bit value, _ => value.isPhrase
  | .boolean value, _ => isPhrase_word (by cases value <;> exact isName_of_all (by decide))
  | .real value, _ => value.isPhrase
  | .integer value, _ => value.isPhrase
  | .logic value, _ => value.isPhrase
  | .vector value, h => VectorLiteral.isPhrase value h

/-- The tokens of a vector literal are a phrase. -/
theorem VectorLiteral.isPhrase :
    ∀ v : VectorLiteral, (∀ d ∈ v.designators, IsName d) → IsPhrase v.tokens
  | .bits values, _ => isPhrase_quoted (all_plain_map Bit.isValueChar_char values)
  | .logics values, _ => isPhrase_quoted (all_plain_map Logic.isValueChar_char values)
  | .hexadecimal digits, _ =>
    isPhrase_based (isName_of_all (by decide)) (all_plain_map HexDigit.isValueChar_char digits)
  | .octal digits, _ =>
    isPhrase_based (isName_of_all (by decide)) (all_plain_map OctalDigit.isValueChar_char digits)
  | .aggregate elements, h => isPhrase_group (IsPhrase.commaJoin (Element.all_isPhrase elements h))

/-- The tokens of an element are a phrase. -/
theorem Element.isPhrase :
    ∀ e : Element, (∀ d ∈ e.designators, IsName d) → IsPhrase e.tokens
  | .mk index value, h => by
    simp only [Element.designators, List.mem_append, or_imp, forall_and] at h
    exact (Index.isPhrase index h.1).spaced (Literal.isPhrase value h.2) (by decide)

theorem Element.all_isPhrase :
    ∀ es : List Element, (∀ d ∈ Element.listDesignators es, IsName d) →
      ∀ p ∈ Element.tokenLists es, IsPhrase p
  | [], _, p, hp => absurd hp (by simp [Element.tokenLists])
  | e :: es, h, p, hp => by
    simp only [Element.listDesignators, List.mem_append, or_imp, forall_and] at h
    rw [Element.tokenLists, List.mem_cons] at hp
    rcases hp with rfl | hp
    · exact Element.isPhrase e h.1
    · exact Element.all_isPhrase es h.2 p hp

end

/-! ## The tokens outside parentheses -/

namespace Token

/-- The reserved words that stand in expressions outside parentheses. -/
def expressionWords : List Text :=
  ["and", "or", "nand", "nor", "xor", "xnor", "mod", "rem", "not", "range"].map String.toList

/-- The symbols of operators. -/
def operatorSymbols : List Text :=
  ["=", "/=", "<", "<=", ">", ">=", "+", "-", "*", "/", "&"].map String.toList

/-- The tokens that stand outside the parentheses of expressions. -/
def isCalm : Token → Bool
  | word w => expressionWords.contains (fold w) || !isReserved w
  | symbol s => operatorSymbols.contains s
  | mark c => [' ', '.', '\'', '-'].contains c
  | quoted body => !body.contains '('
  | ticked c => c != '('
  | number _ | group _ => true

theorem isCalm_word {w : Text} (h : isReserved w = false) : (word w).isCalm = true := by
  rw [isCalm, h, Bool.not_false, Bool.or_true]

theorem isCalm_connective {s : Text}
    (h : (expressionWords.contains s || operatorSymbols.contains s) = true) :
    ∀ t ∈ spaced s, t.isCalm = true := by
  have key : ∀ s ∈ expressionWords ++ operatorSymbols, (connective s).isCalm = true := by decide
  have hc : (connective s).isCalm = true := key s (by simpa using h)
  simp only [spaced, List.forall_mem_cons]
  exact ⟨rfl, hc, rfl, by simp⟩

end Token

/-- The names with a meaning of their own are not reserved. -/
theorem isReserved_names :
    (∀ kind ∈ Conversion.all, isReserved kind.name.toList = false) ∧
      (∀ kind ∈ Edge.all, isReserved kind.name.toList = false) ∧
      ∀ w ∈ ["true", "false", "x", "o"], isReserved w.toList = false := by
  decide

theorem Conversion.not_isReserved (kind : Conversion) : isReserved kind.name.toList = false :=
  isReserved_names.1 kind (by cases kind <;> decide)

theorem Edge.not_isReserved (kind : Edge) : isReserved kind.name.toList = false :=
  isReserved_names.2.1 kind (by cases kind <;> decide)

theorem isCalm_designator {d : Text} (h : IsDesignator d) : (word d).isCalm = true := by
  cases hr : isReserved d with
  | false => exact isCalm_word hr
  | true =>
    have hf : fold d = fold "range".toList := sameWord_iff.1 (h.range_of_isReserved hr)
    rw [Token.isCalm, hf]
    rfl

theorem Reference.isCalm :
    ∀ r : Reference, (∀ d ∈ r.designators, IsDesignator d) → ∀ t ∈ r.tokens, t.isCalm = true
  | .name n, _ => by simpa [Reference.tokens] using isCalm_word n.not_isReserved
  | .member record field, _ => by
    simp only [Reference.tokens, List.forall_mem_cons]
    exact ⟨isCalm_word record.not_isReserved, rfl, isCalm_word field.not_isReserved, by simp⟩
  | .indexed object index, _ => by
    simp only [Reference.tokens, List.forall_mem_cons]
    exact ⟨isCalm_word object.not_isReserved, rfl, by simp⟩
  | .attributeOf object designator, h => by
    have hd := isCalm_designator (h designator (by simp [Reference.designators]))
    simp only [Reference.tokens, List.forall_mem_cons]
    exact ⟨isCalm_word object.not_isReserved, rfl, hd, by simp⟩

theorem isCalm_signed (negative : Bool) (digits : Text) :
    ∀ t ∈ (if negative then [mark '-'] else []) ++ [number digits], t.isCalm = true := by
  cases negative with
  | false => simp only [Bool.false_eq_true, if_false, List.nil_append, List.forall_mem_singleton]; rfl
  | true =>
    simp only [if_true, List.cons_append, List.nil_append, List.forall_mem_cons]
    exact ⟨rfl, rfl, by simp⟩

theorem isCalm_quoted {α : Type} {char : α → Char} (h : ∀ a, isValueChar (char a) = true)
    (as : List α) : (quoted (as.map char)).isCalm = true := by
  rw [Token.isCalm, Bool.not_eq_true', List.contains_eq_mem, decide_eq_false_iff_not]
  exact not_mem_map h as (by decide)

theorem Literal.isCalm : ∀ l : Literal, ∀ t ∈ l.tokens, t.isCalm = true
  | .bit value => by
    simp only [Literal.tokens, List.forall_mem_singleton]; cases value <;> rfl
  | .boolean value => by
    simp only [Literal.tokens, List.forall_mem_singleton]
    exact isCalm_word (isReserved_names.2.2 _ (by cases value <;> simp))
  | .real value => isCalm_signed value.negative _
  | .integer value => by
    have := isCalm_signed (decide (value.val < 0)) (Text.ofNat value.val.natAbs)
    simpa only [decide_eq_true_eq, Literal.tokens, Integer64.tokens] using this
  | .logic value => by
    simp only [Literal.tokens, List.forall_mem_singleton]; cases value <;> rfl
  | .vector v => by
    have key : ∀ w ∈ ["true", "false", "x", "o"], (word w.toList).isCalm = true :=
      fun w hw => isCalm_word (isReserved_names.2.2 w hw)
    cases v with
    | bits values =>
      simp only [Literal.tokens, VectorLiteral.tokens, List.forall_mem_singleton]
      exact isCalm_quoted Bit.isValueChar_char values
    | logics values =>
      simp only [Literal.tokens, VectorLiteral.tokens, List.forall_mem_singleton]
      exact isCalm_quoted Logic.isValueChar_char values
    | hexadecimal digits =>
      simp only [Literal.tokens, VectorLiteral.tokens, List.forall_mem_cons]
      exact ⟨key "x" (by simp), isCalm_quoted HexDigit.isValueChar_char digits, by simp⟩
    | octal digits =>
      simp only [Literal.tokens, VectorLiteral.tokens, List.forall_mem_cons]
      exact ⟨key "o" (by simp), isCalm_quoted OctalDigit.isValueChar_char digits, by simp⟩
    | aggregate => simp only [Literal.tokens, VectorLiteral.tokens, List.forall_mem_singleton]; rfl

/-- No token outside the parentheses of an expression has a meaning for statements. -/
theorem Expr.isCalm :
    ∀ e : Expr, (∀ d ∈ e.designators, IsDesignator d) → ∀ t ∈ e.tokens, t.isCalm = true
  | .reference r, h => Reference.isCalm r h
  | .literal l, _ => Literal.isCalm l
  | .arith lhs op rhs, h => by
    simp only [Expr.designators, List.mem_append, or_imp, forall_and] at h
    simp only [Expr.tokens, List.mem_append, or_imp, forall_and]
    exact ⟨Expr.isCalm lhs h.1, isCalm_connective (by cases op <;> decide), Expr.isCalm rhs h.2⟩
  | .group inner, _ => by simp only [Expr.tokens, List.forall_mem_singleton]; rfl
  | .compare lhs op rhs, h => by
    simp only [Expr.designators, List.mem_append, or_imp, forall_and] at h
    simp only [Expr.tokens, List.mem_append, or_imp, forall_and]
    exact ⟨Expr.isCalm lhs h.1, isCalm_connective (by cases op <;> decide), Expr.isCalm rhs h.2⟩
  | .edge kind signal, _ => by
    simp only [Expr.tokens, List.forall_mem_cons]
    exact ⟨isCalm_word kind.not_isReserved, rfl, by simp⟩
  | .negation operand, h => by
    have hnot : (word "not".toList).isCalm = true := by decide
    simp only [Expr.tokens, List.mem_cons, or_imp, forall_and, forall_eq]
    exact ⟨hnot, rfl, Expr.isCalm operand h⟩
  | .logic lhs op rhs, h => by
    simp only [Expr.designators, List.mem_append, or_imp, forall_and] at h
    simp only [Expr.tokens, List.mem_append, or_imp, forall_and]
    exact ⟨Expr.isCalm lhs h.1, isCalm_connective (by cases op <;> decide), Expr.isCalm rhs h.2⟩
  | .convert kind value, _ => by
    simp only [Expr.tokens, List.forall_mem_cons]
    exact ⟨isCalm_word kind.not_isReserved, rfl, by simp⟩
  | .call name arguments, _ => by
    simp only [Expr.tokens, List.forall_mem_cons]
    exact ⟨isCalm_word name.not_isReserved, rfl, by simp⟩

end CanonicalVhdl
