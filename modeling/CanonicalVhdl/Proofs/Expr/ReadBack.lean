import CanonicalVhdl.Proofs.Expr.Designators
import CanonicalVhdl.Proofs.Expr.Parts

/-!
# Trees that their own reader gives back

Statements hold expressions, references and ranges of which only one thing matters:
the reader returns them from their canonical texts.  From that alone follows where
such a text may stand: it is one line, it starts and ends with no blank, blanks and
line ends around it change nothing, and no word of a statement stands outside its
parentheses.

## Main definitions

* `ReadsBack` — the reader returns a tree from its text, and the only reserved word
  among the attribute designators is `range`.

## Main statements

* `Expr.ReadsBack.reads`, `Reference.ReadsBack.reads`, `Range.ReadsBack.reads` — padding
  around the text changes nothing.
* `Expr.newline_not_mem`, `Reference.newline_not_mem`, `Range.newline_not_mem` — the
  text is one line.
-/

namespace CanonicalVhdl

open Text Token

/-! ## Texts of one line -/

theorem Text.IsRun.newline_not_mem {w : Text} (h : IsRun w) : '\n' ∉ w :=
  h.not_mem (by decide)

theorem newline_not_mem_signed (negative : Bool) {digits : Text}
    (h : digits.all isNumberChar = true) :
    '\n' ∉ (if negative then ['-'] else []) ++ digits := by
  intro hmem
  rcases List.mem_append.1 hmem with hmem | hmem
  · cases negative
    · cases hmem
    · exact absurd (List.mem_singleton.1 hmem) (by decide)
  · exact absurd (List.all_eq_true.1 h _ hmem) (by decide)

theorem Integer64.newline_not_mem (n : Integer64) : '\n' ∉ n.text := by
  rw [← n.render_tokens, Integer64.tokens]
  have := newline_not_mem_signed (decide (n.val < 0))
    (all_isNumberChar_of_all_isDigit (all_isDigit_ofNat n.val.natAbs))
  by_cases h : n.val < 0 <;> simpa [h] using this

theorem Real64.newline_not_mem (x : Real64) : '\n' ∉ x.text := by
  rw [← x.render_tokens, Real64.tokens]
  have := newline_not_mem_signed x.negative (x.shortest fun _ => true).positional_chars.2
  cases h : x.negative <;> simpa [h] using this

theorem newline_not_mem_quotedText {α : Type} {char : α → Char}
    (h : ∀ a, isValueChar (char a) = true) (as : List α) {base : Text} (hb : '\n' ∉ base) :
    '\n' ∉ quotedText base (as.map char) := by
  have := not_mem_map h as (c := '\n') (by decide)
  simp only [quotedText, List.mem_append, List.mem_cons, List.not_mem_nil, not_or, or_false]
  exact ⟨hb, by decide, this, by decide⟩

theorem newline_not_mem_ticked {c : Char} (h : isValueChar c = true) : '\n' ∉ tickedText c := by
  have : '\n' ≠ c := (ne_of_isValueChar h (by decide)).symm
  simp [tickedText, this]

theorem newline_not_mem_join {parts : List Text} (h : ∀ p ∈ parts, '\n' ∉ p) :
    '\n' ∉ Text.join ", ".toList parts := by
  induction parts with
  | nil => exact List.not_mem_nil
  | cons p ps ih =>
    have hp := h p List.mem_cons_self
    have hps := ih fun q hq => h q (List.mem_cons_of_mem p hq)
    cases ps with
    | nil => simpa [Text.join] using hp
    | cons q qs =>
      rw [Text.join, List.intercalate_cons_cons]
      simp only [List.mem_append, not_or]
      exact ⟨⟨hp, by decide⟩, hps⟩

mutual

/-- The text of an expression is one line. -/
theorem Expr.newline_not_mem : ∀ e : Expr, HasNames e.designators → '\n' ∉ e.text
  | .reference r, h => r.newline_not_mem h
  | .literal l, h => l.newline_not_mem h
  | .arith lhs op rhs, h | .compare lhs op rhs, h | .logic lhs op rhs, h => by
    have hl := lhs.newline_not_mem fun d hd => h d (List.mem_append_left _ hd)
    have hr := rhs.newline_not_mem fun d hd => h d (List.mem_append_right _ hd)
    have hop : '\n' ∉ op.symbol.toList := by cases op <;> decide
    simp only [Expr.text, List.mem_append, List.mem_cons, not_or]
    exact ⟨hl, by decide, hop, by decide, hr⟩
  | .group inner, h => by
    have hi := inner.newline_not_mem h
    simp only [Expr.text, List.mem_append, List.mem_cons, List.not_mem_nil, not_or, or_false]
    exact ⟨by decide, hi, by decide⟩
  | .edge kind signal, h => by
    have hs := signal.newline_not_mem h
    simp only [Expr.text, List.mem_append, List.mem_cons, List.not_mem_nil, not_or, or_false]
    exact ⟨kind.isName.isRun.newline_not_mem, by decide, hs, by decide⟩
  | .negation operand, h => by
    have ho := operand.newline_not_mem h
    simp only [Expr.text, List.mem_append, not_or]
    exact ⟨by decide, ho⟩
  | .convert kind value, h => by
    have hv := value.newline_not_mem h
    simp only [Expr.text, List.mem_append, List.mem_cons, List.not_mem_nil, not_or, or_false]
    exact ⟨kind.isName.isRun.newline_not_mem, by decide, hv, by decide⟩
  | .call name arguments, h => by
    have ha := newline_not_mem_join (Argument.newline_not_mem_texts arguments h)
    simp only [Expr.text, List.mem_append, List.mem_cons, List.not_mem_nil, not_or, or_false]
    exact ⟨name.isRun.newline_not_mem, by decide, ha, by decide⟩

theorem Argument.newline_not_mem : ∀ a : Argument, HasNames a.designators → '\n' ∉ a.text
  | .mk none value, h => value.newline_not_mem h
  | .mk (some parameter) value, h => by
    have hv := value.newline_not_mem h
    simp only [Argument.text, List.mem_append, not_or]
    exact ⟨parameter.isRun.newline_not_mem, by decide, hv⟩

theorem Argument.newline_not_mem_texts : ∀ as : List Argument,
    HasNames (Argument.listDesignators as) → ∀ t ∈ Argument.texts as, '\n' ∉ t
  | [], _, t, ht => by cases ht
  | a :: as, h, t, ht => by
    rcases List.mem_cons.1 ht with rfl | ht
    · exact a.newline_not_mem fun d hd => h d (List.mem_append_left _ hd)
    · exact Argument.newline_not_mem_texts as (fun d hd => h d (List.mem_append_right _ hd)) t ht

theorem Reference.newline_not_mem : ∀ r : Reference, HasNames r.designators → '\n' ∉ r.text
  | .name n, _ => n.isRun.newline_not_mem
  | .member record member, _ => by
    simp only [Reference.text, List.mem_append, List.mem_cons, not_or]
    exact ⟨record.isRun.newline_not_mem, by decide, member.isRun.newline_not_mem⟩
  | .indexed name index, h => by
    have hi := index.newline_not_mem h
    simp only [Reference.text, List.mem_append, List.mem_cons, List.not_mem_nil, not_or, or_false]
    exact ⟨name.isRun.newline_not_mem, by decide, hi, by decide⟩
  | .attributeOf object designator, h => by
    have hd := (h designator (List.mem_singleton.2 rfl)).isRun.newline_not_mem
    simp only [Reference.text, List.mem_append, List.mem_cons, not_or]
    exact ⟨object.isRun.newline_not_mem, by decide, hd⟩

theorem Index.newline_not_mem : ∀ i : Index, HasNames i.designators → '\n' ∉ i.text
  | .position value, h => value.newline_not_mem h
  | .slice range, h => range.newline_not_mem h
  | .others, _ => by decide

theorem Range.newline_not_mem : ∀ r : Range, HasNames r.designators → '\n' ∉ r.text
  | .ascending left right, h | .descending left right, h => by
    have hl := left.newline_not_mem fun d hd => h d (List.mem_append_left _ hd)
    have hr := right.newline_not_mem fun d hd => h d (List.mem_append_right _ hd)
    simp only [Range.text, List.mem_append, not_or]
    exact ⟨hl, by decide, hr⟩

theorem Literal.newline_not_mem : ∀ l : Literal, HasNames l.designators → '\n' ∉ l.text
  | .bit value, _ => newline_not_mem_ticked value.isValueChar_char
  | .boolean value, _ => by cases value <;> decide
  | .real value, _ => value.newline_not_mem
  | .integer value, _ => value.newline_not_mem
  | .logic value, _ => newline_not_mem_ticked value.isValueChar_char
  | .vector value, h => value.newline_not_mem h

theorem VectorLiteral.newline_not_mem : ∀ v : VectorLiteral, HasNames v.designators →
    '\n' ∉ v.text
  | .bits values, _ => newline_not_mem_quotedText Bit.isValueChar_char values (by decide)
  | .logics values, _ => newline_not_mem_quotedText Logic.isValueChar_char values (by decide)
  | .hexadecimal digits, _ => newline_not_mem_quotedText HexDigit.isValueChar_char digits (by decide)
  | .octal digits, _ => newline_not_mem_quotedText OctalDigit.isValueChar_char digits (by decide)
  | .aggregate elements, h => by
    have he := newline_not_mem_join (Element.newline_not_mem_texts elements h)
    simp only [VectorLiteral.text, List.mem_append, List.mem_cons, List.not_mem_nil, not_or, or_false]
    exact ⟨by decide, he, by decide⟩

theorem Element.newline_not_mem_texts : ∀ es : List Element,
    HasNames (Element.listDesignators es) → ∀ t ∈ Element.texts es, '\n' ∉ t
  | [], _, t, ht => by cases ht
  | .mk index value :: es, h, t, ht => by
    rcases List.mem_cons.1 ht with rfl | ht
    · have hboth : HasNames (index.designators ++ value.designators) :=
        fun d hd => h d (List.mem_append_left _ hd)
      have hi := index.newline_not_mem fun d hd => hboth d (List.mem_append_left _ hd)
      have hv := value.newline_not_mem fun d hd => hboth d (List.mem_append_right _ hd)
      simp only [Element.text, List.mem_append, not_or]
      exact ⟨hi, by decide, hv⟩
    · exact Element.newline_not_mem_texts es (fun d hd => h d (List.mem_append_right _ hd)) t ht

end

/-! ## Reading back -/

/-- A reader returns a tree from its own text, and the only reserved word among its
attribute designators is `range`. -/
structure ReadsBack {α : Type} (read : Text → Option α) (text : α → Text)
    (designators : α → List Text) (a : α) : Prop where
  /-- The reader returns the tree. -/
  read_text : read (text a) = some a
  /-- No other reserved word is a designator. -/
  range_of_isReserved : ∀ d ∈ designators a, isReserved d = true → sameWord d "range".toList = true

/-- The designators of a tree that is read back are designators of the language. -/
theorem ReadsBack.isDesignator {α : Type} {read : Text → Option α} {text : α → Text}
    {designators : α → List Text} {a : α} (h : ReadsBack read text designators a)
    (hnames : HasNames (designators a)) : ∀ d ∈ designators a, IsDesignator d :=
  fun d hd => ⟨hnames d hd, h.range_of_isReserved d hd⟩

/-- An expression that the reader with some room gives back. -/
def Expr.ReadsBack (room : Nat) (e : Expr) : Prop :=
  CanonicalVhdl.ReadsBack (Expr.read room) Expr.text Expr.designators e

/-- A reference that the reader with some room gives back. -/
def Reference.ReadsBack (room : Nat) (r : Reference) : Prop :=
  CanonicalVhdl.ReadsBack (Reference.read room) Reference.text Reference.designators r

/-- A range that the reader with some room gives back. -/
def Range.ReadsBack (room : Nat) (r : Range) : Prop :=
  CanonicalVhdl.ReadsBack (Range.read room) Range.text Range.designators r

/-- Padding around a phrase holds no comment either. -/
theorem Token.IsPhrase.withoutComments_pad {ts : List Token} (h : IsPhrase ts) {g g' : Text}
    (hg : IsPad g) (hg' : IsPad g') :
    withoutComments (g ++ (render ts ++ g')) = g ++ (render ts ++ g') := by
  have := withoutComments_render ((h.pad hg hg') none none (by rfl) (by rfl))
  simpa using this

namespace Expr.ReadsBack

variable {room : Nat} {e : Expr}

theorem designators (h : e.ReadsBack room) : ∀ d ∈ e.designators, IsDesignator d :=
  h.isDesignator (Expr.hasNames_of_read h.read_text)

theorem isPhrase (h : e.ReadsBack room) : IsPhrase e.tokens :=
  e.isPhrase (Expr.hasNames_of_read h.read_text)

theorem isCalm (h : e.ReadsBack room) : ∀ t ∈ e.tokens, t.isCalm = true :=
  e.isCalm h.designators

theorem solid (h : e.ReadsBack room) : Solid e.text :=
  e.solid_text (Expr.hasNames_of_read h.read_text)

theorem newline_not_mem (h : e.ReadsBack room) : '\n' ∉ e.text :=
  e.newline_not_mem (Expr.hasNames_of_read h.read_text)

/-- Padding around the text of an expression changes nothing. -/
theorem reads (h : e.ReadsBack room) : Reads (Expr.read room) e.text e := by
  intro g g' hg hg'
  have hpad := h.isPhrase.withoutComments_pad hg hg'
  have hself := h.isPhrase.withoutComments_pad isPad_nil isPad_nil
  rw [e.render_tokens] at hpad hself
  have hread := h.read_text
  rw [Expr.read] at hread ⊢
  rw [hpad]
  simp only [List.nil_append, List.append_nil] at hself
  rw [hself] at hread
  cases room with
  | zero => cases hread
  | succ room =>
    simp only [Expr.readCode, h.solid.trim_pad hg hg'] at hread ⊢
    rwa [trim_eq_self h.solid.toTrimmed] at hread

end Expr.ReadsBack

namespace Reference.ReadsBack

variable {room : Nat} {r : Reference}

theorem designators (h : r.ReadsBack room) : ∀ d ∈ r.designators, IsDesignator d :=
  h.isDesignator (Reference.hasNames_of_read h.read_text)

theorem isPhrase (h : r.ReadsBack room) : IsPhrase r.tokens :=
  r.isPhrase (Reference.hasNames_of_read h.read_text)

theorem isCalm (h : r.ReadsBack room) : ∀ t ∈ r.tokens, t.isCalm = true :=
  r.isCalm h.designators

theorem solid (h : r.ReadsBack room) : Solid r.text :=
  r.solid_text (Reference.hasNames_of_read h.read_text)

theorem newline_not_mem (h : r.ReadsBack room) : '\n' ∉ r.text :=
  r.newline_not_mem (Reference.hasNames_of_read h.read_text)

/-- Padding around the text of a reference changes nothing. -/
theorem reads (h : r.ReadsBack room) : Reads (Reference.read room) r.text r := by
  intro g g' hg hg'
  have hread := h.read_text
  simp only [Reference.read, Reference.readWith, h.solid.trim_pad hg hg'] at hread ⊢
  rwa [trim_eq_self h.solid.toTrimmed] at hread

end Reference.ReadsBack

namespace Range.ReadsBack

variable {room : Nat} {r : Range}

theorem designators (h : r.ReadsBack room) : ∀ d ∈ r.designators, IsDesignator d :=
  h.isDesignator (Range.hasNames_of_read h.read_text)

theorem isPhrase (h : r.ReadsBack room) : IsPhrase r.tokens :=
  r.isPhrase (Range.hasNames_of_read h.read_text)

theorem solid (h : r.ReadsBack room) : Solid r.text :=
  r.solid_text (Range.hasNames_of_read h.read_text)

theorem newline_not_mem (h : r.ReadsBack room) : '\n' ∉ r.text :=
  r.newline_not_mem (Range.hasNames_of_read h.read_text)

/-- Padding around the text of a range changes nothing. -/
theorem reads (h : r.ReadsBack room) : Reads (Range.read room) r.text r := by
  intro g g' hg hg'
  have hread := h.read_text
  simp only [Range.read, Range.readWith, h.solid.trim_pad hg hg'] at hread ⊢
  rwa [trim_eq_self h.solid.toTrimmed] at hread

end Range.ReadsBack

end CanonicalVhdl
