import CanonicalVhdl.Object.Basic
import CanonicalVhdl.Proofs.Expr.ReadBack
import CanonicalVhdl.Proofs.Expr.RoundTrip
import CanonicalVhdl.Proofs.Token.Extent
import CanonicalVhdl.Types.Basic

/-!
# Types and their values

Types that their own reader gives back, canonical parts of statements, and which vector literals
are values of a vector type.

## Main definitions

* `TypeMark.tokens` — the tokens of a type.
* `TypeMark.ReadsBack` — the reader returns a type from its text.
* `VectorType.element` — the type of the elements of a vector.
* `VectorLiteral.values` — the values that a vector literal is written with.

## Main statements

* `TypeMark.ReadsBack.reads` — padding around the text of a type changes nothing.
* `TypeMark.ReadsBack.isPhrase`, `TypeMark.ReadsBack.isInert` — what the tokens are like.
* `Expr.readsBack_of_isCanonical`, `Reference.readsBack_of_isCanonical`,
  `Range.readsBack_of_isCanonical` — canonical trees read back.
* `VectorLiteral.fits_element` — the values of a literal that fits are of the element type.
* `VectorLiteral.length_values` — there are as many of them as the range has positions.
* `VectorLiteral.fits_aggregate_iff` — what is asked of an aggregate.
-/

namespace CanonicalVhdl

open Text Token

/-! ## Ranges -/

theorem isInert_spaced {s : Text} (h : s.head?.any Char.isAlpha = true →
    structureWords.contains (fold s) = false) : ∀ t ∈ spaced s, Nesting.isInert t = true := by
  intro t ht
  simp only [spaced, List.mem_cons, List.not_mem_nil, or_false] at ht
  rcases ht with rfl | rfl | rfl
  · rfl
  · unfold connective
    split
    · rename_i hs
      rw [Nesting.isInert, h hs]
      rfl
    · rfl
  · rfl

/-- No token of an expression has a part in the structure of statements. -/
theorem Expr.ReadsBack.isInert {room : Nat} {e : Expr} (h : e.ReadsBack room) :
    ∀ t ∈ e.tokens, Nesting.isInert t = true :=
  fun t ht => Nesting.isInert_of_isCalm (h.isCalm t ht)

theorem Reference.ReadsBack.isInert {room : Nat} {r : Reference} (h : r.ReadsBack room) :
    ∀ t ∈ r.tokens, Nesting.isInert t = true :=
  fun t ht => Nesting.isInert_of_isCalm (h.isCalm t ht)

/-- No token of a range has a part in the structure of statements. -/
theorem Range.isInert (r : Range) (h : ∀ d ∈ r.designators, IsDesignator d) :
    ∀ t ∈ r.tokens, Nesting.isInert t = true := by
  intro t ht
  cases r with
  | ascending low high =>
    simp only [Range.designators, List.mem_append, or_imp, forall_and] at h
    simp only [Range.tokens, List.mem_append] at ht
    rcases ht with ht | ht | ht
    · exact Nesting.isInert_of_isCalm (low.isCalm h.1 t ht)
    · exact isInert_spaced (fun _ => by decide) t ht
    · exact Nesting.isInert_of_isCalm (high.isCalm h.2 t ht)
  | descending high low =>
    simp only [Range.designators, List.mem_append, or_imp, forall_and] at h
    simp only [Range.tokens, List.mem_append] at ht
    rcases ht with ht | ht | ht
    · exact Nesting.isInert_of_isCalm (high.isCalm h.1 t ht)
    · exact isInert_spaced (fun _ => by decide) t ht
    · exact Nesting.isInert_of_isCalm (low.isCalm h.2 t ht)

/-! ## Types -/

/-- The tokens of a type. -/
def TypeMark.tokens : TypeMark → List Token
  | .builtin (.scalar kind) => [word kind.name.toList]
  | .builtin (.vector kind range) => [word kind.name.toList, group range.tokens]
  | .builtin (.integerRange range) =>
    word "integer".toList :: mark ' ' :: word "range".toList :: mark ' ' :: range.tokens
  | .named name => [word name.text]

theorem TypeMark.text_scalar (kind : ScalarType) :
    (TypeMark.builtin (.scalar kind)).text = kind.name.toList := rfl

theorem TypeMark.text_vector (kind : VectorType) (range : Range) :
    (TypeMark.builtin (.vector kind range)).text
      = kind.name.toList ++ '(' :: (range.text ++ [')']) := rfl

theorem TypeMark.text_integerRange (range : Range) :
    (TypeMark.builtin (.integerRange range)).text
      = "integer".toList ++ ' ' :: ("range".toList ++ ' ' :: range.text) := rfl

theorem TypeMark.text_named (name : Ident) : (TypeMark.named name).text = name.text := rfl

theorem TypeMark.render_tokens (type : TypeMark) : render type.tokens = type.text := by
  rcases type with ((kind | ⟨kind, range⟩ | range) | name)
  · rw [TypeMark.text_scalar, TypeMark.tokens, render_cons, render_nil, text_word, List.append_nil]
  · rw [TypeMark.text_vector, TypeMark.tokens, render_cons, render_cons, render_nil, text_word,
      text_group, Range.render_tokens, List.append_nil]
  · rw [TypeMark.text_integerRange, TypeMark.tokens]
    simp only [render_cons, text_word, text_mark, Range.render_tokens, List.cons_append,
      List.nil_append]
  · rw [TypeMark.text_named, TypeMark.tokens, render_cons, render_nil, text_word, List.append_nil]

theorem ScalarType.isName (kind : ScalarType) : IsName kind.name.toList := by
  cases kind <;> exact ⟨by decide, by decide⟩

theorem VectorType.isName (kind : VectorType) : IsName kind.name.toList := by
  cases kind <;> exact ⟨by decide, by decide⟩

/-- Modes are reserved words. -/
theorem Mode.isReserved_text (m : Mode) : isReserved m.text = true := by
  have key : ∀ m ∈ Mode.all, isReserved m.text = true := by decide
  exact key m (by cases m <;> decide)

/-- A type that the reader with some room gives back. -/
def TypeMark.ReadsBack (room : Nat) (type : TypeMark) : Prop :=
  CanonicalVhdl.ReadsBack (TypeMark.read room) TypeMark.text TypeMark.designators type

namespace TypeMark

/-- The word that a type starts with is the name of no mode. -/
theorem exists_tokens (type : TypeMark) :
    ∃ w ts, type.tokens = word w :: ts ∧ IsName w ∧ (∀ m : Mode, sameWord w m.text = false)
      ∧ (render ts).head?.all isSeparator = true := by
  rcases type with ((kind | ⟨kind, range⟩ | range) | name)
  · exact ⟨_, _, rfl, kind.isName, fun m => by cases kind <;> cases m <;> decide, rfl⟩
  · exact ⟨_, _, rfl, kind.isName, fun m => by cases kind <;> cases m <;> decide, by simp; decide⟩
  · exact ⟨_, _, rfl, ⟨by decide, by decide⟩, fun m => by cases m <;> decide, by simp; decide⟩
  · exact ⟨_, _, rfl, name.isName, fun m => name.sameWord_eq_false m.isReserved_text, rfl⟩

namespace ReadsBack

variable {room : Nat} {type : TypeMark}

theorem designators (h : type.ReadsBack room) : ∀ d ∈ type.designators, IsDesignator d :=
  h.isDesignator (TypeMark.hasNames_of_read h.read_text)

theorem isPhrase (h : type.ReadsBack room) : IsPhrase type.tokens := by
  have hnames := TypeMark.hasNames_of_read h.read_text
  rcases type with ((kind | ⟨kind, range⟩ | range) | name)
  · exact isPhrase_word kind.isName
  · exact (range.isPhrase hnames).call kind.isName
  · exact ((range.isPhrase hnames).prefixed ⟨by decide, by decide⟩).prefixed ⟨by decide, by decide⟩
  · exact isPhrase_word name.isName

/-- No token of a type has a part in the structure of statements. -/
theorem isInert (h : type.ReadsBack room) : ∀ t ∈ type.tokens, Nesting.isInert t = true := by
  have hd := h.designators
  intro t ht
  rcases type with ((kind | ⟨kind, range⟩ | range) | name)
  · rw [List.mem_singleton.1 ht]
    cases kind <;> decide
  · simp only [tokens, List.mem_cons, List.not_mem_nil, or_false] at ht
    rcases ht with rfl | rfl
    · cases kind <;> decide
    · rfl
  · simp only [tokens, List.mem_cons] at ht
    rcases ht with rfl | rfl | rfl | rfl | ht
    · decide
    · rfl
    · decide
    · rfl
    · exact range.isInert hd t ht
  · rw [List.mem_singleton.1 ht]
    exact Nesting.isInert_of_isCalm (isCalm_word name.not_isReserved)

/-- Outside the parentheses of a type no symbol of a statement stands. -/
theorem lacks (h : type.ReadsBack room) {pattern : Text} (hp : isForeign pattern = true)
    (hw : Lacks pattern (spaced "to".toList ++ spaced "downto".toList))
    (ha : pattern.head?.any Char.isAlpha = false) (hb : pattern ≠ [' ']) :
    Lacks pattern type.tokens := by
  have hword : ∀ w, (word w).spells pattern = false := by
    intro w
    rw [spells, ha, Bool.false_and]
  have hd := h.designators
  intro t ht
  rcases type with ((kind | ⟨kind, range⟩ | range) | name)
  · rw [List.mem_singleton.1 ht]
    exact hword _
  · simp only [tokens, List.mem_cons, List.not_mem_nil, or_false] at ht
    rcases ht with rfl | rfl
    · exact hword _
    · rfl
  · have hblank : (mark ' ').spells pattern = false := by
      rw [spells, beq_eq_false_iff_ne]
      exact hb.symm
    simp only [tokens, List.mem_cons] at ht
    rcases ht with rfl | rfl | rfl | rfl | ht
    · exact hword _
    · exact hblank
    · exact hword _
    · exact hblank
    · exact range.lacks hp hw hd t ht
  · rw [List.mem_singleton.1 ht]
    exact hword _

theorem newline_not_mem (h : type.ReadsBack room) : '\n' ∉ type.text := by
  have hnames := TypeMark.hasNames_of_read h.read_text
  rcases type with ((kind | ⟨kind, range⟩ | range) | name)
  · rw [text_scalar]
    exact kind.isName.isRun.newline_not_mem
  · have hrange := range.newline_not_mem hnames
    rw [text_vector]
    simp only [List.mem_append, List.mem_cons, List.not_mem_nil, not_or, or_false]
    exact ⟨kind.isName.isRun.newline_not_mem, by decide, hrange, by decide⟩
  · have hrange := range.newline_not_mem hnames
    rw [text_integerRange]
    simp only [List.mem_append, List.mem_cons, not_or]
    exact ⟨by decide, by decide, by decide, by decide, hrange⟩
  · exact name.isRun.newline_not_mem

theorem solid (h : type.ReadsBack room) : Solid type.text := by
  have hnames := TypeMark.hasNames_of_read h.read_text
  rcases type with ((kind | ⟨kind, range⟩ | range) | name)
  · rw [text_scalar]
    exact kind.isName.isRun.solid
  · rw [text_vector]
    exact kind.isName.isRun.solid_call range.text
  · have hrun : IsRun "integer".toList := ⟨by decide, by decide⟩
    have hsplit : (TypeMark.builtin (.integerRange range)).text
        = "integer".toList ++ (' ' :: ("range".toList ++ [' '])) ++ range.text := by
      rw [text_integerRange]
      simp only [List.append_assoc, List.cons_append, List.nil_append]
    rw [hsplit, List.append_assoc]
    exact hrun.solid.between (range.solid_text hnames) _
  · exact name.isRun.solid

/-- Padding around the text of a type changes nothing. -/
theorem reads (h : type.ReadsBack room) : Reads (TypeMark.read room) type.text type := by
  intro g g' hg hg'
  have hpad := h.isPhrase.withoutComments_pad hg hg'
  have hself := h.isPhrase.withoutComments_pad isPad_nil isPad_nil
  rw [type.render_tokens] at hpad hself
  simp only [List.nil_append, List.append_nil] at hself
  have hread := h.read_text
  simp only [TypeMark.read, BuiltinType.read, hpad, hself, h.solid.trim_pad hg hg',
    trim_eq_self h.solid.toTrimmed] at hread ⊢
  exact hread

end ReadsBack
end TypeMark

/-! ## Canonical parts of statements read back

Whether an expression reads back is a question about its reader.  For canonical
expressions, and for references, ranges and types made of them, the answer is yes as soon
as there is room and the text is not too long; both can be computed. -/

theorem Expr.readsUpTo_read (room : Nat) : Expr.ReadsUpTo room (Expr.read room) :=
  (Expr.readsUpTo_readCode room).withoutComments

variable {room : Nat}

theorem Expr.readsBack_of_isCanonical {e : Expr} (hc : e.isCanonical = true) (hl : e.levels ≤ room)
    (hfits : fits Limits.expressionBytes e.text = true) : e.ReadsBack room where
  read_text := (Expr.readsUpTo_read room e hc hl hfits).self
  range_of_isReserved d hd := (Expr.isDesignator_of_isCanonical e hc d hd).range_of_isReserved

theorem Reference.readsBack_of_isCanonical {r : Reference} (hc : r.isCanonical = true)
    (hl : r.levels ≤ room) (hfits : fits Limits.expressionBytes r.text = true) :
    r.ReadsBack room where
  read_text := (r.reads_text (Expr.readsUpTo_read room) hc hl hfits).self
  range_of_isReserved d hd := (Reference.isDesignator_of_isCanonical r hc d hd).range_of_isReserved

theorem Range.readsBack_of_isCanonical {r : Range} (hc : r.isCanonical = true)
    (hl : r.levels ≤ room) (hfits : fits Limits.expressionBytes r.text = true) :
    r.ReadsBack room where
  read_text := by
    obtain ⟨hlow, hhigh⟩ := r.reads_ends (Expr.readsUpTo_read room) hc hl hfits
    exact (r.readWith_text (Range.isDesignator_of_isCanonical r hc) hfits hlow hhigh).self
  range_of_isReserved d hd := (Range.isDesignator_of_isCanonical r hc d hd).range_of_isReserved

/-- The name of an object reads back as a reference. -/
theorem Reference.readsBack_name (n : Ident) (hfits : fits Limits.expressionBytes n.text = true) :
    (Reference.name n).ReadsBack room :=
  Reference.readsBack_of_isCanonical rfl (Nat.zero_le _) hfits

theorem TypeMark.readsBack_scalar (kind : ScalarType) :
    (TypeMark.builtin (.scalar kind)).ReadsBack room where
  read_text := by
    have key : ∀ kind ∈ ScalarType.all, trim (withoutComments kind.name.toList) = kind.name.toList
        ∧ fits Limits.expressionBytes kind.name.toList = true
        ∧ ScalarType.ofName? kind.name.toList = some kind := by decide
    obtain ⟨htrim, hfits, hname⟩ := key kind (by cases kind <;> decide)
    rw [TypeMark.text_scalar, TypeMark.read, BuiltinType.read, htrim, hfits, hname]
    rfl
  range_of_isReserved d hd := absurd hd List.not_mem_nil

/-! ## The values in a vector literal

Whether a vector literal may be a value of a vector type is a question about the type of its
elements and about their number.  The check answers both for strings of values and of digits.
Of an aggregate it looks at the values only if the type is `bit_vector`; for the nine-state
types every aggregate passes, whatever its values are. -/

/-- The type of the elements of a vector. -/
def VectorType.element : VectorType → ScalarType
  | bitVector => .bit
  | stdLogicVector | stdULogicVector | signed | unsigned => .stdLogic

/-- The value of an element of an aggregate. -/
def Element.value : Element → Literal
  | mk _ value => value

/-- The bits of a digit, the highest one first. -/
def digitBits (width value : Nat) : List Bit :=
  (List.range width).reverse.map fun i => if value.testBit i then .high else .low

@[simp] theorem length_digitBits (width value : Nat) : (digitBits width value).length = width := by
  simp [digitBits]

namespace VectorLiteral

/-- Whether a literal is an aggregate. -/
def isAggregate : VectorLiteral → Bool
  | aggregate _ => true
  | _ => false

/-- The values that a literal is written with, from left to right. -/
def values : VectorLiteral → List Literal
  | bits values => values.map .bit
  | logics values => values.map .logic
  | hexadecimal digits => (digits.flatMap fun d => digitBits 4 d.val).map .bit
  | octal digits => (digits.flatMap fun d => digitBits 3 d.val).map .bit
  | aggregate elements => elements.map Element.value

variable {v : VectorLiteral} {kind : VectorType} {range : Range}

/-- A literal that fixes a size has as many values. -/
theorem length_values_of_size? {n : Nat} (h : v.size? = some n) : v.values.length = n := by
  have hdigits : ∀ {base : Nat} (width : Nat) (digits : List (Fin base)),
      (digits.flatMap fun d => digitBits width d.val).length = width * digits.length := by
    intro base width digits
    simp [List.length_flatMap, List.map_const', Nat.mul_comm]
  cases v with
  | bits | logics => simpa [values, size?] using h
  | hexadecimal | octal => simpa [values, size?, hdigits] using h
  | aggregate => cases h

theorem exists_size? (h : v.isAggregate = false) : ∃ n, v.size? = some n := by
  cases v with
  | aggregate elements => cases h
  | _ => exact ⟨_, rfl⟩

/-- A literal passes as bits only if each of its values is a bit. -/
theorem exists_bit_of_isBitsOnly (h : v.isBitsOnly = true) : ∀ l ∈ v.values, ∃ b, l = .bit b := by
  intro l hl
  cases v with
  | logics values => cases h
  | aggregate elements =>
    obtain ⟨⟨index, value⟩, he, rfl⟩ := List.mem_map.1 hl
    have hbit := List.all_eq_true.1 h _ he
    cases value with
    | bit b => exact ⟨b, rfl⟩
    | _ => cases hbit
  | _ =>
    obtain ⟨b, -, rfl⟩ := List.mem_map.1 hl
    exact ⟨b, rfl⟩

/-- The values of anything but an aggregate are nine-state values, some of them two-state ones. -/
theorem exists_bit_or_logic (h : v.isAggregate = false) :
    ∀ l ∈ v.values, (∃ b, l = .bit b) ∨ ∃ x, l = .logic x := by
  intro l hl
  cases v with
  | aggregate elements => cases h
  | logics values =>
    obtain ⟨x, -, rfl⟩ := List.mem_map.1 hl
    exact .inr ⟨x, rfl⟩
  | _ => exact .inl (exists_bit_of_isBitsOnly rfl l hl)

/-! ## Literals that fit -/

theorem fits_iff : v.fits kind range = true ↔ (kind = .bitVector → v.isBitsOnly = true) ∧
    ∀ actual expected, v.size? = some actual → range.size? = some expected → actual = expected := by
  have hkind : (kind != .bitVector || v.isBitsOnly) = true ↔
      (kind = .bitVector → v.isBitsOnly = true) := by
    rw [Bool.or_eq_true, bne_iff_ne, ← Decidable.imp_iff_not_or]
  rw [fits, Bool.and_eq_true, hkind]
  refine and_congr_right fun _ => ?_
  cases v.size? <;> cases range.size? <;> simp

/-- **The values of a literal that fits a vector type are of the element type**, unless it is an
aggregate for a nine-state type. -/
theorem fits_element (h : v.fits kind range = true) (hv : v.isAggregate = false ∨ kind = .bitVector) :
    ∀ l ∈ v.values, l.fits (.scalar kind.element) = true := by
  intro l hl
  by_cases hkind : kind = .bitVector
  · obtain ⟨b, rfl⟩ := exists_bit_of_isBitsOnly ((fits_iff.1 h).1 hkind) l hl
    rw [hkind]
    rfl
  · have helement : kind.element = .stdLogic := by
      cases kind with
      | bitVector => exact absurd rfl hkind
      | _ => rfl
    rw [helement]
    obtain ⟨b, rfl⟩ | ⟨x, rfl⟩ := exists_bit_or_logic (hv.resolve_right hkind) l hl <;> rfl

/-- **A literal that fits a vector type has a value for each position**, unless it is an
aggregate. -/
theorem length_values (h : v.fits kind range = true) (hv : v.isAggregate = false) {n : Nat}
    (hsize : range.size? = some n) : v.values.length = n := by
  obtain ⟨actual, hactual⟩ := exists_size? hv
  rw [length_values_of_size? hactual]
  exact (fits_iff.1 h).2 actual n hactual hsize

/-- **An aggregate fits a nine-state type whatever its values are**; for `bit_vector` all of them
have to be bits. -/
theorem fits_aggregate_iff {elements : List Element} :
    (aggregate elements).fits kind range = true ↔
      (kind = .bitVector → ∀ l ∈ (aggregate elements).values, ∃ b, l = .bit b) := by
  rw [fits_iff]
  constructor
  · exact fun h hkind => exists_bit_of_isBitsOnly (h.1 hkind)
  · refine fun h => ⟨fun hkind => List.all_eq_true.2 fun ⟨index, value⟩ he => ?_, nofun⟩
    obtain ⟨b, rfl⟩ : ∃ b, value = .bit b := h hkind value (List.mem_map.2 ⟨_, he, rfl⟩)
    rfl

/-- The aggregate `(others => true)` fits, but a truth value is no `std_logic`. -/
example (range : Range) : (aggregate [.mk .others (.boolean true)]).fits .stdLogicVector range = true ∧
    (Literal.boolean true).fits (.scalar VectorType.stdLogicVector.element) = false :=
  ⟨rfl, rfl⟩

end VectorLiteral

end CanonicalVhdl
