import CanonicalVhdl.Proofs.Expr.Vector
import CanonicalVhdl.Proofs.Law.WellFormed
import CanonicalVhdl.Proofs.Number.Grouped
import CanonicalVhdl.Proofs.Object.Type

/-!
# Literals as they are written

Which texts are read as integers and which as strings of values, what they stand for, and that
their canonical text is read as the same literal.  Both are described by how they are written, with
no reference to the readers.

## Main definitions

* `StringForm` — strings of values without a base specifier and with each of the three.
* `StringForm.Writes t digits` — a text is a string of one form that shows these digits.
* `StringForm.Denotes digits v` — what a string with these digits stands for.

## Main statements

* `Literal.integers_exact` — which literals are integers, and that each of them reads back.
* `VectorLiteral.strings_exact` — which texts are read as strings, as which, and that they read back.
-/

namespace CanonicalVhdl

open Text

/-! ## Integers -/

/-- No letter stands in an integer. -/
theorem Integer64.not_isAlpha_of_read {t : Text} {i : Integer64} (h : Integer64.read t = some i) :
    ∀ c ∈ t, c.isAlpha = false := by
  intro c hc
  by_contra halpha
  have halpha : c.isAlpha = true := by simpa using halpha
  have hne : ∀ d : Char, d.isAlpha = false → c ≠ d := by
    rintro d hd rfl
    rw [halpha] at hd
    cases hd
  rw [Integer64.read_eq_none hc (by
    simp [isDigit_eq_false_of_isAlpha halpha, hne '_' (by decide), hne '-' (by decide)])] at h
  cases h

namespace Literal

variable {expr : Text → Option Expr} {literal : Text → Option Literal} {t : Text} {i : Integer64}

/-- What is not between ticks is read as an integer exactly if it is one. -/
theorem readPlain_eq_integer_iff :
    readPlain expr literal t = some (.integer i) ↔ Integer64.read t = some i := by
  constructor
  · intro h
    rw [readPlain] at h
    iterate 2
      split at h
      · cases h
    split at h
    · next n hn =>
      obtain rfl := Literal.integer.inj (Option.some.inj h)
      exact hn
    · split at h
      · obtain ⟨x, -, hx⟩ := Option.map_eq_some_iff.1 h
        cases hx
      · obtain ⟨v, -, hv⟩ := Option.map_eq_some_iff.1 h
        cases hv
  · intro hread
    have hhead : t.head?.any Char.isAlpha = false := by
      cases t with
      | nil => rfl
      | cons c u => exact Integer64.not_isAlpha_of_read hread c List.mem_cons_self
    have htrue : sameWord t "true".toList = false :=
      sameWord_eq_false_of_head (isName_boolean true) hhead
    have hfalse : sameWord t "false".toList = false :=
      sameWord_eq_false_of_head (isName_boolean false) hhead
    rw [readPlain, htrue, hfalse, hread]
    rfl

/-- No value between ticks is an integer. -/
theorem readTicked_ne_integer (c : Char) : readTicked c ≠ some (.integer i) := by
  rw [readTicked]
  split
  · intro h
    cases h
  · intro h
    obtain ⟨v, -, hv⟩ := Option.map_eq_some_iff.1 h
    cases hv

/-- **The literals that are read as an integer.** -/
theorem read_eq_integer_iff {room : Nat} :
    Literal.read room t = some (.integer i)
      ↔ byteLength (trim t) ≤ Limits.literalBytes ∧ DenotesInteger (trim t) i.val := by
  rw [← Integer64.read_eq_some_iff, Literal.read, readWith]
  simp only [readNested]
  constructor
  · intro h
    obtain ⟨hfits, h⟩ := Option.ite_none_left_eq_some.1 h
    simp only [Bool.or_eq_true, Bool.not_eq_true', not_or, Bool.not_eq_false, Text.fits,
      decide_eq_true_eq] at hfits
    refine ⟨hfits.2, ?_⟩
    split at h
    · exact absurd h (readTicked_ne_integer _)
    · exact readPlain_eq_integer_iff.1 h
  · rintro ⟨hfits, hread⟩
    have hne : (trim t).isEmpty = false := by
      cases ht : trim t with
      | nil =>
        rw [ht] at hread
        cases hread
      | cons c u => rfl
    have htick : ∀ c, trim t ≠ ['\'', c, '\''] := by
      intro c hc
      have htick : '\'' ∈ trim t := by simp [hc]
      rw [Integer64.read_eq_none htick (by decide)] at hread
      cases hread
    have hfits : Text.fits Limits.literalBytes (trim t) = true := decide_eq_true hfits
    simp only [hne, hfits, Bool.not_true, Bool.or_self, Bool.false_eq_true, if_false]
    exact readPlain_eq_integer_iff.2 hread

/-- The text of an integer is no longer than a literal may be. -/
theorem byteLength_integer_le (i : Integer64) : byteLength i.text ≤ Limits.literalBytes := by
  have hbytes : ∀ t : Text, byteLength t ≤ 4 * t.length := by
    intro t
    induction t with
    | nil => exact Nat.le_refl 0
    | cons c t ih =>
      have := c.utf8Size_le_four
      rw [byteLength_cons, List.length_cons]
      omega
  have hlength := i.length_text_le
  have := hbytes i.text
  have hlimit : Limits.literalBytes = 4096 := rfl
  omega

/-- **Integer literals are read exactly.**  A literal is an integer with the value `n` exactly if
the trimmed text is not too long and is written as an integer with that value, which takes 64 bits;
and every integer is read back from its text. -/
theorem integers_exact (room : Nat) :
    (∀ (t : Text) (n : Int),
        (∃ i : Integer64, i.val = n ∧ Literal.read room t = some (.integer i)) ↔
          byteLength (trim t) ≤ Limits.literalBytes ∧ DenotesInteger (trim t) n ∧
            -2 ^ 63 ≤ n ∧ n ≤ 2 ^ 63 - 1) ∧
      ∀ i : Integer64, Literal.read room (Literal.integer i).text = some (.integer i) := by
  constructor
  · intro t n
    constructor
    · rintro ⟨i, rfl, hi⟩
      obtain ⟨hfits, hvalue⟩ := read_eq_integer_iff.1 hi
      exact ⟨hfits, hvalue, i.inRange⟩
    · rintro ⟨hfits, hvalue, hrange⟩
      exact ⟨⟨n, hrange⟩, rfl, read_eq_integer_iff.2 ⟨hfits, hvalue⟩⟩
  · intro i
    rw [Literal.text, read_eq_integer_iff, trim_eq_self i.solid_text.toTrimmed]
    exact ⟨byteLength_integer_le i, Integer64.read_eq_some_iff.1 i.read_text⟩

end Literal

/-! ## Strings of values -/

/-- The forms of strings of values. -/
inductive StringForm where
  /-- A string without a base specifier. -/
  | plain
  /-- A string of binary digits. -/
  | binary
  /-- A string of octal digits. -/
  | octal
  /-- A string of hexadecimal digits. -/
  | hexadecimal

namespace StringForm

/-- What may stand before the quotation marks. -/
def specifiers : StringForm → List Text
  | plain => [[]]
  | binary => [['b'], ['B']]
  | octal => [['o'], ['O']]
  | hexadecimal => [['x'], ['X']]

/-- The characters that may stand between the quotation marks, underscores aside. -/
def alphabet : StringForm → Text
  | plain => "01UXZWLHuxzwlh-".toList
  | binary => "01".toList
  | octal => "01234567".toList
  | hexadecimal => "0123456789ABCDEFabcdef".toList

/-- The number of bits that a character stands for. -/
def width : StringForm → Nat
  | plain | binary => 1
  | octal => 3
  | hexadecimal => 4

/-- The base specifier of the canonical text; two-state values have none. -/
def mark : StringForm → Text
  | plain | binary => []
  | octal => ['o']
  | hexadecimal => ['x']

/-- Whether a text between quotation marks shows digits of the form: only with a base specifier may
single underscores stand between them. -/
def Shows (form : StringForm) (body digits : Text) : Prop :=
  match form with
  | plain => digits = body ∧ ∀ c ∈ body, c ∈ form.alphabet
  | binary | octal | hexadecimal =>
    body = [] ∧ digits = [] ∨ Grouped (form.alphabet.contains ·) body digits

/-- Whether a text is a string of the form. -/
def Writes (form : StringForm) (t digits : Text) : Prop :=
  ∃ specifier ∈ form.specifiers, ∃ body, t = quotedText specifier body ∧ form.Shows body digits

/-- Whether a vector is what a string of the form stands for. -/
structure Denotes (form : StringForm) (digits : Text) (v : VectorLiteral) : Prop where
  /-- The canonical text has the same digits, in upper case. -/
  text : v.text = quotedText form.mark (digits.map Char.toUpper)
  /-- The size is that of the digits. -/
  size : v.size? = some (form.width * digits.length)
  /-- A string without a base specifier stands for two-state values exactly if they all are. -/
  bits : form = plain → ((∃ values, v = .bits values) ↔ ∀ c ∈ digits, c = '0' ∨ c = '1')

end StringForm

/-! ### The characters of a string -/

theorem utf8Size_toUpper (c : Char) : c.toUpper.utf8Size = c.utf8Size := by
  have key : ∀ n : Fin 26,
      (Char.ofNat (97 + n)).toUpper.utf8Size = (Char.ofNat (97 + n)).utf8Size := by decide
  rcases toUpper_eq_self_or c with h | ⟨n, rfl⟩
  · rw [h]
  · exact key n

theorem byteLength_map_toUpper (t : Text) : byteLength (t.map Char.toUpper) = byteLength t := by
  induction t with
  | nil => rfl
  | cons c t ih => rw [List.map_cons, byteLength_cons, byteLength_cons, ih, utf8Size_toUpper]

section Alphabet

variable {α : Type} {ofChar? : Char → Option α} {char : α → Char} {alphabet body digits : Text}

/-- Whether exactly the characters of an alphabet are read, and written in upper case. -/
def ReadsAlphabet (ofChar? : Char → Option α) (char : α → Char) (alphabet : Text) : Prop :=
  ∀ c, (ofChar? c).map char = if c ∈ alphabet then some c.toUpper else none

theorem readsAlphabet_of_mem (hread : ∀ c ∈ alphabet, (ofChar? c).map char = some c.toUpper)
    (hmem : ∀ c a, ofChar? c = some a → c ∈ alphabet) : ReadsAlphabet ofChar? char alphabet := by
  intro c
  by_cases hc : c ∈ alphabet
  · rw [if_pos hc, hread c hc]
  · rw [if_neg hc, Option.map_eq_none_iff]
    by_contra hsome
    obtain ⟨a, ha⟩ := Option.ne_none_iff_exists'.1 hsome
    exact hc (hmem c a ha)

/-- A text of characters of the alphabet is read, and no other text is. -/
theorem ReadsAlphabet.mapM_map (h : ReadsAlphabet ofChar? char alphabet) (body : Text) :
    (body.mapM ofChar?).map (List.map char)
      = if ∀ c ∈ body, c ∈ alphabet then some (body.map Char.toUpper) else none := by
  induction body with
  | nil => rfl
  | cons c body ih =>
    have hc := h c
    rw [List.mapM_cons]
    by_cases hmem : c ∈ alphabet
    · rw [if_pos hmem] at hc
      obtain ⟨a, ha, hchar⟩ := Option.map_eq_some_iff.1 hc
      simp only [List.forall_mem_cons, hmem, true_and, ha, ← hchar, List.map_cons]
      by_cases hbody : ∀ c ∈ body, c ∈ alphabet
      · rw [if_pos hbody] at ih ⊢
        obtain ⟨as, has, hchars⟩ := Option.map_eq_some_iff.1 ih
        rw [has, ← hchars]
        rfl
      · rw [if_neg hbody] at ih ⊢
        rw [Option.map_eq_none_iff.1 ih]
        rfl
    · rw [if_neg hmem] at hc
      rw [if_neg fun hall => hmem (hall c List.mem_cons_self), Option.map_eq_none_iff.1 hc]
      rfl

theorem ReadsAlphabet.exists_mapM (h : ReadsAlphabet ofChar? char alphabet)
    (hbody : ∀ c ∈ body, c ∈ alphabet) :
    ∃ as, body.mapM ofChar? = some as ∧ as.map char = body.map Char.toUpper := by
  apply Option.map_eq_some_iff.1
  rw [h.mapM_map, if_pos hbody]

theorem ReadsAlphabet.of_mapM (h : ReadsAlphabet ofChar? char alphabet) {as : List α}
    (has : body.mapM ofChar? = some as) : ∀ c ∈ body, c ∈ alphabet := by
  by_contra hbody
  have := h.mapM_map body
  rw [has, if_neg hbody] at this
  cases this

theorem ReadsAlphabet.exists_digitsWith (h : ReadsAlphabet ofChar? char alphabet)
    (hund : '_' ∉ alphabet)
    (hbody : body = [] ∧ digits = [] ∨ Grouped (alphabet.contains ·) body digits) :
    ∃ as, VectorLiteral.digitsWith ofChar? body = some as ∧ as.map char = digits.map Char.toUpper := by
  have hall : ∀ c ∈ digits, alphabet.contains c = true := by
    rcases hbody with ⟨-, rfl⟩ | hbody
    · exact fun c hc => absurd hc List.not_mem_nil
    · exact hbody.all_isDigit
  have hdigits := (bitStringDigits?_eq_some_iff (by simpa using hund) hall).2 hbody
  obtain ⟨as, has, hchars⟩ := h.exists_mapM fun c hc => List.contains_iff_mem.1 (hall c hc)
  refine ⟨as, ?_, hchars⟩
  rw [VectorLiteral.digitsWith, hdigits, Option.bind_some, has]

theorem ReadsAlphabet.of_digitsWith (h : ReadsAlphabet ofChar? char alphabet) (hund : '_' ∉ alphabet)
    {as : List α} (has : VectorLiteral.digitsWith ofChar? body = some as) :
    ∃ digits, body = [] ∧ digits = [] ∨ Grouped (alphabet.contains ·) body digits := by
  obtain ⟨digits, hdigits, has⟩ := Option.bind_eq_some_iff.1 has
  have hall : ∀ c ∈ digits, alphabet.contains c = true := fun c hc =>
    List.contains_iff_mem.2 (h.of_mapM has c hc)
  exact ⟨digits, (bitStringDigits?_eq_some_iff (by simpa using hund) hall).1 hdigits⟩

end Alphabet

/-- A character that is a small letter when folded is that letter or the capital one. -/
theorem eq_or_eq_toUpper_of_toLower {c k : Char} (h : c.toLower = k) : c = k ∨ c = k.toUpper := by
  rcases toLower_eq_self_or c with hself | ⟨n, rfl⟩
  · exact .inl (hself.symm.trans h)
  · have key : ∀ n : Fin 26, Char.ofNat (65 + n) = (Char.ofNat (65 + n)).toLower.toUpper := by decide
    exact .inr (h ▸ key n)

theorem Bit.readsAlphabet : ReadsAlphabet Bit.ofChar? Bit.char StringForm.binary.alphabet := by
  refine readsAlphabet_of_mem (by decide) ?_
  intro c b hb
  have hchar : b.char = c := by simpa using List.find?_some hb
  rw [← hchar]
  cases b <;> decide

theorem Logic.readsAlphabet : ReadsAlphabet Logic.ofChar? Logic.char StringForm.plain.alphabet := by
  refine readsAlphabet_of_mem (by decide) ?_
  intro c l hl
  rcases toUpper_eq_self_or c with hself | ⟨n, rfl⟩
  · have hchar : l.char = c := by simpa [hself] using List.find?_some hl
    rw [← hchar]
    cases l <;> decide
  · have key : ∀ n : Fin 26, (Logic.ofChar? (Char.ofNat (97 + n))).isSome = true →
        Char.ofNat (97 + n) ∈ StringForm.plain.alphabet := by decide
    exact key n (Option.isSome_of_eq_some hl)

/-- Every digit in a base up to sixteen is a hexadecimal one. -/
theorem mem_of_digit? {n : Nat} {c : Char} {d : Fin n} (h : digit? n c = some d) :
    c ∈ StringForm.hexadecimal.alphabet := by
  obtain ⟨value, hvalue, -⟩ := Option.bind_eq_some_iff.1 h
  obtain ⟨hvalue, -⟩ := Option.filter_eq_some_iff.1 hvalue
  split at hvalue
  · next hdigit =>
    have key : ∀ k : Fin 10, Char.ofNat (48 + k) ∈ StringForm.hexadecimal.alphabet := by decide
    have hrange : 48 ≤ c.toNat ∧ c.toNat ≤ 57 := by
      simp only [Char.isDigit, Bool.and_eq_true, decide_eq_true_eq, ge_iff_le,
        UInt32.le_iff_toNat_le] at hdigit
      exact hdigit
    have := key ⟨c.toNat - 48, by omega⟩
    rwa [Nat.add_sub_cancel' hrange.1, Char.ofNat_toNat] at this
  split at hvalue
  · next hletter =>
    have key : ∀ k : Fin 6, Char.ofNat (97 + k) ∈ StringForm.hexadecimal.alphabet ∧
        (Char.ofNat (97 + k)).toUpper ∈ StringForm.hexadecimal.alphabet := by decide
    have hrange : 97 ≤ c.toLower.toNat ∧ c.toLower.toNat ≤ 102 := by
      simp only [Bool.and_eq_true, decide_eq_true_eq, Char.le_def, UInt32.le_iff_toNat_le] at hletter
      exact hletter
    have := key ⟨c.toLower.toNat - 97, by omega⟩
    rw [Nat.add_sub_cancel' hrange.1, Char.ofNat_toNat] at this
    rcases eq_or_eq_toUpper_of_toLower (k := c.toLower) rfl with hc | hc
    · exact hc ▸ this.1
    · exact hc ▸ this.2
  · cases hvalue

theorem HexDigit.readsAlphabet :
    ReadsAlphabet HexDigit.ofChar? HexDigit.char StringForm.hexadecimal.alphabet :=
  readsAlphabet_of_mem (by decide) fun _ _ hd => mem_of_digit? hd

theorem OctalDigit.readsAlphabet :
    ReadsAlphabet OctalDigit.ofChar? OctalDigit.char StringForm.octal.alphabet := by
  have key : ∀ c ∈ StringForm.hexadecimal.alphabet, (OctalDigit.ofChar? c).isSome = true →
      c ∈ StringForm.octal.alphabet := by decide
  exact readsAlphabet_of_mem (by decide) fun c _ hd =>
    key c (mem_of_digit? hd) (Option.isSome_of_eq_some hd)

/-! ### Strings of each form -/

namespace StringForm

variable {form : StringForm} {body digits t : Text}

/-- Reads what stands between the quotation marks of a string of the form. -/
def read (form : StringForm) (body : Text) : Option VectorLiteral :=
  match form with
  | plain => VectorLiteral.readValues body
  | binary => (VectorLiteral.digitsWith Bit.ofChar? body).map .bits
  | octal => (VectorLiteral.digitsWith OctalDigit.ofChar? body).map .octal
  | hexadecimal => (VectorLiteral.digitsWith HexDigit.ofChar? body).map .hexadecimal

theorem mem_binary {c : Char} : c ∈ binary.alphabet ↔ c = '0' ∨ c = '1' := by
  change c ∈ ['0', '1'] ↔ _
  rw [List.mem_cons, List.mem_singleton]

theorem underscore_not_mem (form : StringForm) : '_' ∉ form.alphabet := by
  cases form <;> decide

theorem Shows.mem_body (h : form.Shows body digits) : ∀ c ∈ body, c = '_' ∨ c ∈ form.alphabet := by
  have hgrouped : ∀ isDigit t ds, Grouped isDigit t ds → ∀ c ∈ t, c = '_' ∨ isDigit c = true := by
    intro isDigit t ds h
    induction h with
    | last hc => simp [hc]
    | next hc _ ih => simpa [hc] using ih
    | spaced hc _ ih => simpa [hc] using ih
  cases form with
  | plain => exact fun c hc => .inr (h.2 c hc)
  | binary | octal | hexadecimal =>
    rcases h with ⟨rfl, -⟩ | h
    · exact fun c hc => absurd hc List.not_mem_nil
    · simpa using hgrouped _ _ _ h

/-- Neither a quotation mark nor a line end stands between the quotation marks. -/
theorem Shows.all_plain (h : form.Shows body digits) :
    (body.all fun c => c != '"' && c != '\n') = true := by
  have hform : ∀ form : StringForm, '"' ∉ form.alphabet ∧ '\n' ∉ form.alphabet := by
    intro form
    cases form <;> decide
  rw [List.all_eq_true]
  intro c hc
  rcases h.mem_body c hc with rfl | hmem
  · rfl
  · have hquote : c ≠ '"' := fun h => (hform form).1 (h ▸ hmem)
    have hbreak : c ≠ '\n' := fun h => (hform form).2 (h ▸ hmem)
    simp [hquote, hbreak]

theorem Shows.byteLength_le (h : form.Shows body digits) : byteLength digits ≤ byteLength body := by
  cases form with
  | plain => exact Nat.le_of_eq (congrArg byteLength h.1)
  | binary | octal | hexadecimal =>
    rcases h with ⟨rfl, rfl⟩ | h
    · exact Nat.le_refl _
    · exact h.byteLength_le

/-- What is read between the quotation marks shows digits of the form. -/
theorem exists_shows {v : VectorLiteral} (h : form.read body = some v) :
    ∃ digits, form.Shows body digits := by
  cases form with
  | plain =>
    refine ⟨body, rfl, ?_⟩
    rw [read, VectorLiteral.readValues] at h
    split at h
    · next values hvalues =>
      have key : ∀ c ∈ binary.alphabet, c ∈ plain.alphabet := by decide
      exact fun c hc => key c (Bit.readsAlphabet.of_mapM hvalues c hc)
    · obtain ⟨values, hvalues, -⟩ := Option.map_eq_some_iff.1 h
      exact Logic.readsAlphabet.of_mapM hvalues
  | binary =>
    obtain ⟨values, hvalues, -⟩ := Option.map_eq_some_iff.1 h
    exact Bit.readsAlphabet.of_digitsWith (underscore_not_mem _) hvalues
  | octal =>
    obtain ⟨values, hvalues, -⟩ := Option.map_eq_some_iff.1 h
    exact OctalDigit.readsAlphabet.of_digitsWith (underscore_not_mem _) hvalues
  | hexadecimal =>
    obtain ⟨values, hvalues, -⟩ := Option.map_eq_some_iff.1 h
    exact HexDigit.readsAlphabet.of_digitsWith (underscore_not_mem _) hvalues

/-- What is read between the quotation marks is canonical, and has no expressions inside. -/
theorem isCanonical_of_read {v : VectorLiteral} (h : form.read body = some v) :
    v.isCanonical = true ∧ v.levels = 0 := by
  cases form with
  | plain =>
    rw [read, VectorLiteral.readValues] at h
    split at h
    · obtain rfl := Option.some.inj h
      exact ⟨rfl, rfl⟩
    · next hbits =>
      obtain ⟨values, hvalues, rfl⟩ := Option.map_eq_some_iff.1 h
      obtain ⟨value, hmem, hvalue⟩ := Logic.exists_bit?_eq_none hbits hvalues
      refine ⟨List.any_eq_true.2 ⟨value, hmem, ?_⟩, rfl⟩
      rw [hvalue, Option.isNone_none]
  | binary | octal | hexadecimal =>
    obtain ⟨values, -, rfl⟩ := Option.map_eq_some_iff.1 h
    exact ⟨rfl, rfl⟩

/-- What shows digits of the form is read as what they stand for. -/
theorem Shows.exists_read (h : form.Shows body digits) :
    ∃ v, form.read body = some v ∧ form.Denotes digits v := by
  have hlength : ∀ {α : Type} {char : α → Char} {as : List α}, as.map char = digits.map Char.toUpper →
      as.length = digits.length := by
    intro α char as has
    simpa using congrArg List.length has
  cases form with
  | plain =>
    obtain ⟨rfl, hbody⟩ := h
    by_cases hbits : ∀ c ∈ digits, c ∈ binary.alphabet
    · obtain ⟨values, hvalues, hchars⟩ := Bit.readsAlphabet.exists_mapM hbits
      refine ⟨.bits values, by rw [read, VectorLiteral.readValues, hvalues], ?_, ?_, ?_⟩
      · rw [VectorLiteral.text, hchars, mark]
      · rw [VectorLiteral.size?, hlength hchars, width, Nat.one_mul]
      · intro _
        exact ⟨fun _ c hc => mem_binary.1 (hbits c hc), fun _ => ⟨values, rfl⟩⟩
    · obtain ⟨values, hvalues, hchars⟩ := Logic.readsAlphabet.exists_mapM hbody
      have hnone : digits.mapM Bit.ofChar? = none := by
        by_contra hsome
        obtain ⟨values, hvalues⟩ := Option.ne_none_iff_exists'.1 hsome
        exact hbits (Bit.readsAlphabet.of_mapM hvalues)
      refine ⟨.logics values, by rw [read, VectorLiteral.readValues, hnone, hvalues]; rfl, ?_, ?_, ?_⟩
      · rw [VectorLiteral.text, hchars, mark]
      · rw [VectorLiteral.size?, hlength hchars, width, Nat.one_mul]
      · intro _
        constructor
        · rintro ⟨_, hv⟩
          cases hv
        · exact fun hall => absurd (fun c hc => mem_binary.2 (hall c hc)) hbits
  | binary =>
    obtain ⟨values, hvalues, hchars⟩ := Bit.readsAlphabet.exists_digitsWith (underscore_not_mem _) h
    refine ⟨.bits values, by rw [read, hvalues, Option.map_some], ?_, ?_, fun hform => by cases hform⟩
    · rw [VectorLiteral.text, hchars, mark]
    · rw [VectorLiteral.size?, hlength hchars, width, Nat.one_mul]
  | octal =>
    obtain ⟨values, hvalues, hchars⟩ :=
      OctalDigit.readsAlphabet.exists_digitsWith (underscore_not_mem _) h
    refine ⟨.octal values, by rw [read, hvalues, Option.map_some], ?_, ?_, fun hform => by cases hform⟩
    · rw [VectorLiteral.text, hchars, mark]
    · rw [VectorLiteral.size?, hlength hchars, width]
  | hexadecimal =>
    obtain ⟨values, hvalues, hchars⟩ :=
      HexDigit.readsAlphabet.exists_digitsWith (underscore_not_mem _) h
    refine ⟨.hexadecimal values, by rw [read, hvalues, Option.map_some], ?_, ?_,
      fun hform => by cases hform⟩
    · rw [VectorLiteral.text, hchars, mark]
    · rw [VectorLiteral.size?, hlength hchars, width]

end StringForm

/-! ### Reading strings -/

namespace VectorLiteral

variable {expr : Text → Option Expr} {literal : Text → Option Literal} {form : StringForm}
variable {t specifier rest body digits : Text}

theorem eq_of_quotedBody? (h : quotedBody? rest = some body) (hquote : '"' ∉ body) :
    rest = body ++ ['"'] := by
  fun_induction quotedBody? rest generalizing body with
  | case1 =>
    obtain rfl := Option.some.inj h
    rfl
  | case2 rest ih =>
    obtain ⟨body, -, rfl⟩ := Option.map_eq_some_iff.1 h
    exact absurd List.mem_cons_self hquote
  | case3 => cases h
  | case4 c rest _ _ hc ih =>
    obtain ⟨body, hbody, rfl⟩ := Option.map_eq_some_iff.1 h
    rw [ih hbody fun hmem => hquote (List.mem_cons_of_mem c hmem), List.cons_append]
  | case5 => cases h

/-- A text with a base specifier or none before a quotation mark is read as the form says. -/
theorem readWith_specified (hs : specifier ∈ form.specifiers) (ht : trim t = specifier ++ '"' :: rest)
    (hfits : Text.fits Limits.literalBytes (trim t) = true) :
    readWith expr literal t = (quotedBody? rest).bind form.read := by
  rw [ht] at hfits
  simp only [readWith, ht, hfits]
  cases form with
  | plain =>
    obtain rfl := List.mem_singleton.1 hs
    rfl
  | binary | octal | hexadecimal =>
    rw [StringForm.specifiers, List.mem_cons, List.mem_singleton] at hs
    rcases hs with rfl | rfl <;> rfl

/-- What is read, and is no aggregate, has a base specifier or none before a quotation mark. -/
theorem exists_specified {v : VectorLiteral} (h : readWith expr literal t = some v)
    (hopen : (trim t).head? ≠ some '(') :
    Text.fits Limits.literalBytes (trim t) = true ∧
      ∃ form : StringForm, ∃ specifier ∈ form.specifiers, ∃ rest, trim t = specifier ++ '"' :: rest := by
  simp only [readWith] at h
  obtain ⟨hfits, h⟩ := Option.ite_none_left_eq_some.1 h
  refine ⟨by simpa using hfits, ?_⟩
  split at h
  · next heq => exact absurd (congrArg List.head? heq) hopen
  · next rest heq => exact ⟨.plain, [], by decide, rest, heq⟩
  · next base rest _ _ heq =>
    obtain ⟨-, h⟩ := Option.ite_none_right_eq_some.1 h
    obtain ⟨body, -, h⟩ := Option.bind_eq_some_iff.1 h
    have hmem : ∀ k, base.toLower = k → [base] ∈ [[k], [k.toUpper]] := by
      intro k hk
      rcases eq_or_eq_toUpper_of_toLower hk with rfl | rfl <;> simp
    rw [readBased] at h
    split at h
    · next hk => exact ⟨.hexadecimal, [base], hmem 'x' (eq_of_beq hk), rest, heq⟩
    split at h
    · next hk => exact ⟨.octal, [base], hmem 'o' (eq_of_beq hk), rest, heq⟩
    split at h
    · next hk => exact ⟨.binary, [base], hmem 'b' (eq_of_beq hk), rest, heq⟩
    · cases h
  · cases h

/-- What is read, and is no aggregate, is a string of some form. -/
theorem exists_writes {v : VectorLiteral} (h : readWith expr literal t = some v)
    (hopen : (trim t).head? ≠ some '(') : ∃ form digits, StringForm.Writes form (trim t) digits := by
  obtain ⟨hfits, form, specifier, hs, rest, ht⟩ := exists_specified h hopen
  rw [readWith_specified hs ht hfits] at h
  obtain ⟨body, hbody, h⟩ := Option.bind_eq_some_iff.1 h
  obtain ⟨digits, hshows⟩ := StringForm.exists_shows h
  have hquote : '"' ∉ body := by
    intro hmem
    have := List.all_eq_true.1 hshows.all_plain _ hmem
    simp at this
  refine ⟨form, digits, specifier, hs, body, ?_, hshows⟩
  rw [ht, eq_of_quotedBody? hbody hquote, quotedText]

/-- A string of some form is read as what it stands for, which is canonical. -/
theorem exists_read_of_writes (h : form.Writes (trim t) digits)
    (hfits : Text.fits Limits.literalBytes (trim t) = true) :
    ∃ v, readWith expr literal t = some v ∧ form.Denotes digits v ∧ v.isCanonical = true
      ∧ v.levels = 0 := by
  obtain ⟨specifier, hs, body, ht, hshows⟩ := h
  obtain ⟨v, hv, hdenotes⟩ := hshows.exists_read
  refine ⟨v, ?_, hdenotes, StringForm.isCanonical_of_read hv⟩
  have hbody := quotedBody?_append hshows.all_plain [] (by simp)
  rw [readWith_specified hs ht hfits, hbody]
  exact hv

/-- The canonical text of a string is no longer than the string. -/
theorem byteLength_text_le {v : VectorLiteral} (h : form.Writes t digits) (hv : form.Denotes digits v) :
    byteLength v.text ≤ byteLength t := by
  obtain ⟨specifier, hs, body, rfl, hshows⟩ := h
  have hmark : ∀ form : StringForm, ∀ specifier ∈ form.specifiers,
      byteLength form.mark ≤ byteLength specifier := by
    intro form
    cases form <;> decide
  have := hmark form specifier hs
  have := hshows.byteLength_le
  rw [hv.text]
  simp only [quotedText, byteLength_append, byteLength_cons, byteLength_map_toUpper]
  omega

/-- A canonical vector is read from its text. -/
theorem read_text {room : Nat} {v : VectorLiteral} (hc : v.isCanonical = true) (hl : v.levels ≤ room)
    (hfits : Text.fits Limits.expressionBytes v.text = true) :
    VectorLiteral.read room v.text = some v := by
  have hnested := readWith_text (Expr.readsUpTo_read room) v (v.text.length + 1) hc hl hfits (by omega)
  rw [VectorLiteral.read, VectorLiteral.readWhole, ← hnested]
  exact readWith_congr fun u hu => (Literal.readNested_eq_readWith (by omega)).symm

/-- **Strings of values are read exactly.**  A text that is not too long and, trimmed, does not
start with a parenthesis is read exactly if it is, trimmed, a string of some form.  The result is
what the string stands for, and is read from its canonical text. -/
theorem strings_exact (room : Nat) {t : Text} (hfits : byteLength t ≤ Limits.literalBytes)
    (hopen : (trim t).head? ≠ some '(') :
    ((VectorLiteral.read room t).isSome = true ↔ ∃ form digits, StringForm.Writes form (trim t) digits) ∧
      ∀ v, VectorLiteral.read room t = some v →
        (∀ form digits, StringForm.Writes form (trim t) digits → form.Denotes digits v) ∧
          VectorLiteral.read room v.text = some v := by
  have htrim : byteLength (trim t) ≤ byteLength t := by
    obtain ⟨g, g', -, -, ht⟩ := exists_pad_trim t
    exact byteLength_le_of_isInfix ⟨g, g', ht.symm⟩
  have hwithin : Text.fits Limits.literalBytes (trim t) = true := decide_eq_true (htrim.trans hfits)
  constructor
  · rw [Option.isSome_iff_exists]
    constructor
    · rintro ⟨v, hv⟩
      exact exists_writes hv hopen
    · rintro ⟨form, digits, hwrites⟩
      obtain ⟨v, hv, -⟩ := exists_read_of_writes hwrites hwithin
      exact ⟨v, hv⟩
  · intro v hv
    constructor
    · intro form digits hwrites
      obtain ⟨v', hv', hdenotes, -⟩ := exists_read_of_writes hwrites hwithin
      obtain rfl := Option.some.inj (hv.symm.trans hv')
      exact hdenotes
    · obtain ⟨form, digits, hwrites⟩ := exists_writes hv hopen
      obtain ⟨v', hv', hdenotes, hcanonical, hlevels⟩ := exists_read_of_writes hwrites hwithin
      obtain rfl := Option.some.inj (hv.symm.trans hv')
      have htext := byteLength_text_le hwrites hdenotes
      exact read_text hcanonical (hlevels ▸ Nat.zero_le room)
        (decide_eq_true (htext.trans (htrim.trans hfits)))

/-- An octal string with a capital specifier and an underscore. -/
theorem strings_exact_octal :
    byteLength (' ' :: quotedText ['O'] "1_7".toList) ≤ Limits.literalBytes ∧
      (trim (' ' :: quotedText ['O'] "1_7".toList)).head? ≠ some '(' ∧
      ∃ v, VectorLiteral.read Limits.depth (' ' :: quotedText ['O'] "1_7".toList) = some v ∧
        v.text = quotedText ['o'] "17".toList ∧ v.size? = some 6 ∧
        VectorLiteral.read Limits.depth v.text = some v := by
  have hfits : byteLength (' ' :: quotedText ['O'] "1_7".toList) ≤ Limits.literalBytes := by decide
  have hopen : (trim (' ' :: quotedText ['O'] "1_7".toList)).head? ≠ some '(' := by decide
  have hwrites : StringForm.octal.Writes (trim (' ' :: quotedText ['O'] "1_7".toList)) ['1', '7'] :=
    ⟨['O'], by decide, ['1', '_', '7'], by decide, .inr (.spaced (by decide) (.last (by decide)))⟩
  obtain ⟨haccept, hall⟩ := strings_exact Limits.depth hfits hopen
  obtain ⟨v, hv⟩ := Option.isSome_iff_exists.1 (haccept.2 ⟨_, _, hwrites⟩)
  obtain ⟨hdenotes, hback⟩ := hall v hv
  exact ⟨hfits, hopen, v, hv, (hdenotes _ _ hwrites).text, (hdenotes _ _ hwrites).size, hback⟩

/-- A blank may stand before the parenthesis of an aggregate, which is no string. -/
theorem read_indented_aggregate :
    byteLength " (others => '0')".toList ≤ Limits.literalBytes ∧
      " (others => '0')".toList.head? ≠ some '(' ∧
      (VectorLiteral.read Limits.depth " (others => '0')".toList).isSome = true ∧
      ¬ ∃ form digits, StringForm.Writes form (trim " (others => '0')".toList) digits := by
  refine ⟨by decide, by decide, by decide +kernel, ?_⟩
  rintro ⟨form, digits, specifier, hs, body, ht, -⟩
  have hhead : (trim " (others => '0')".toList).head? = some '(' := by decide
  have key : ∀ form : StringForm, ∀ s ∈ form.specifiers, s.head? ≠ some '(' := by
    intro form
    cases form <;> decide
  rw [ht, quotedText] at hhead
  cases specifier with
  | nil => cases hhead
  | cons c s => exact key form _ hs hhead

end VectorLiteral

end CanonicalVhdl
