import CanonicalVhdl.Proofs.Case.Tree
import CanonicalVhdl.Proofs.Number.Text
import Mathlib.Data.List.Induction
import Mathlib.Data.Nat.Digits.Defs

/-!
# Groups of digits

Digits may be set apart by single underscores, in integers and in bit strings.  An integer is
such digits, perhaps behind a minus sign, and it denotes the number that the digits denote in base
ten.

## Main definitions

* `Text.Grouped isDigit t digits` — a text shows digits, with single underscores between some.
* `Text.decimal digits` — the number that decimal digits denote.
* `Text.DenotesInteger t n` — a text is written as an integer is, and has a value.

## Main statements

* `Text.grouped_iff` — where underscores may stand.
* `bitStringDigits?_eq_some_iff` — what the underscores of a bit string leave.
* `Integer64.read_eq_some_iff` — which texts are read as an integer, and with which value.
-/

namespace CanonicalVhdl

namespace Text

/-! ## Digits with underscores -/

/-- Whether a text shows digits, one at least: the first digit, and behind each digit either the
end, or another digit, or one underscore and another digit. -/
inductive Grouped (isDigit : Char → Bool) : Text → Text → Prop where
  /-- The last digit. -/
  | last {c : Char} (hc : isDigit c = true) : Grouped isDigit [c] [c]
  /-- A digit and another one. -/
  | next {c : Char} {t digits : Text} (hc : isDigit c = true) (h : Grouped isDigit t digits) :
    Grouped isDigit (c :: t) (c :: digits)
  /-- A digit, an underscore and another digit. -/
  | spaced {c : Char} {t digits : Text} (hc : isDigit c = true) (h : Grouped isDigit t digits) :
    Grouped isDigit (c :: '_' :: t) (c :: digits)

section Grouped

variable {isDigit : Char → Bool} {t digits : Text}

theorem Grouped.ne_nil (h : Grouped isDigit t digits) : t ≠ [] := by
  cases h <;> exact List.cons_ne_nil _ _

theorem Grouped.head_isDigit (h : Grouped isDigit t digits) : t.head?.any isDigit = true := by
  cases h with
  | last hc | next hc _ | spaced hc _ => exact hc

theorem Grouped.byteLength_le (h : Grouped isDigit t digits) : byteLength digits ≤ byteLength t := by
  induction h with
  | last _ => exact Nat.le_refl _
  | next _ _ ih | spaced _ _ ih =>
    simp only [byteLength_cons]
    omega

theorem Grouped.all_isDigit (h : Grouped isDigit t digits) : ∀ c ∈ digits, isDigit c = true := by
  induction h with
  | last hc => exact List.forall_mem_singleton.2 hc
  | next hc _ ih | spaced hc _ ih => exact List.forall_mem_cons.2 ⟨hc, ih⟩

/-- What the underscores of a group leave. -/
theorem Grouped.underscores (hund : isDigit '_' = false) (h : Grouped isDigit t digits) :
    t.head? ≠ some '_' ∧ t.getLast? ≠ some '_' ∧ hasDoubleUnderscore t = false ∧
      t.filter (· != '_') = digits := by
  have hne : ∀ {c}, isDigit c = true → c ≠ '_' := by
    rintro c hc rfl
    rw [hund] at hc
    cases hc
  induction h with
  | last hc => simp [hne hc, hasDoubleUnderscore_cons, hasDoubleUnderscore]
  | next hc h ih =>
    obtain ⟨-, hlast, hdouble, hfilter⟩ := ih
    refine ⟨by simp [hne hc], ?_, by simp [hasDoubleUnderscore_cons, hne hc, hdouble], ?_⟩
    · rwa [List.getLast?_cons_of_ne_nil h.ne_nil]
    · rw [List.filter_cons_of_pos (by simp [hne hc]), hfilter]
  | spaced hc h ih =>
    obtain ⟨hhead, hlast, hdouble, hfilter⟩ := ih
    refine ⟨by simp [hne hc], ?_, by simp [hasDoubleUnderscore_cons, hne hc, hdouble, hhead], ?_⟩
    · rwa [List.getLast?_cons_of_ne_nil (List.cons_ne_nil _ _), List.getLast?_cons_of_ne_nil h.ne_nil]
    · rw [List.filter_cons_of_pos (by simp [hne hc]), List.filter_cons_of_neg (by simp), hfilter]

/-- A text without an underscore at an end or beside another one is a group of what it shows. -/
theorem grouped_of_underscores (n : Nat) :
    ∀ t : Text, t.length ≤ n → t ≠ [] → t.head? ≠ some '_' → t.getLast? ≠ some '_' →
      hasDoubleUnderscore t = false → (∀ c ∈ t.filter (· != '_'), isDigit c = true) →
      Grouped isDigit t (t.filter (· != '_')) := by
  induction n with
  | zero => exact fun t ht hne => absurd (List.eq_nil_of_length_eq_zero (Nat.le_zero.1 ht)) hne
  | succ n ih =>
    intro t ht hne hhead hlast hdouble hall
    obtain ⟨c, t, rfl⟩ := List.exists_cons_of_ne_nil hne
    have hc : c ≠ '_' := by simpa using hhead
    rw [List.filter_cons_of_pos (by simp [hc])] at hall ⊢
    obtain ⟨hdigit, hall⟩ := List.forall_mem_cons.1 hall
    rw [hasDoubleUnderscore_cons, Bool.or_eq_false_iff] at hdouble
    cases t with
    | nil => exact .last hdigit
    | cons d t =>
      rw [List.getLast?_cons_of_ne_nil (List.cons_ne_nil d t)] at hlast
      simp only [List.length_cons] at ht
      by_cases hd : d = '_'
      · subst hd
        -- an underscore that is not the last character has a digit behind it
        have hrest := hdouble.2
        rw [hasDoubleUnderscore_cons, Bool.or_eq_false_iff] at hrest
        have hne : t ≠ [] := by
          rintro rfl
          exact hlast rfl
        rw [List.filter_cons_of_neg (by simp)] at hall ⊢
        rw [List.getLast?_cons_of_ne_nil hne] at hlast
        exact .spaced hdigit (ih t (by omega) hne (by simpa using hrest.1) hlast hrest.2 hall)
      · exact .next hdigit (ih (d :: t) (by simp only [List.length_cons]; omega) (List.cons_ne_nil d t)
          (by simpa using hd) hlast hdouble.2 hall)

/-- **Where underscores may stand** in a group of digits: at no end, and not side by side. -/
theorem grouped_iff (hund : isDigit '_' = false) :
    Grouped isDigit t digits ↔ t ≠ [] ∧ t.head? ≠ some '_' ∧ t.getLast? ≠ some '_' ∧
      hasDoubleUnderscore t = false ∧ t.filter (· != '_') = digits ∧
      ∀ c ∈ digits, isDigit c = true := by
  constructor
  · intro h
    obtain ⟨hhead, hlast, hdouble, hfilter⟩ := h.underscores hund
    exact ⟨h.ne_nil, hhead, hlast, hdouble, hfilter, h.all_isDigit⟩
  · rintro ⟨hne, hhead, hlast, hdouble, rfl, hall⟩
    exact grouped_of_underscores t.length t (Nat.le_refl _) hne hhead hlast hdouble hall

end Grouped

theorem digitGroup?_eq_some_iff {t digits : Text} :
    digitGroup? t = some digits ↔ Grouped Char.isDigit t digits := by
  rw [grouped_iff (by decide), digitGroup?]
  constructor
  · intro h
    split at h
    · rename_i hcond
      simp only [Bool.and_eq_true, Bool.not_eq_true'] at hcond
      obtain ⟨⟨⟨hall, hhead⟩, hlast⟩, hdouble⟩ := hcond
      obtain rfl := Option.some.inj h
      have hne : ∀ {o : Option Char}, o.any Char.isDigit = true → o ≠ some '_' := by
        rintro o ho rfl
        exact absurd ho (by decide)
      refine ⟨?_, hne hhead, hne hlast, hdouble, rfl, ?_⟩
      · rintro rfl
        cases hhead
      · intro c hc
        obtain ⟨hmem, hc⟩ := List.mem_filter.1 hc
        have := List.all_eq_true.1 hall c hmem
        simp only [Bool.or_eq_true, beq_iff_eq] at this
        exact this.resolve_right (by simpa using hc)
    · cases h
  · rintro ⟨hne, hhead, hlast, hdouble, rfl, hall⟩
    have hdigit : ∀ c ∈ t, c ≠ '_' → c.isDigit = true := fun c hc hund =>
      hall c (List.mem_filter.2 ⟨hc, by simpa using hund⟩)
    have hchars : (t.all fun c => c.isDigit || c == '_') = true := by
      rw [List.all_eq_true]
      intro c hc
      by_cases hund : c = '_'
      · simp [hund]
      · simp [hdigit c hc hund]
    have hends : ∀ {o : Option Char}, o ≠ none → o ≠ some '_' → (∀ c ∈ o, c ∈ t) →
        o.any Char.isDigit = true := by
      intro o hsome hund hmem
      obtain ⟨c, rfl⟩ := Option.ne_none_iff_exists'.1 hsome
      exact hdigit c (hmem c rfl) fun h => hund (congrArg some h)
    have hfirst := hends (by simpa using hne) hhead fun c hc => List.mem_of_head? hc
    have hfinal := hends (by simpa using hne) hlast fun c hc => List.mem_of_getLast? hc
    rw [hchars, hfirst, hfinal, hdouble]
    rfl

/-- The body of a bit string is a group of digits, or there is nothing in it. -/
theorem bitStringDigits?_eq_some_iff {isDigit : Char → Bool} {t digits : Text}
    (hund : isDigit '_' = false) (hall : ∀ c ∈ digits, isDigit c = true) :
    VectorLiteral.bitStringDigits? t = some digits
      ↔ t = [] ∧ digits = [] ∨ Grouped isDigit t digits := by
  rw [grouped_iff hund, VectorLiteral.bitStringDigits?, Option.ite_none_left_eq_some]
  simp only [Bool.or_eq_true, beq_iff_eq, not_or, Bool.not_eq_true, Option.some.injEq]
  constructor
  · rintro ⟨⟨⟨hhead, hlast⟩, hdouble⟩, hfilter⟩
    by_cases hne : t = []
    · subst hne
      exact .inl ⟨rfl, hfilter.symm⟩
    · exact .inr ⟨hne, hhead, hlast, hdouble, hfilter, hall⟩
  · rintro (⟨rfl, rfl⟩ | ⟨-, hhead, hlast, hdouble, hfilter, -⟩)
    · exact ⟨⟨⟨by simp, by simp⟩, rfl⟩, rfl⟩
    · exact ⟨⟨⟨hhead, hlast⟩, hdouble⟩, hfilter⟩

/-! ## Values -/

/-- The number that decimal digits denote, the last of which counts ones. -/
def decimal (digits : Text) : Nat :=
  Nat.ofDigits 10 (digits.reverse.map fun c => c.toNat - '0'.toNat)

theorem digitsValue_eq (digits : Text) : digitsValue digits = decimal digits := by
  induction digits using List.reverseRecOn with
  | nil => rfl
  | append_singleton digits c ih =>
    rw [decimal, List.reverse_append, List.reverse_singleton, List.singleton_append, List.map_cons,
      Nat.ofDigits_cons, ← decimal, ← ih, Nat.add_comm]
    simp [digitsValue]

/-- Whether a text is written as an integer is, a group of digits with a minus sign or none, and has
a value. -/
def DenotesInteger (t : Text) (n : Int) : Prop :=
  ∃ magnitude digits, Grouped Char.isDigit magnitude digits ∧
    (t = magnitude ∧ n = decimal digits ∨ t = '-' :: magnitude ∧ n = -(decimal digits : Int))

end Text

open Text

namespace Integer64

theorem ofInt?_eq_some_iff {n : Int} {i : Integer64} : ofInt? n = some i ↔ i.val = n := by
  rw [ofInt?]
  constructor
  · intro h
    split at h
    · rw [← Option.some.inj h]
    · cases h
  · rintro rfl
    rw [dif_pos i.inRange]

/-- **The texts that are read as an integer**: those that denote it. -/
theorem read_eq_some_iff {t : Text} {i : Integer64} :
    Integer64.read t = some i ↔ DenotesInteger t i.val := by
  have hread : Integer64.read t = some i ↔ ∃ digits, Grouped Char.isDigit (splitSign t).2 digits ∧
      i.val = if (splitSign t).1 then -(decimal digits : Int) else decimal digits := by
    simp only [Integer64.read, Option.bind_eq_bind, Option.bind_eq_some_iff, digitGroup?_eq_some_iff,
      ofInt?_eq_some_iff, digitsValue_eq]
  rw [hread]
  constructor
  · rintro ⟨digits, hdigits, hi⟩
    refine ⟨_, digits, hdigits, ?_⟩
    revert hi
    unfold splitSign
    split
    · exact fun hi => .inr ⟨rfl, hi⟩
    · exact fun hi => .inl ⟨rfl, hi⟩
  · rintro ⟨magnitude, digits, hdigits, ⟨rfl, hi⟩ | ⟨rfl, hi⟩⟩
    · have hsplit : splitSign t = (false, t) := by
        unfold splitSign
        split
        · exact absurd hdigits.head_isDigit (by simp)
        · rfl
      rw [hsplit]
      exact ⟨digits, hdigits, hi⟩
    · exact ⟨digits, hdigits, hi⟩

/-- An integer has twenty characters at most. -/
theorem length_text_le (i : Integer64) : i.text.length ≤ 20 := by
  have hdigits : (Text.ofNat i.val.natAbs).length ≤ 19 := by
    rw [Text.ofNat, Nat.toList_repr]
    apply Nat.toDigits_length 10 _ 19 (by decide)
    have := i.inRange
    rw [leastInteger, greatestInteger] at this
    omega
  rw [text, Text.ofInt]
  split
  · rw [List.length_cons]
    omega
  · omega

end Integer64

end CanonicalVhdl
