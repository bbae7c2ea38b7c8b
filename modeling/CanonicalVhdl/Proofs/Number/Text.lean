import CanonicalVhdl.Expr.Read
import CanonicalVhdl.Number.Shortest
import CanonicalVhdl.Proofs.Token.Basic

/-!
# The texts of numbers

Numbers are written with digits, a point in real numbers, and a minus sign below
zero.  An integer is read back from its text; no number is read from a text that
holds a character which numbers lack.

## Main definitions

* `Integer64.tokens`, `Real64.tokens` — a sign or none, and a number.

## Main statements

* `Integer64.read_text` — the reader inverts the text of an integer.
* `Integer64.read_eq_none`, `Real64.read_eq_none` — texts that are no numbers.
-/

namespace CanonicalVhdl

open Text Token

/-! ## Digits -/

theorem isDigit_of_mem_ofNat {n : Nat} {c : Char} (h : c ∈ Text.ofNat n) : c.isDigit = true := by
  rw [Text.ofNat, Nat.toList_repr] at h
  exact Nat.isDigit_of_mem_toDigits (by decide) (by decide) h

theorem ofNat_ne_nil (n : Nat) : Text.ofNat n ≠ [] := by
  rw [Text.ofNat, Nat.toList_repr]
  exact Nat.toDigits_ne_nil

theorem digitsValue_ofNat (n : Nat) : digitsValue (Text.ofNat n) = n := by
  rw [Text.ofNat, Nat.toList_repr]
  exact Nat.ofDigitChars_ten_toDigits

theorem all_isDigit_ofNat (n : Nat) : (Text.ofNat n).all Char.isDigit = true :=
  List.all_eq_true.2 fun _ => isDigit_of_mem_ofNat

theorem hasDoubleUnderscore_eq_false {t : Text} (h : '_' ∉ t) : hasDoubleUnderscore t = false := by
  induction t with
  | nil => rfl
  | cons c t ih =>
    rw [hasDoubleUnderscore]
    · exact ih fun hm => h (by simp [hm])
    · rintro rest rfl; exact absurd (by simp) h

theorem filter_underscore {t : Text} (h : '_' ∉ t) : t.filter (· != '_') = t := by
  rw [List.filter_eq_self]
  intro c hc
  rw [bne_iff_ne]
  rintro rfl
  exact h hc

/-- A text of digits without underscores is a group of digits. -/
theorem digitGroup?_of_all_isDigit {t : Text} (ht : t.all Char.isDigit = true) (hne : t ≠ []) :
    digitGroup? t = some t := by
  have hall := List.all_eq_true.1 ht
  have hund : '_' ∉ t := fun hc => absurd (hall _ hc) (by decide)
  have hmem : (t.all fun c => c.isDigit || c == '_') = true :=
    List.all_eq_true.2 fun c hc => by simp [hall c hc]
  have hhead : t.head?.any Char.isDigit = true := by
    cases t with
    | nil => exact absurd rfl hne
    | cons c t => simpa using hall c (by simp)
  have hlast : t.getLast?.any Char.isDigit = true := by
    rw [List.getLast?_eq_some_getLast hne]
    simpa using hall _ (List.getLast_mem hne)
  rw [digitGroup?, hmem, hhead, hlast, hasDoubleUnderscore_eq_false hund, filter_underscore hund]
  rfl

/-- A group of digits starts with a digit. -/
theorem digitGroup?_eq_none {t : Text} (h : t.head?.any Char.isDigit = false) :
    digitGroup? t = none := by
  simp [digitGroup?, h]

theorem digitGroup?_eq_none_of_mem {t : Text} {c : Char} (hc : c ∈ t)
    (hn : (c.isDigit || c == '_') = false) : digitGroup? t = none := by
  rw [digitGroup?, if_neg]
  intro hall
  simp only [Bool.and_eq_true] at hall
  have := List.all_eq_true.1 hall.1.1.1 c hc
  rw [hn] at this
  cases this

/-! ## Integers -/

namespace Integer64

/-- **The reader inverts the text of an integer.** -/
theorem read_text (n : Integer64) : Integer64.read n.text = some n := by
  have hsplit : splitSign n.text = (decide (n.val < 0), Text.ofNat n.val.natAbs) := by
    rw [text, Text.ofInt]
    split
    · rename_i h; simp [splitSign, h]
    · rename_i h
      cases hd : Text.ofNat n.val.natAbs with
      | nil => exact absurd hd (ofNat_ne_nil _)
      | cons c t =>
        have hc : c.isDigit = true := isDigit_of_mem_ofNat (n := n.val.natAbs) (by simp [hd])
        rw [splitSign]
        · simpa using h
        · rintro rest heq
          obtain ⟨rfl, -⟩ := List.cons_eq_cons.1 heq
          exact absurd hc (by decide)
  have hvalue : (if decide (n.val < 0) = true then -((n.val.natAbs : Nat) : Int)
      else (n.val.natAbs : Nat)) = n.val := by
    split
    · rename_i h; simp only [decide_eq_true_eq] at h; omega
    · rename_i h; simp only [decide_eq_true_eq] at h; omega
  simp only [Integer64.read, hsplit, Option.bind_eq_bind,
    digitGroup?_of_all_isDigit (all_isDigit_ofNat _) (ofNat_ne_nil _), Option.bind_some,
    digitsValue_ofNat, hvalue, ofInt?, n.inRange]
  rfl

/-- An integer holds digits, underscores and a minus sign only. -/
theorem read_eq_none {t : Text} {c : Char} (hc : c ∈ t)
    (hn : (c.isDigit || c == '_' || c == '-') = false) : Integer64.read t = none := by
  simp only [Bool.or_eq_false_iff, beq_eq_false_iff_ne, ne_eq] at hn
  have hgroup : digitGroup? (splitSign t).2 = none := by
    have hmem : c ∈ (splitSign t).2 := by
      unfold splitSign
      split
      · rcases List.mem_cons.1 hc with rfl | hc
        · exact absurd rfl hn.2
        · exact hc
      · exact hc
    refine digitGroup?_eq_none_of_mem hmem ?_
    simp [hn.1.1, hn.1.2]
  simp [Integer64.read, hgroup]

/-- The sign and the digits of an integer. -/
def tokens (n : Integer64) : List Token :=
  (if n.val < 0 then [mark '-'] else []) ++ [number (Text.ofNat n.val.natAbs)]

theorem render_tokens (n : Integer64) : render n.tokens = n.text := by
  rw [tokens, text, Text.ofInt]
  split <;> simp

end Integer64

/-! ## Real numbers -/

namespace Real64

/-- The characters of real numbers. -/
def isRealChar (c : Char) : Bool :=
  c.isDigit || c == '_' || c == '.' || c == 'e' || c == 'E' || c == '+' || c == '-'

/-- Whether a character marks the exponent. -/
def isExponentMark (c : Char) : Bool :=
  c == 'e' || c == 'E'

/-- The parts of a text that is read as a real number. -/
theorem parts_of_read {t : Text} {x : Real64} (h : Real64.read t = some x) :
    ∃ whole fraction, splitOnce '.' ((splitSign t).2.takeWhile (!isExponentMark ·))
        = some (whole, fraction) ∧ (digitGroup? whole).isSome ∧ (digitGroup? fraction).isSome ∧
      ((splitSign t).2.dropWhile (!isExponentMark ·) = [] ∨ ∃ m e,
        (splitSign t).2.dropWhile (!isExponentMark ·) = m :: e ∧ (readExponent e).isSome) := by
  have key : ∀ exponent : Int,
      ((splitOnce '.' ((splitSign t).2.takeWhile (!isExponentMark ·))).bind fun w =>
        (digitGroup? w.1).bind fun whole => (digitGroup? w.2).bind fun fraction =>
          ofDecimal? (splitSign t).1 (digitsValue (whole ++ fraction))
            (exponent - fraction.length)) = some x →
      ∃ whole fraction, splitOnce '.' ((splitSign t).2.takeWhile (!isExponentMark ·))
        = some (whole, fraction) ∧ (digitGroup? whole).isSome ∧ (digitGroup? fraction).isSome := by
    intro exponent he
    rw [Option.bind_eq_some_iff] at he
    obtain ⟨⟨whole, fraction⟩, hs, he⟩ := he
    rw [Option.bind_eq_some_iff] at he
    obtain ⟨g, hg, he⟩ := he
    rw [Option.bind_eq_some_iff] at he
    obtain ⟨g', hg', -⟩ := he
    exact ⟨whole, fraction, hs, by simp [hg], by simp [hg']⟩
  simp only [Real64.read, Option.bind_eq_bind] at h
  cases hd : (splitSign t).2.dropWhile (!isExponentMark ·) with
  | nil =>
    have hd' : (splitSign t).2.dropWhile (fun c => !(c == 'e' || c == 'E')) = [] := hd
    simp only [hd'] at h
    obtain ⟨whole, fraction, hs, hw, hf⟩ := key 0 h
    exact ⟨whole, fraction, hs, hw, hf, .inl rfl⟩
  | cons m e =>
    have hd' : (splitSign t).2.dropWhile (fun c => !(c == 'e' || c == 'E')) = m :: e := hd
    simp only [hd'] at h
    rw [Option.bind_eq_some_iff] at h
    obtain ⟨exponent, hr, h⟩ := h
    obtain ⟨whole, fraction, hs, hw, hf⟩ := key exponent h
    exact ⟨whole, fraction, hs, hw, hf, .inr ⟨m, e, rfl, by simp [hr]⟩⟩

/-- A text that starts with neither a digit nor a minus sign is no real number. -/
theorem read_eq_none_of_head {t : Text} (h : t.head?.any (fun c => c.isDigit || c == '-') = false) :
    Real64.read t = none := by
  by_contra hne
  obtain ⟨x, hx⟩ := Option.ne_none_iff_exists'.1 hne
  obtain ⟨whole, fraction, hs, hw, -⟩ := parts_of_read hx
  have hsplit : splitSign t = (false, t) := by
    unfold splitSign
    split
    · simp at h
    · rfl
  obtain ⟨-, ha⟩ := eq_of_splitOnce hs
  rw [hsplit] at ha
  rw [digitGroup?_eq_none] at hw
  · cases hw
  · rw [ha]
    cases t with
    | nil => rfl
    | cons c t =>
      have hd : c.isDigit = false := by
        simp only [List.head?_cons, Option.any_some, Bool.or_eq_false_iff] at h
        exact h.1
      simp only [List.takeWhile_cons]
      split
      · rw [List.takeWhile_cons]
        split
        · simpa using hd
        · rfl
      · rfl

theorem isRealChar_of_group {g : Text} (hg : (digitGroup? g).isSome = true) {c : Char}
    (hc : c ∈ g) : isRealChar c = true := by
  by_contra hn
  rw [digitGroup?_eq_none_of_mem hc] at hg
  · cases hg
  · simp only [isRealChar, Bool.or_eq_true, not_or] at hn
    simp [hn.1.1.1.1.1.1, hn.1.1.1.1.1.2]

theorem isRealChar_of_exponent {t : Text} (h : (readExponent t).isSome = true) {c : Char}
    (hc : c ∈ t) : isRealChar c = true := by
  unfold readExponent at h
  split at h
  · rcases List.mem_cons.1 hc with rfl | hc
    · rfl
    · exact isRealChar_of_group (by simpa using h) hc
  · rcases List.mem_cons.1 hc with rfl | hc
    · rfl
    · exact isRealChar_of_group (by simpa using h) hc
  · exact isRealChar_of_group (by simpa using h) hc

/-- A text with a character that real numbers lack is no real number. -/
theorem read_eq_none_of_mem {t : Text} {c : Char} (hc : c ∈ t) (hn : isRealChar c = false) :
    Real64.read t = none := by
  by_contra hne
  obtain ⟨x, hx⟩ := Option.ne_none_iff_exists'.1 hne
  obtain ⟨whole, fraction, hs, hw, hf, he⟩ := parts_of_read hx
  have hmem : c ∈ (splitSign t).2 := by
    unfold splitSign
    split
    · rcases List.mem_cons.1 hc with rfl | hc
      · cases hn
      · exact hc
    · exact hc
  rw [← List.takeWhile_append_dropWhile (p := (!isExponentMark ·)) (l := (splitSign t).2),
    List.mem_append, (eq_of_splitOnce hs).1] at hmem
  have hreal : isRealChar c = true := by
    rcases hmem with hm | hm
    · rw [List.mem_append, List.mem_cons] at hm
      rcases hm with hm | rfl | hm
      · exact isRealChar_of_group hw hm
      · rfl
      · exact isRealChar_of_group hf hm
    · rcases he with he | ⟨m, e, he, hr⟩
      · rw [he] at hm; cases hm
      · have hmark : isExponentMark m = true := by
          have := List.head?_dropWhile_not (!isExponentMark ·) (splitSign t).2
          rw [he] at this
          simpa using this
        rw [he, List.mem_cons] at hm
        rcases hm with rfl | hm
        · rcases Bool.or_eq_true_iff.1 hmark with h | h
          · rw [beq_iff_eq] at h; rw [h]; rfl
          · rw [beq_iff_eq] at h; rw [h]; rfl
        · exact isRealChar_of_exponent hr hm
  rw [hn] at hreal
  cases hreal

/-- The sign and the digits of a real number. -/
def tokens (x : Real64) : List Token :=
  (if x.negative then [mark '-'] else []) ++ [number (x.shortest fun _ => true).positional]

theorem render_tokens (x : Real64) : render x.tokens = x.text := by
  rw [tokens, text]
  split <;> simp

end Real64

theorem all_isNumberChar_of_all_isDigit {t : Text} (h : t.all Char.isDigit = true) :
    t.all isNumberChar = true :=
  List.all_eq_true.2 fun c hc => by simp [isNumberChar, List.all_eq_true.1 h c hc]

/-- A decimal is written with digits and a point, a digit first. -/
theorem Decimal.positional_chars (d : Decimal) :
    d.positional.head?.any Char.isDigit = true ∧ d.positional.all isNumberChar = true := by
  have hall := all_isDigit_ofNat d.digits
  have hne := ofNat_ne_nil d.digits
  have hhead : ∀ {t u : Text}, t ≠ [] → t.all Char.isDigit = true →
      (t ++ u).head?.any Char.isDigit = true := by
    intro t u hne hall
    cases t with
    | nil => exact absurd rfl hne
    | cons c t => simpa using List.all_eq_true.1 hall c (by simp)
  simp only [Decimal.positional]
  split
  · refine ⟨by rw [List.append_assoc]; exact hhead hne hall, ?_⟩
    simp only [List.all_append, Bool.and_eq_true]
    refine ⟨⟨all_isNumberChar_of_all_isDigit hall, ?_⟩, by decide⟩
    exact List.all_eq_true.2 fun c hc => by rw [(List.mem_replicate.1 hc).2]; rfl
  · split
    · rename_i hlt
      have htake : ((Text.ofNat d.digits).take
          ((Text.ofNat d.digits).length - d.exponent.natAbs)).all Char.isDigit = true :=
        List.all_eq_true.2 fun c hc => List.all_eq_true.1 hall c (List.mem_of_mem_take hc)
      have hdrop : ((Text.ofNat d.digits).drop
          ((Text.ofNat d.digits).length - d.exponent.natAbs)).all Char.isDigit = true :=
        List.all_eq_true.2 fun c hc => List.all_eq_true.1 hall c (List.mem_of_mem_drop hc)
      refine ⟨hhead ?_ htake, ?_⟩
      · intro hnil
        have := congrArg List.length hnil
        simp only [List.length_take, List.length_nil] at this
        omega
      · simp only [List.all_append, List.all_cons, Bool.and_eq_true]
        exact ⟨all_isNumberChar_of_all_isDigit htake, rfl, all_isNumberChar_of_all_isDigit hdrop⟩
    · refine ⟨rfl, ?_⟩
      simp only [List.all_append, Bool.and_eq_true]
      refine ⟨⟨by decide, ?_⟩, all_isNumberChar_of_all_isDigit hall⟩
      exact List.all_eq_true.2 fun c hc => by rw [(List.mem_replicate.1 hc).2]; rfl

end CanonicalVhdl
