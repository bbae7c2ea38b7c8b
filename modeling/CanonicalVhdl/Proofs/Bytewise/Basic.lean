import CanonicalVhdl.Proofs.Token.Basic

/-!
# Byte offsets

The place behind some characters of a text has an offset, the number of bytes of their UTF-8 form.
Offsets grow with the places, and an offset that lies inside a character is none of them.  In the
UTF-8 form, a byte below 128 is a character of ASCII, and a character starts with a byte that no
character has anywhere else, so that what is found in the bytes of a text is found in its
characters.

## Main definitions

* `Text.bytes t` — the UTF-8 form of a text.
* `Text.IsBoundary t n` — between two characters, or at an end of the text, lies byte offset `n`.

## Main statements

* `Text.position?_eq_some_iff` — the places of a text and their offsets correspond to each other.
* `Text.bytes_isPrefix_iff` — one text starts with another when its bytes start with those of the
  other.
* `Text.isBoundary_of_isPrefix` — the bytes of a text that is not empty stand between characters.
-/

namespace CanonicalVhdl.Text

/-! ## Offsets -/

theorem offset_length (s r : Text) : offset (s ++ r) s.length = byteLength s := by
  rw [offset, List.take_left]

theorem offset_length_succ (s : Text) (c : Char) (r : Text) :
    offset (s ++ c :: r) (s.length + 1) = byteLength s + c.utf8Size := by
  have hlength : s.length + 1 = (s ++ [c]).length := by rw [List.length_append, List.length_singleton]
  rw [hlength, ← List.singleton_append, ← List.append_assoc, offset_length, byteLength_append,
    byteLength_cons, byteLength_nil, Nat.add_zero]

theorem offset_end (t : Text) : offset t t.length = byteLength t := by
  rw [offset, List.take_length]

/-- Only the empty text takes no byte. -/
theorem byteLength_eq_zero {t : Text} : byteLength t = 0 ↔ t = [] := by
  cases t with
  | nil => simp
  | cons c t =>
    have := c.utf8Size_pos
    simp only [byteLength_cons, reduceCtorEq, iff_false]
    omega

/-- Places with the same offset are the same. -/
theorem eq_of_byteLength_eq {a b x y : Text} (h : a ++ x = b ++ y) (hlength : byteLength a = byteLength b) :
    a = b ∧ x = y := by
  rcases List.append_eq_append_iff.1 h with ⟨m, rfl, rfl⟩ | ⟨m, rfl, rfl⟩
  · rw [byteLength_append] at hlength
    obtain rfl := byteLength_eq_zero.1 (show byteLength m = 0 by omega)
    simp
  · rw [byteLength_append] at hlength
    obtain rfl := byteLength_eq_zero.1 (show byteLength m = 0 by omega)
    simp

/-- A place with a greater offset is behind the other one. -/
theorem exists_append_of_le {a b x y : Text} (h : a ++ x = b ++ y) (hle : byteLength a ≤ byteLength b) :
    ∃ m, b = a ++ m ∧ x = m ++ y := by
  rcases List.append_eq_append_iff.1 h with ⟨m, rfl, rfl⟩ | ⟨m, rfl, rfl⟩
  · exact ⟨m, rfl, rfl⟩
  · rw [byteLength_append] at hle
    obtain rfl := byteLength_eq_zero.1 (show byteLength m = 0 by omega)
    exact ⟨[], by simp, rfl⟩

section Offsets

variable {t : Text} {i j n : Nat}

theorem offset_lt_offset (hij : i < j) (hi : i < t.length) : offset t i < offset t j := by
  have hsplit : t.take j = t.take i ++ (t[i] :: (t.drop (i + 1)).take (j - (i + 1))) := by
    rw [← List.take_append_drop i (t.take j), List.take_take, Nat.min_eq_left (Nat.le_of_lt hij),
      List.drop_take, List.drop_eq_getElem_cons hi, show j - i = j - (i + 1) + 1 by omega,
      List.take_succ_cons]
  have hsize : 0 < (t[i]).utf8Size := Char.utf8Size_pos _
  rw [offset, offset, hsplit, byteLength_append, byteLength_cons]
  omega

theorem offset_le_offset (hij : i ≤ j) : offset t i ≤ offset t j := by
  rcases Nat.eq_or_lt_of_le hij with rfl | hlt
  · exact Nat.le_refl _
  · by_cases hi : i < t.length
    · exact Nat.le_of_lt (offset_lt_offset hlt hi)
    · have hsame : offset t i = offset t j := by
        rw [offset, offset, List.take_of_length_le (by omega), List.take_of_length_le (by omega)]
      exact Nat.le_of_eq hsame

theorem offset_le_byteLength (t : Text) (i : Nat) : offset t i ≤ byteLength t := by
  rcases Nat.le_total i t.length with hi | hi
  · rw [← offset_end]
    exact offset_le_offset hi
  · have hwhole : offset t i = byteLength t := by rw [offset, List.take_of_length_le hi]
    exact Nat.le_of_eq hwhole

theorem exists_of_positionFrom {k : Nat} :
    ∀ {t : Text} {n : Nat}, positionFrom k n t = some i →
      ∃ a b, t = a ++ b ∧ byteLength a = n ∧ i = k + a.length := by
  intro t
  induction t generalizing k with
  | nil =>
    intro n h
    cases n with
    | zero => exact ⟨[], [], rfl, rfl, (Option.some.inj h).symm⟩
    | succ n => cases h
  | cons c t ih =>
    intro n h
    cases n with
    | zero => exact ⟨[], c :: t, rfl, rfl, (Option.some.inj h).symm⟩
    | succ n =>
      rw [positionFrom] at h
      split at h
      · obtain ⟨a, b, rfl, hlength, rfl⟩ := ih h
        refine ⟨c :: a, b, rfl, ?_, ?_⟩
        · rw [byteLength_cons]
          omega
        · rw [List.length_cons]
          omega
      · cases h

/-- **The places of a text and their offsets correspond to each other.** -/
theorem position?_eq_some_iff : position? n t = some i ↔ i ≤ t.length ∧ offset t i = n := by
  constructor
  · intro h
    obtain ⟨a, b, rfl, rfl, rfl⟩ := exists_of_positionFrom h
    rw [Nat.zero_add]
    exact ⟨by simp, offset_length a b⟩
  · rintro ⟨hi, rfl⟩
    have h := position?_append (t.take i) (t.drop i)
    rwa [List.take_append_drop, List.length_take, Nat.min_eq_left hi] at h

/-- Whether a byte offset lies in front of a character or at the end of a text. -/
def IsBoundary (t : Text) (n : Nat) : Prop :=
  (position? n t).isSome = true

theorem isBoundary_iff : IsBoundary t n ↔ ∃ a b, t = a ++ b ∧ byteLength a = n := by
  rw [IsBoundary, Option.isSome_iff_exists]
  constructor
  · rintro ⟨i, h⟩
    obtain ⟨a, b, hsplit, hlength, -⟩ := exists_of_positionFrom h
    exact ⟨a, b, hsplit, hlength⟩
  · rintro ⟨a, b, rfl, rfl⟩
    exact ⟨_, position?_append a b⟩

theorem isBoundary_offset (t : Text) (i : Nat) : IsBoundary t (offset t i) :=
  isBoundary_iff.2 ⟨t.take i, t.drop i, (List.take_append_drop i t).symm, rfl⟩

theorem IsBoundary.le (h : IsBoundary t n) : n ≤ byteLength t := by
  obtain ⟨a, b, rfl, rfl⟩ := isBoundary_iff.1 h
  rw [byteLength_append]
  omega

/-- A place behind another one is behind the next character. -/
theorem IsBoundary.succ_le {a u : Text} {c : Char} (h : IsBoundary (a ++ c :: u) n)
    (hn : byteLength a < n) : byteLength (a ++ [c]) ≤ n := by
  obtain ⟨b, r, hsplit, rfl⟩ := isBoundary_iff.1 h
  rcases List.append_eq_append_iff.1 hsplit with ⟨m, rfl, hm⟩ | ⟨m, rfl, -⟩
  · rw [byteLength_append] at hn ⊢
    cases m with
    | nil => exact absurd hn (Nat.lt_irrefl _)
    | cons d m =>
      obtain ⟨rfl, -⟩ := List.cons.inj hm
      simp only [byteLength_append, byteLength_cons, byteLength_nil]
      omega
  · rw [byteLength_append] at hn
    omega

/-- What stands between two places. -/
theorem slice?_append (a x b : Text) :
    slice? (a ++ (x ++ b)) (byteLength a) (byteLength a + byteLength x) = some x := by
  have hstop := position?_append (a ++ x) b
  rw [byteLength_append, List.append_assoc] at hstop
  simp only [slice?, position?_append, hstop, Option.bind_eq_bind, Option.bind_some]
  rw [if_pos (Nat.le_add_right _ _), ← List.append_assoc, List.take_left, List.drop_left]

/-- There is a part between two offsets if they are those of places, in order. -/
theorem slice?_eq_some_iff {x : Text} {start stop : Nat} :
    slice? t start stop = some x
      ↔ ∃ a b, t = a ++ (x ++ b) ∧ byteLength a = start ∧ byteLength (a ++ x) = stop := by
  constructor
  · intro h
    simp only [slice?, Option.bind_eq_bind, Option.bind_eq_some_iff] at h
    obtain ⟨i, hi, j, hj, h⟩ := h
    split at h
    · rename_i hle
      obtain ⟨a, u, hu, rfl, rfl⟩ := exists_of_positionFrom hi
      obtain ⟨b, v, rfl, rfl, rfl⟩ := exists_of_positionFrom hj
      obtain ⟨m, rfl, rfl⟩ := exists_append_of_le hu.symm hle
      rw [Nat.zero_add, Nat.zero_add, List.take_left, List.drop_left] at h
      obtain rfl := Option.some.inj h
      exact ⟨a, v, hu, rfl, rfl⟩
    · cases h
  · rintro ⟨a, b, rfl, rfl, rfl⟩
    rw [byteLength_append]
    exact slice?_append a x b

end Offsets

/-! ## Bytes -/

/-- The UTF-8 form of a text. -/
def bytes (t : Text) : List UInt8 :=
  t.flatMap String.utf8EncodeChar

@[simp] theorem bytes_nil : bytes [] = [] := rfl

@[simp] theorem bytes_cons (c : Char) (t : Text) :
    bytes (c :: t) = String.utf8EncodeChar c ++ bytes t :=
  List.flatMap_cons

@[simp] theorem bytes_append (s t : Text) : bytes (s ++ t) = bytes s ++ bytes t :=
  List.flatMap_append

@[simp] theorem length_bytes (t : Text) : (bytes t).length = byteLength t := by
  induction t with
  | nil => rfl
  | cons c t ih => rw [bytes_cons, List.length_append, String.length_utf8EncodeChar, ih, byteLength_cons]

/-- A character of ASCII takes one byte. -/
theorem utf8Size_eq_one {c : Char} (hc : c.toNat < 128) : c.utf8Size = 1 :=
  Char.utf8Size_eq_one_iff.2 (UInt32.le_iff_toNat_le.2 (Nat.le_of_lt_succ hc))

/-- The byte of a character of ASCII. -/
theorem utf8EncodeChar_ascii {c : Char} (hc : c.toNat < 128) : String.utf8EncodeChar c = [c.toUInt8] :=
  String.utf8EncodeChar_eq_singleton (utf8Size_eq_one hc)

/-- The bytes of all other characters are no bytes of ASCII. -/
theorem le_of_mem_utf8EncodeChar {c : Char} (hc : ¬ c.toNat < 128) {b : UInt8}
    (hb : b ∈ String.utf8EncodeChar c) : 128 ≤ b.toNat := by
  have hval : c.val.toNat = c.toNat := rfl
  unfold String.utf8EncodeChar at hb
  simp only [hval] at hb
  split_ifs at hb with h1 h2 h3
  · omega
  · simp only [List.mem_cons, List.not_mem_nil, or_false] at hb
    rcases hb with rfl | rfl <;> rw [UInt8.toNat_ofNat'] <;> omega
  · simp only [List.mem_cons, List.not_mem_nil, or_false] at hb
    rcases hb with rfl | rfl | rfl <;> rw [UInt8.toNat_ofNat'] <;> omega
  · simp only [List.mem_cons, List.not_mem_nil, or_false] at hb
    rcases hb with rfl | rfl | rfl | rfl <;> rw [UInt8.toNat_ofNat'] <;> omega

/-- The character at the head of a text is known from the bytes. -/
theorem eq_of_utf8EncodeChar_append {c d : Char} {x y : List UInt8}
    (h : String.utf8EncodeChar c ++ x = String.utf8EncodeChar d ++ y) : c = d ∧ x = y := by
  have hdecode : ∀ (c : Char) (x : List UInt8),
      (String.utf8EncodeChar c ++ x).toByteArray.utf8DecodeChar? 0 = some c := by
    intro c x
    rw [List.toByteArray_append]
    exact ByteArray.utf8DecodeChar?_utf8EncodeChar_append
  have hcd : c = d := by
    have hc := hdecode c x
    rw [h, hdecode d y] at hc
    exact (Option.some.inj hc).symm
  subst hcd
  exact ⟨rfl, List.append_cancel_left h⟩

/-- **One text starts with another when its bytes start with those of the other.** -/
theorem bytes_isPrefix_iff {p t : Text} : bytes p <+: bytes t ↔ p <+: t := by
  constructor
  · induction p generalizing t with
    | nil => exact fun _ => List.nil_prefix
    | cons c p ih =>
      rintro ⟨r, hr⟩
      rw [bytes_cons, List.append_assoc] at hr
      cases t with
      | nil => simp [String.utf8EncodeChar_ne_nil] at hr
      | cons d t =>
        rw [bytes_cons] at hr
        obtain ⟨rfl, hrest⟩ := eq_of_utf8EncodeChar_append hr
        exact List.cons_prefix_cons.2 ⟨rfl, ih ⟨r, hrest⟩⟩
  · rintro ⟨r, rfl⟩
    rw [bytes_append]
    exact List.prefix_append _ _

/-- The bytes behind a place. -/
theorem drop_bytes (a b : Text) : (bytes (a ++ b)).drop (byteLength a) = bytes b := by
  rw [bytes_append, ← length_bytes, List.drop_left]

/-- A byte of a character that stands behind a place. -/
theorem getElem?_bytes (a : Text) (c : Char) (u : Text) {k : Nat} (hk : k < c.utf8Size) :
    (bytes (a ++ c :: u))[byteLength a + k]? = (String.utf8EncodeChar c)[k]? := by
  rw [bytes_append, ← length_bytes a, List.getElem?_append_right (Nat.le_add_right _ _), Nat.add_sub_cancel_left,
    bytes_cons, List.getElem?_append_left (by rwa [String.length_utf8EncodeChar])]

/-- Every byte belongs to a character. -/
theorem exists_char_of_lt {t : Text} {n : Nat} (hn : n < byteLength t) :
    ∃ a c u k, t = a ++ c :: u ∧ k < c.utf8Size ∧ n = byteLength a + k := by
  induction t generalizing n with
  | nil => exact absurd hn (Nat.not_lt_zero n)
  | cons c t ih =>
    by_cases hc : n < c.utf8Size
    · exact ⟨[], c, t, n, rfl, hc, by simp⟩
    · rw [byteLength_cons] at hn
      obtain ⟨a, d, u, k, rfl, hk, heq⟩ := ih (n := n - c.utf8Size) (by omega)
      refine ⟨c :: a, d, u, k, rfl, hk, ?_⟩
      rw [byteLength_cons]
      omega

/-- **The bytes of a text that is not empty stand between characters.** -/
theorem isBoundary_of_isPrefix {p t : Text} {n : Nat} (hp : p ≠ []) (h : bytes p <+: (bytes t).drop n) :
    IsBoundary t n := by
  obtain ⟨c, p, rfl⟩ := List.exists_cons_of_ne_nil hp
  obtain ⟨b, x, hx⟩ := List.exists_cons_of_ne_nil (String.utf8EncodeChar_ne_nil (c := c))
  have hbyte : (bytes t)[n]? = some b := by
    obtain ⟨r, hr⟩ := h
    rw [bytes_cons, hx, List.cons_append] at hr
    have hhead := congrArg List.head? hr
    rw [List.head?_drop] at hhead
    exact hhead.symm
  have hn : n < byteLength t := by
    rw [← length_bytes]
    exact (List.getElem?_eq_some_iff.1 hbyte).1
  obtain ⟨a, d, u, k, rfl, hk, rfl⟩ := exists_char_of_lt hn
  rw [getElem?_bytes a d u hk] at hbyte
  -- the first byte of a character is the first byte of the character where it stands
  have hfirst : b.IsUTF8FirstByte := by
    have := UInt8.isUTF8FirstByte_getElem_zero_utf8EncodeChar (c := c)
    simpa only [hx, List.getElem_cons_zero] using this
  obtain ⟨hlt, rfl⟩ := List.getElem?_eq_some_iff.1 hbyte
  rw [UInt8.isUTF8FirstByte_getElem_utf8EncodeChar] at hfirst
  subst hfirst
  exact isBoundary_iff.2 ⟨a, d :: u, rfl, rfl⟩

end CanonicalVhdl.Text
