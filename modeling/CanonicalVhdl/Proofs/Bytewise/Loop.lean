import CanonicalVhdl.Proofs.Bytewise.Basic
import CanonicalVhdl.Proofs.Case.Text

/-!
# Checked work on bytes

A scanner that works on the bytes of a text can go wrong in four ways: it reads a byte beyond the
end, cuts inside a character, takes a number from a smaller one, or does not come to an end.  Here
each of them is a fault, so that what answers without a fault has avoided it.

## Main definitions

* `Bytewise.Checked` — an answer or a fault.
* `Bytewise.byteAt`, `Bytewise.bytesFrom`, `Bytewise.part`, `Bytewise.minus` — the steps that may
  fail.
* `Bytewise.loop` — a loop over indices that has to move on and stay inside its bound.

## Main statements

* `Bytewise.loop_next`, `Bytewise.loop_done`, `Bytewise.loop_end` — one turn of a loop.
* `Bytewise.part_between` — a text is cut where characters start.
* `Bytewise.beq_of_mem` — every byte of a character tells whether it is some character of ASCII.
-/

namespace CanonicalVhdl.Bytewise

open Text

/-! ## Faults -/

/-- What can go wrong when a program works on the bytes of a text. -/
inductive Fault where
  /-- A byte beyond the end is read. -/
  | outside
  /-- A part does not lie in the text, or does not start and end between characters. -/
  | torn
  /-- A number is taken from a smaller one. -/
  | negative
  /-- A loop does not move on, or leaves its bound. -/
  | stuck
deriving DecidableEq, Repr

/-- An answer, or what went wrong. -/
abbrev Checked (α : Type) :=
  Except Fault α

/-- The byte at an index. -/
def byteAt (bs : List UInt8) (i : Nat) : Checked UInt8 :=
  match bs[i]? with
  | some b => .ok b
  | none => .error .outside

/-- The bytes from an index on. -/
def bytesFrom (bs : List UInt8) (i : Nat) : Checked (List UInt8) :=
  if i ≤ bs.length then .ok (bs.drop i) else .error .outside

/-- The part of a text between two byte offsets. -/
def part (t : Text) (start stop : Nat) : Checked Text :=
  match slice? t start stop with
  | some x => .ok x
  | none => .error .torn

/-- A difference of numbers that cannot be negative. -/
def minus (m n : Nat) : Checked Nat :=
  if n ≤ m then .ok (m - n) else .error .negative

section Steps

theorem byteAt_eq {bs : List UInt8} {i : Nat} {b : UInt8} (h : bs[i]? = some b) : byteAt bs i = .ok b := by
  rw [byteAt, h]

theorem bytesFrom_eq (a u : Text) : bytesFrom (bytes (a ++ u)) (byteLength a) = .ok (bytes u) := by
  rw [bytesFrom, drop_bytes, length_bytes, byteLength_append, if_pos (Nat.le_add_right _ _)]

theorem minus_eq {m n : Nat} (h : n ≤ m) : minus m n = .ok (m - n) :=
  if_pos h

theorem part_eq {t x : Text} {start stop : Nat} (h : slice? t start stop = some x) :
    part t start stop = .ok x := by
  rw [part, h]

/-- **A text is cut where characters start.** -/
theorem part_between (a x b : Text) :
    part (a ++ (x ++ b)) (byteLength a) (byteLength (a ++ x)) = .ok x := by
  rw [byteLength_append]
  exact part_eq (slice?_append a x b)

theorem part_front (x b : Text) : part (x ++ b) 0 (byteLength x) = .ok x :=
  part_between [] x b

theorem part_back (a x : Text) : part (a ++ x) (byteLength a) (byteLength (a ++ x)) = .ok x := by
  have h := part_between a x []
  rwa [List.append_nil] at h

end Steps

/-! ## Loops -/

/-- How one turn of a loop ends. -/
inductive Turn (σ α : Type) where
  /-- The loop goes on, with another state and at another index. -/
  | next (state : σ) (index : Nat)
  /-- The loop answers. -/
  | done (answer : α)

/-- A loop over the indices before `bound`, which answers there with `finish` at the latest. -/
def loop {σ α : Type} (bound : Nat) (turn : σ → Nat → Checked (Turn σ α)) (finish : σ → Nat → Checked α)
    (state : σ) (index : Nat) : Checked α :=
  if _ : index < bound then
    match turn state index with
    | .error fault => .error fault
    | .ok (.done answer) => .ok answer
    | .ok (.next state' index') =>
      if _ : index < index' ∧ index' ≤ bound then loop bound turn finish state' index'
      else .error .stuck
  else finish state index
termination_by bound - index

section Loops

variable {σ α : Type} {bound : Nat} {turn : σ → Nat → Checked (Turn σ α)} {finish : σ → Nat → Checked α}
  {s s' : σ} {i j : Nat} {answer : α}

/-- The loop goes on. -/
theorem loop_next (h : turn s i = .ok (.next s' j)) (hij : i < j) (hj : j ≤ bound) :
    loop bound turn finish s i = loop bound turn finish s' j := by
  rw [loop, dif_pos (Nat.lt_of_lt_of_le hij hj), h]
  exact dif_pos ⟨hij, hj⟩

/-- The loop answers. -/
theorem loop_done (hi : i < bound) (h : turn s i = .ok (.done answer)) :
    loop bound turn finish s i = .ok answer := by
  rw [loop, dif_pos hi, h]

/-- The loop comes to its end. -/
theorem loop_end (hi : bound ≤ i) : loop bound turn finish s i = finish s i := by
  rw [loop, dif_neg (Nat.not_lt.2 hi)]

/-- The loop goes on index by index, from state to state. -/
theorem loop_pass (states : Nat → σ) (n : Nat)
    (h : ∀ k < n, turn (states k) (i + k) = .ok (.next (states (k + 1)) (i + k + 1)))
    (hn : i + n ≤ bound) :
    loop bound turn finish (states 0) i = loop bound turn finish (states n) (i + n) := by
  induction n with
  | zero => rfl
  | succ n ih =>
    rw [ih (fun k hk => h k (Nat.lt_succ_of_lt hk)) (by omega),
      loop_next (h n (Nat.lt_succ_self n)) (Nat.lt_succ_self _) hn]
    rfl

end Loops

/-! ## Bytes and characters -/

/-- The bytes of identifiers. -/
def isIdentByte (b : UInt8) : Bool :=
  let n := b.toNat
  (48 ≤ n && n ≤ 57) || (65 ≤ n && n ≤ 90) || (97 ≤ n && n ≤ 122) || n == 95

/-- The bytes of blanks of ASCII. -/
def isBlankByte (b : UInt8) : Bool :=
  let n := b.toNat
  n == 32 || n == 9 || n == 10 || n == 12 || n == 13

/-- The bytes of letters. -/
def isAlphaByte (b : UInt8) : Bool :=
  let n := b.toNat
  (65 ≤ n && n ≤ 90) || (97 ≤ n && n ≤ 122)

/-- The byte of the small letter, if a byte is a capital one. -/
def lowerByte (b : UInt8) : UInt8 :=
  if 65 ≤ b.toNat && b.toNat ≤ 90 then b + 32 else b

/-- The first byte of a character. -/
def lead (c : Char) : UInt8 :=
  (String.utf8EncodeChar c).head String.utf8EncodeChar_ne_nil

/-- The last byte of a character. -/
def trail (c : Char) : UInt8 :=
  (String.utf8EncodeChar c).getLast String.utf8EncodeChar_ne_nil

theorem lead_mem (c : Char) : lead c ∈ String.utf8EncodeChar c :=
  List.head_mem _

theorem trail_mem (c : Char) : trail c ∈ String.utf8EncodeChar c :=
  List.getLast_mem _

theorem lead_ascii {c : Char} (hc : c.toNat < 128) : lead c = c.toUInt8 := by
  have h := lead_mem c
  rwa [utf8EncodeChar_ascii hc, List.mem_singleton] at h

theorem toNat_toUInt8 {c : Char} (hc : c.toNat < 128) : c.toUInt8.toNat = c.toNat := by
  rw [Char.toUInt8, UInt32.toNat_toUInt8]
  exact Nat.mod_eq_of_lt (Nat.lt_trans hc (by decide))

/-- What holds of the characters of ASCII and their bytes holds of every character and its bytes, if
it holds of no byte and no character beyond. -/
theorem eq_of_mem {p : UInt8 → Bool} {q : Char → Bool}
    (hascii : ∀ n : Fin 128, p (Char.ofNat n).toUInt8 = q (Char.ofNat n))
    (hp : ∀ b : UInt8, 128 ≤ b.toNat → p b = false) (hq : ∀ c : Char, 128 ≤ c.toNat → q c = false)
    {c : Char} {b : UInt8} (hb : b ∈ String.utf8EncodeChar c) : p b = q c := by
  by_cases hc : c.toNat < 128
  · rw [utf8EncodeChar_ascii hc, List.mem_singleton] at hb
    have h := hascii ⟨c.toNat, hc⟩
    rwa [Char.ofNat_toNat, ← hb] at h
  · rw [hp b (le_of_mem_utf8EncodeChar hc hb), hq c (Nat.le_of_not_lt hc)]

/-- **Every byte of a character tells whether it is some character of ASCII.** -/
theorem beq_of_mem {c d : Char} (hd : d.toNat < 128) {b : UInt8} (hb : b ∈ String.utf8EncodeChar c) :
    (b == d.toUInt8) = (c == d) := by
  by_cases hc : c.toNat < 128
  · rw [utf8EncodeChar_ascii hc, List.mem_singleton] at hb
    rw [hb, Bool.eq_iff_iff, beq_iff_eq, beq_iff_eq]
    constructor
    · intro h
      have hnat := congrArg UInt8.toNat h
      rw [toNat_toUInt8 hc, toNat_toUInt8 hd] at hnat
      exact Char.toNat_inj.1 hnat
    · exact congrArg Char.toUInt8
  · have hle := le_of_mem_utf8EncodeChar hc hb
    have hbyte : b ≠ d.toUInt8 := by
      rintro rfl
      rw [toNat_toUInt8 hd] at hle
      omega
    have hchar : c ≠ d := by
      rintro rfl
      exact hc hd
    rw [beq_false_of_ne hbyte, beq_false_of_ne hchar]

theorem toUInt8_beq {c d : Char} (hc : c.toNat < 128) (hd : d.toNat < 128) :
    (c.toUInt8 == d.toUInt8) = (c == d) := by
  apply beq_of_mem hd
  rw [utf8EncodeChar_ascii hc]
  exact List.mem_singleton_self _

theorem toNat_lt_of_isIdentChar {c : Char} (h : isIdentChar c = true) : c.toNat < 128 :=
  Nat.lt_of_le_of_lt (toNat_of_isIdentChar h).2 (by decide)

/-- The bytes of ASCII are of the kinds their characters are of. -/
theorem kinds_ascii (n : Fin 128) :
    isIdentByte (Char.ofNat n).toUInt8 = isIdentChar (Char.ofNat n)
      ∧ isBlankByte (Char.ofNat n).toUInt8 = isAsciiBlank (Char.ofNat n)
      ∧ isAlphaByte (Char.ofNat n).toUInt8 = (Char.ofNat n).isAlpha
      ∧ lowerByte (Char.ofNat n).toUInt8 = (Char.ofNat n).toLower.toUInt8 := by
  revert n
  decide

theorem isIdentByte_of_mem {c : Char} {b : UInt8} (hb : b ∈ String.utf8EncodeChar c) :
    isIdentByte b = isIdentChar c := by
  refine eq_of_mem (fun n => (kinds_ascii n).1) (fun b hb => ?_) (fun c hc => ?_) hb
  · simp only [isIdentByte, Bool.or_eq_false_iff, Bool.and_eq_false_iff, decide_eq_false_iff_not,
      beq_eq_false_iff_ne]
    omega
  · by_contra hident
    have := toNat_lt_of_isIdentChar ((Bool.not_eq_false _).mp hident)
    omega

theorem isBlankByte_of_mem {c : Char} {b : UInt8} (hb : b ∈ String.utf8EncodeChar c) :
    isBlankByte b = isAsciiBlank c := by
  refine eq_of_mem (fun n => (kinds_ascii n).2.1) (fun b hb => ?_) (fun c hc => ?_) hb
  · simp only [isBlankByte, Bool.or_eq_false_iff, beq_eq_false_iff_ne]
    omega
  · simp only [isAsciiBlank, Bool.or_eq_false_iff, beq_eq_false_iff_ne]
    refine ⟨⟨⟨⟨?_, ?_⟩, ?_⟩, ?_⟩, ?_⟩ <;> rintro rfl <;> exact absurd hc (by decide)

theorem isAlphaByte_of_mem {c : Char} {b : UInt8} (hb : b ∈ String.utf8EncodeChar c) :
    isAlphaByte b = c.isAlpha := by
  refine eq_of_mem (fun n => (kinds_ascii n).2.2.1) (fun b hb => ?_) (fun c hc => ?_) hb
  · simp only [isAlphaByte, Bool.or_eq_false_iff, Bool.and_eq_false_iff, decide_eq_false_iff_not]
    omega
  · by_contra halpha
    have := toNat_lt_of_isIdentChar (isIdentChar_of_isAlpha ((Bool.not_eq_false _).mp halpha))
    omega

/-- Capital letters are of ASCII, and so are the small ones. -/
theorem map_lowerByte_encode (c : Char) :
    (String.utf8EncodeChar c).map lowerByte = String.utf8EncodeChar c.toLower := by
  by_cases hc : c.toNat < 128
  · have hlower : c.toLower.toNat < 128 :=
      of_decide_eq_true ((isAscii_toLower c).trans (decide_eq_true hc))
    have h := (kinds_ascii ⟨c.toNat, hc⟩).2.2.2
    rw [Char.ofNat_toNat] at h
    rw [utf8EncodeChar_ascii hc, utf8EncodeChar_ascii hlower, List.map_singleton, h]
  · have hlower : c.toLower = c := by
      rcases toLower_eq_self_or c with h | ⟨n, rfl⟩
      · exact h
      · have hcapital : ∀ n : Fin 26, (Char.ofNat (65 + n)).toNat < 128 := by decide
        exact absurd (hcapital n) hc
    have hbytes : ∀ b ∈ String.utf8EncodeChar c, lowerByte b = b := by
      intro b hb
      have := le_of_mem_utf8EncodeChar hc hb
      have hnot : ¬ (decide (65 ≤ b.toNat) && decide (b.toNat ≤ 90)) = true := by
        rw [Bool.and_eq_true, decide_eq_true_eq, decide_eq_true_eq]
        omega
      exact if_neg hnot
    rw [hlower, List.map_congr_left hbytes, List.map_id']

theorem bytes_fold (t : Text) : bytes (fold t) = (bytes t).map lowerByte := by
  induction t with
  | nil => rfl
  | cons c t ih => rw [fold_cons, bytes_cons, bytes_cons, List.map_append, map_lowerByte_encode, ih]

/-! ## The bytes around a place -/

section Places

/-- The byte behind a place. -/
theorem getElem?_place (a u : Text) : (bytes (a ++ u))[byteLength a]? = u.head?.map lead := by
  rw [← List.head?_drop, drop_bytes]
  cases u with
  | nil => rfl
  | cons c u =>
    rw [bytes_cons, List.head?_append_of_ne_nil _ String.utf8EncodeChar_ne_nil,
      List.head?_eq_some_head String.utf8EncodeChar_ne_nil]
    rfl

/-- The byte in front of a place. -/
theorem getElem?_before (a : Text) (c : Char) (u : Text) :
    (bytes (a ++ c :: u))[byteLength (a ++ [c]) - 1]? = some (trail c) := by
  have hsize := c.utf8Size_pos
  have hindex : byteLength (a ++ [c]) - 1 = byteLength a + (c.utf8Size - 1) := by
    simp only [byteLength_append, byteLength_cons, byteLength_nil]
    omega
  rw [hindex, getElem?_bytes a c u (by omega), ← String.length_utf8EncodeChar,
    ← List.getLast?_eq_getElem?, List.getLast?_eq_some_getLast String.utf8EncodeChar_ne_nil]
  rfl

/-- A byte of a character behind a place. -/
theorem exists_byte (a : Text) (c : Char) (u : Text) {k : Nat} (hk : k < c.utf8Size) :
    ∃ b ∈ String.utf8EncodeChar c, (bytes (a ++ c :: u))[byteLength a + k]? = some b := by
  have hlength : k < (String.utf8EncodeChar c).length := by rwa [String.length_utf8EncodeChar]
  refine ⟨(String.utf8EncodeChar c)[k], List.getElem_mem hlength, ?_⟩
  rw [getElem?_bytes a c u hk, List.getElem?_eq_getElem hlength]

theorem byteLength_snoc {c : Char} (hc : c.toNat < 128) (a : Text) :
    byteLength (a ++ [c]) = byteLength a + 1 := by
  rw [byteLength_append, byteLength_cons, byteLength_nil, utf8Size_eq_one hc]

theorem byteLength_lt_snoc (a : Text) (c : Char) : byteLength a < byteLength (a ++ [c]) := by
  have := c.utf8Size_pos
  simp only [byteLength_append, byteLength_cons, byteLength_nil]
  omega

theorem byteLength_snoc_le (a : Text) (c : Char) (u : Text) :
    byteLength (a ++ [c]) ≤ byteLength (a ++ c :: u) := by
  simp only [byteLength_append, byteLength_cons, byteLength_nil]
  omega

theorem byteLength_le_append (a u : Text) : byteLength a ≤ byteLength (a ++ u) := by
  rw [byteLength_append]
  exact Nat.le_add_right _ _

section Turns

variable {σ α : Type} {turn : σ → Nat → Checked (Turn σ α)} {finish : σ → Nat → Checked α} {s s' : σ}

/-- A loop over a text goes on from one place to another. -/
theorem loop_place {a x : Text} (u : Text) (hx : x ≠ [])
    (h : turn s (byteLength a) = .ok (.next s' (byteLength (a ++ x)))) :
    loop (byteLength (a ++ (x ++ u))) turn finish s (byteLength a)
      = loop (byteLength (a ++ (x ++ u))) turn finish s' (byteLength (a ++ x)) := by
  refine loop_next h ?_ ?_
  · obtain ⟨c, x, rfl⟩ := List.exists_cons_of_ne_nil hx
    have := c.utf8Size_pos
    rw [byteLength_append, byteLength_cons]
    omega
  · rw [← List.append_assoc]
    exact byteLength_le_append _ _

/-- A loop over a text passes over a character if it goes on at each of its bytes. -/
theorem loop_char (a : Text) (c : Char) (u : Text)
    (h : ∀ k < c.utf8Size, turn s (byteLength a + k) = .ok (.next s (byteLength a + k + 1))) :
    loop (byteLength (a ++ c :: u)) turn finish s (byteLength a)
      = loop (byteLength (a ++ c :: u)) turn finish s (byteLength (a ++ [c])) := by
  have hlength : byteLength (a ++ [c]) = byteLength a + c.utf8Size := by
    rw [byteLength_append, byteLength_cons, byteLength_nil, Nat.add_zero]
  rw [hlength]
  apply loop_pass (fun _ => s) c.utf8Size h
  rw [byteLength_append, byteLength_cons]
  omega

/-- A loop over a text answers in front of its end. -/
theorem loop_answer {a : Text} {c : Char} (u : Text) {answer : α}
    (h : turn s (byteLength a) = .ok (.done answer)) :
    loop (byteLength (a ++ c :: u)) turn finish s (byteLength a) = .ok answer := by
  refine loop_done ?_ h
  have := c.utf8Size_pos
  rw [byteLength_append, byteLength_cons]
  omega

end Turns

end Places

end CanonicalVhdl.Bytewise
