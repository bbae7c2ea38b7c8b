import CanonicalVhdl.Proofs.Comment.Search
import CanonicalVhdl.Proofs.Expr.Literal

/-!
# Vectors among the literals

The reader of literals tries the other kinds first, and what has a decimal point in
it is a real number or nothing.  So it reads a vector exactly where the reader of
vectors does and no point stands in the text; an aggregate of real numbers is
refused although it is a vector.

## Main statements

* `Literal.readNested_eq_readWith` — the bound on nested aggregates does not matter.
* `Literal.read_eq_vector_iff` — when a literal is read as a vector.
-/

namespace CanonicalVhdl

open Text

/-! ## Parts are no longer than the whole -/

namespace Text

theorem length_le_of_mem_piecesBetween {t piece : Text} {cuts : List Nat} {start : Nat}
    (h : piece ∈ piecesBetween start t cuts) : piece.length ≤ t.length := by
  induction cuts generalizing start t with
  | nil => rw [List.mem_singleton.1 h]
  | cons i cuts ih =>
    rcases List.mem_cons.1 h with rfl | h
    · exact List.length_take_le' _ _
    · exact (ih h).trans (by simp)

theorem length_le_of_mem_splitOuter {separator : Char} {t piece : Text}
    (h : piece ∈ splitOuter separator t) : piece.length ≤ t.length :=
  length_le_of_mem_piecesBetween h

theorem length_le_of_cutOuter? {pattern t a b : Text} (h : cutOuter? pattern t = some (a, b)) :
    b.length ≤ t.length := by
  obtain ⟨x, ht, -, -⟩ := eq_of_cutOuter? h
  rw [ht, List.length_append, List.length_append]
  omega

theorem length_lt_of_parenthesised? {t inner after : Text}
    (h : parenthesised? t = some (inner, after)) : inner.length < t.length := by
  rw [(eq_of_parenthesised? h).1, List.length_cons, List.length_append]
  omega

theorem length_trim_le (t : Text) : (trim t).length ≤ t.length := by
  obtain ⟨g, g', -, -, ht⟩ := exists_pad_trim t
  rw [congrArg List.length ht, List.length_append, List.length_append]
  omega

end Text

variable {expr : Text → Option Expr} {literal literal' : Text → Option Literal} {t : Text}

/-! ## The bound on nested aggregates -/

namespace VectorLiteral

theorem readWith_trim (t : Text) : readWith expr literal (trim t) = readWith expr literal t := by
  rw [readWith, readWith, trim_eq_self (trimmed_trim t)]

/-- The values of an aggregate are read from texts shorter than its own. -/
theorem readAggregate_congr (h : ∀ u, u.length < t.length → literal u = literal' u) :
    readAggregate expr literal t = readAggregate expr literal' t := by
  rw [readAggregate, readAggregate]
  refine Option.bind_congr ?_
  rintro ⟨inner, after⟩ hgroup
  have hinner := length_lt_of_parenthesised? hgroup
  have helement : ∀ piece ∈ splitOuter ',' inner,
      readElement expr literal piece = readElement expr literal' piece := by
    intro piece hpiece
    rw [readElement, readElement]
    refine Option.bind_congr ?_
    rintro ⟨index, value⟩ hcut
    have hvalue := length_le_of_cutOuter? hcut
    have := length_le_of_mem_splitOuter hpiece
    simp only [h value (by omega)]
  simp only [mapM_congr helement]

theorem readWith_congr (h : ∀ u, u.length < t.length → literal u = literal' u) :
    readWith expr literal t = readWith expr literal' t := by
  have htrim := length_trim_le t
  have hagg : readAggregate expr literal (trim t) = readAggregate expr literal' (trim t) :=
    readAggregate_congr fun u hu => h u (by omega)
  simp only [readWith]
  split
  · rfl
  · split
    · rw [hagg]
    all_goals rfl

end VectorLiteral

namespace Literal

/-- **The bound on nested aggregates does not matter** once it exceeds the length. -/
theorem readNested_eq_readWith {fuel : Nat} (h : t.length < fuel) :
    readNested expr fuel t = readWith expr t := by
  rw [readWith]
  induction fuel using Nat.strongRecOn generalizing t with
  | ind fuel ih =>
    cases fuel with
    | zero => omega
    | succ fuel =>
      have htrim := length_trim_le t
      -- inside `t` both bounds exceed the lengths, so both give what `readWith` gives
      have hvector : VectorLiteral.readWith expr (readNested expr fuel) (trim t)
          = VectorLiteral.readWith expr (readNested expr t.length) (trim t) :=
        VectorLiteral.readWith_congr fun u hu => by
          rw [ih fuel (Nat.lt_succ_self _) (by omega), ih t.length h (by omega)]
      simp only [readNested, readPlain, hvector]

end Literal

/-! ## Literals that are vectors -/

/-- What is read as a vector starts with a parenthesis or with a quotation mark, the
letter of a base aside. -/
theorem VectorLiteral.exists_of_readWith {v : VectorLiteral} (h : readWith expr literal t = some v) :
    (∃ u, trim t = '(' :: u) ∨ (∃ u, trim t = '"' :: u) ∨
      ∃ c u, trim t = c :: '"' :: u ∧ c.isAlpha = true := by
  simp only [readWith] at h
  split at h
  · cases h
  split at h
  · exact .inl ⟨_, ‹_›⟩
  · exact .inr (.inl ⟨_, ‹_›⟩)
  · rename_i base rest _ _ heq
    refine .inr (.inr ⟨base, rest, heq, ?_⟩)
    split at h
    · obtain ⟨body, -, h⟩ := Option.bind_eq_some_iff.1 h
      rw [← isAlpha_toLower]
      simp only [readBased] at h
      repeat' split at h
      all_goals simp_all
    · cases h
  · cases h

namespace Literal

/-- Only the last of the alternatives is a vector. -/
theorem vector_of_readNested {fuel : Nat} {v : VectorLiteral}
    (h : readNested expr (fuel + 1) t = some (.vector v)) :
    '.' ∉ trim t ∧ VectorLiteral.readWith expr (readNested expr fuel) (trim t) = some v := by
  simp only [readNested] at h
  split at h
  · cases h
  split at h
  · rw [readTicked] at h
    split at h
    · cases h
    · obtain ⟨v, -, hv⟩ := Option.map_eq_some_iff.1 h
      cases hv
  · rw [readPlain] at h
    iterate 3
      split at h
      · cases h
    split at h
    · obtain ⟨x, -, hx⟩ := Option.map_eq_some_iff.1 h
      cases hx
    · rename_i hpoint
      obtain ⟨w, hw, hv⟩ := Option.map_eq_some_iff.1 h
      cases hv
      exact ⟨by simpa using hpoint, hw⟩

/-- A text that is a vector is read as a vector or, with a point in it, not at all. -/
theorem readPlain_of_vector {v : VectorLiteral} (ht : trim t = t)
    (h : VectorLiteral.readWith expr literal t = some v) :
    readPlain expr literal t = if t.contains '.' then none else some (.vector v) := by
  have hstart := VectorLiteral.exists_of_readWith h
  rw [ht] at hstart
  obtain ⟨c, hmem, hident, hint⟩ : ∃ c ∈ t, isIdentChar c = false ∧
      (c.isDigit || c == '_' || c == '-') = false := by
    obtain ⟨u, rfl⟩ | ⟨u, rfl⟩ | ⟨c, u, rfl, -⟩ := hstart
    · exact ⟨'(', by simp, by decide, by decide⟩
    · exact ⟨'"', by simp, by decide, by decide⟩
    · exact ⟨'"', by simp, by decide, by decide⟩
  have hhead : (t.head?.any fun c => c.isDigit || c == '-') = false := by
    obtain ⟨u, rfl⟩ | ⟨u, rfl⟩ | ⟨c, u, rfl, hc⟩ := hstart
    · rfl
    · rfl
    · have hdash : c ≠ '-' := by rintro rfl; exact absurd hc (by decide)
      simp [isDigit_eq_false_of_isAlpha hc, hdash]
  have hword : ∀ b : Bool, sameWord t (if b then "true" else "false").toList = false :=
    fun b => sameWord_eq_false_of_mem (isName_boolean b) hmem hident
  rw [readPlain_eq hword (Integer64.read_eq_none hmem hint), Real64.read_eq_none_of_head hhead, h]
  rfl

theorem readNested_of_vector {fuel : Nat} {v : VectorLiteral}
    (h : VectorLiteral.readWith expr literal (trim t) = some v) :
    readNested expr (fuel + 1) t = readPlain expr (readNested expr fuel) (trim t) := by
  have hself : trim (trim t) = trim t := trim_eq_self (trimmed_trim t)
  have hstart := VectorLiteral.exists_of_readWith h
  have hfits : Text.fits Limits.literalBytes (trim t) = true := by
    by_contra hfits
    rw [Bool.not_eq_true] at hfits
    simp [VectorLiteral.readWith, hself, hfits] at h
  rw [hself] at hstart
  have hne : (trim t).isEmpty = false := by
    obtain ⟨u, hu⟩ | ⟨u, hu⟩ | ⟨c, u, hu, -⟩ := hstart <;> rw [hu] <;> rfl
  have htick : ∀ c, trim t ≠ ['\'', c, '\''] := by
    intro d hd
    obtain ⟨u, hu⟩ | ⟨u, hu⟩ | ⟨c, u, hu, hc⟩ := hstart <;> rw [hd] at hu
    · cases hu
    · cases hu
    · cases hu; exact absurd hc (by decide)
  simp only [readNested, hne, hfits, Bool.not_true, Bool.or_self, Bool.false_eq_true, if_false]

/-- **A literal is read as a vector exactly where a vector is read and no decimal
point stands in the text.** -/
theorem read_eq_vector_iff {room : Nat} {v : VectorLiteral} :
    Literal.read room t = some (.vector v)
      ↔ VectorLiteral.read room t = some v ∧ '.' ∉ trim t := by
  have htrim := length_trim_le t
  have hself : trim (trim t) = trim t := trim_eq_self (trimmed_trim t)
  -- the values of an aggregate are read by themselves or inside the whole literal
  have hvector : VectorLiteral.readWith (Expr.read room) (readNested (Expr.read room) t.length) (trim t)
      = VectorLiteral.read room t := by
    rw [VectorLiteral.read, VectorLiteral.readWhole, ← VectorLiteral.readWith_trim t]
    exact VectorLiteral.readWith_congr fun u hu => readNested_eq_readWith (by omega)
  constructor
  · intro h
    obtain ⟨hpoint, h⟩ := vector_of_readNested h
    exact ⟨hvector ▸ h, hpoint⟩
  · rintro ⟨h, hpoint⟩
    rw [← hvector] at h
    have hplain := readPlain_of_vector hself h
    rw [List.contains_eq_mem, decide_eq_false hpoint, if_neg Bool.false_ne_true] at hplain
    rw [Literal.read, readWith, readNested_of_vector h, hplain]

end Literal
end CanonicalVhdl
