import CanonicalVhdl.Proofs.Design.Clause
import CanonicalVhdl.Proofs.Search.Separator

/-!
# Entries read from clauses

A clause gives back its entries whatever their code says, as long as the code of each, read on
its own, is closed: its parentheses match, its strings end, and no semicolon stands outside.
The comments may hold anything that fits on a line.  No semicolon, parenthesis, quotation mark
or hyphen in one of them is taken for code, and none of them moves to another entry.

## Main definitions

* `ListEntry.WellFormed` — an entry with closed code on one line and a comment of one line.

## Main statements

* `Text.IsPiece.isPassed` — searches pass over closed code.
* `ListEntry.split?_clauseText` — the entries of a clause are read from its text.
-/

namespace CanonicalVhdl

open Text Token

namespace Text

/-! ## Searches over closed code -/

theorem EndsCode.isPlain {u : Text} (h : EndsCode u) : ∀ c ∈ u.head?, isPlain c = true := by
  have hkind : ∀ c ∈ [';', ' ', '\n'], Text.isPlain c = true := by decide
  exact fun c hc => hkind c (h c hc)

section Closed

variable {before : Option Char} {c : Char} {u : Text}

/-- Inside the group that a search is to leave, one character of code. -/
theorem closeFrom_inside {depth : Nat} (hat : Lexeme.at before (c :: u) = .code)
    (hopened : c = ')' → 0 < depth) (start count position d : Nat) :
    closeFrom (some (start, count + 1 + depth)) position (d + depth) before (c :: u)
      = closeFrom
          (some (start, count + 1 + if c == '(' then depth + 1 else if c == ')' then depth - 1 else depth))
          (position + 1) (d + if c == '(' then depth + 1 else if c == ')' then depth - 1 else depth)
          (some c) u := by
  by_cases ho : c = '('
  · subst ho
    rw [closeFrom, codePointsFrom_code _ _ hat]
    rfl
  · by_cases hc : c = ')'
    · -- the group that is closed is not the one to leave
      subst hc
      obtain ⟨n, rfl⟩ := Nat.exists_eq_succ_of_ne_zero (hopened rfl).ne'
      rw [closeFrom, codePointsFrom_code _ _ hat]
      simp [closeGroup, closeFrom, ← Nat.add_assoc]
    · rw [closeFrom_code _ _ _ hat ho hc]
      simp [ho, hc]

theorem hitAt_semicolon_eq_nil {depth : Nat} (h : depth = 0 → c ≠ ';') (position : Nat) :
    hitAt [[';']] position depth before (c :: u) = [] := by
  cases depth with
  | succ depth => exact hitAt_succ ..
  | zero =>
    refine hitAt_eq_nil (fun p hp => ?_) position 0
    rw [List.mem_singleton.1 hp, standsAt_symbol (by decide)]
    simpa [List.isPrefixOf] using (h rfl).symm

theorem passesOver_closeFrom (start count position d : Nat) (b : Option Char) :
    PassesOver ';' b fun depth s u =>
      closeFrom (some (start, count + 1 + depth)) (position + s.length) (d + depth) (lastOr b s) u where
  code hat hopened _ := by
    rw [closeFrom_inside hat hopened, lastOr_append, List.length_append]
    rfl
  literal hat _ := by
    have hquote := eq_of_at_literal hat
    rw [closeFrom_literal _ _ _ hat (by rintro rfl; simp at hquote) (by rintro rfl; simp at hquote),
      lastOr_append, lastOr_cons, List.length_append, List.length_cons]
    congr 1
    omega

theorem passesOver_hitsFrom (position : Nat) (b : Option Char) :
    PassesOver ';' b fun depth s u =>
      hitsFrom [[';']] (position + s.length) depth (lastOr b s) u where
  code hat _ hapart := by
    rw [hitsFrom_code _ _ _ hat, hitAt_semicolon_eq_nil hapart, List.nil_append, lastOr_append,
      List.length_append]
    rfl
  literal hat hapart := by
    rw [hitsFrom_literal _ _ _ hat, hitAt_semicolon_eq_nil hapart, List.nil_append, lastOr_append,
      lastOr_cons, List.length_append, List.length_cons]
    congr 1
    omega

theorem passesOver_maskFrom (b : Option Char) :
    PassesOver ';' b fun _ s u => s ++ maskFrom [] false 0 (lastOr b s) u where
  code hat _ _ := by
    rw [maskFrom_code hat, lastOr_append, List.append_assoc]
    rfl
  literal hat _ := by
    rw [maskFrom_literal hat, lastOr_append, lastOr_cons, List.append_assoc, List.cons_append]

end Closed

/-- **Searches pass over closed code.** -/
theorem IsPiece.isPassed {t : Text} (h : IsPiece ';' t) : IsPassed t where
  closeFrom_eq start count position depth _ _ hbefore hu :=
    (passesOver_closeFrom start count position depth _).piece hbefore.symm hu.isPlain h
  hitsFrom_eq position _ _ hbefore hu := (passesOver_hitsFrom position _).piece hbefore.symm hu.isPlain h
  maskFrom_eq hbefore hu := (passesOver_maskFrom _).piece hbefore.symm hu.isPlain h

end Text

namespace ListEntry

/-! ## Entries -/

/-- An entry with code on one line that, read on its own, is closed and shows no semicolon, and with
a comment of one line. -/
structure WellFormed (e : ListEntry) : Prop where
  /-- The code is closed, without comments and without semicolons outside. -/
  isPiece : IsPiece ';' e.code
  /-- There is code, without blanks at its ends. -/
  solid : Solid e.code
  /-- The code is one line. -/
  newline_not_mem : '\n' ∉ e.code
  /-- The comment is one line without blanks at its end. -/
  isRemark : IsRemark e.comment

instance {e : ListEntry} : Decidable e.WellFormed :=
  decidable_of_iff
    (IsPiece ';' e.code ∧ (e.code ≠ [] ∧ e.code.head?.any isBlank = false ∧ e.code.getLast?.any isBlank = false)
      ∧ '\n' ∉ e.code
      ∧ ∀ c ∈ e.comment, '\n' ∉ c.text ∧ '\r' ∉ c.text ∧ trimEnd c.text = c.text)
    ⟨fun ⟨hpiece, ⟨hne, hhead, hlast⟩, hline, hremark⟩ =>
      ⟨hpiece, ⟨⟨hhead, hlast⟩, hne⟩, hline, fun c hc =>
        have ⟨hn, hr, htrim⟩ := hremark c hc
        ⟨hn, hr, htrim⟩⟩,
    fun h => ⟨h.isPiece, ⟨h.solid.ne_nil, h.solid.head, h.solid.last⟩, h.newline_not_mem, fun c hc =>
      have hc := h.isRemark c hc
      ⟨hc.newline_not_mem, hc.return_not_mem, hc.trimEnd_eq⟩⟩⟩

theorem WellFormed.isSound {e : ListEntry} (h : e.WellFormed) : e.IsSound where
  isPassed := h.isPiece.isPassed
  solid := h.solid
  newline_not_mem := h.newline_not_mem
  isRemark := h.isRemark

/-- **The entries of a clause are read from its text**, each with its own comment, in order. -/
theorem split?_clauseText {keyword : Text} (hkeyword : IsRun keyword) {es : List ListEntry}
    (hne : es ≠ []) (h : ∀ e ∈ es, e.WellFormed) :
    ∃ inner, interior? keyword (clauseText keyword es) = some inner ∧ split? inner = some es := by
  have hsound : ∀ e ∈ es, e.IsSound := fun e he => (h e he).isSound
  have hclause : clauseText keyword es = clause keyword 0 es := by
    rw [← shift_clauseText (hkeyword.not_mem (by decide)) hsound hne 0, shift_zero]
  refine ⟨interior 0 es, ?_, split?_interior 0 hsound hne⟩
  rw [hclause, interior?_clause hkeyword hsound]

/-- Entries whose comments hold semicolons, parentheses, quotation marks and hyphens, and whose code
holds a semicolon inside parentheses, one between ticks, and two hyphens in a string. -/
def markedEntries : List ListEntry :=
  [⟨"a: in t(1; 2)".toList, some ⟨" of (\"; 'and -- so".toList⟩⟩,
    ⟨"b: in é := ';'".toList, none⟩,
    ⟨"c: in s := \"--;\"\"(\"".toList, some ⟨[]⟩⟩,
    ⟨"d: out bit".toList, some ⟨");  -- b; d".toList⟩⟩]

theorem split?_clauseText_marked :
    IsRun "port".toList ∧ markedEntries ≠ [] ∧ (∀ e ∈ markedEntries, e.WellFormed) ∧
      ∃ inner, interior? "port".toList ("port (\n    a: in t(1; 2); -- of (\"; 'and -- so\n".toList
        ++ "    b: in é := ';';\n    c: in s := \"--;\"\"(\"; --\n    d: out bit --);  -- b; d\n);".toList)
          = some inner ∧ split? inner = some markedEntries := by
  have hentries : ∀ e ∈ markedEntries, e.WellFormed := by decide +kernel
  have htext : "port (\n    a: in t(1; 2); -- of (\"; 'and -- so\n".toList
      ++ "    b: in é := ';';\n    c: in s := \"--;\"\"(\"; --\n    d: out bit --);  -- b; d\n);".toList
        = clauseText "port".toList markedEntries := by decide +kernel
  rw [htext]
  exact ⟨by decide, by decide, hentries, split?_clauseText (by decide) (by decide) hentries⟩

end ListEntry
end CanonicalVhdl
