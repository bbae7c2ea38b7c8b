import CanonicalVhdl.Proofs.Concurrent.Layout
import CanonicalVhdl.Proofs.Sequential.ReadBack

/-!
# Clauses behind sequential code

The search for the word that divides a construct goes from statement to statement, so what
stands inside a statement or a comment does not count: behind any sequential code the next
dividing word of the same construct is found, and nothing before it.

## Main definitions

* `StepsOver words t` — the search for one of `words` goes over the text `t`.

## Main statements

* `Sequential.Readable.stepsOver` — the search for a dividing word goes over sequential code.
* `Sequential.clause?_behind` — a dividing word behind sequential code is found, and none in it.
-/

namespace CanonicalVhdl

open Text Token

/-! ## Dividing words -/

theorem isName_dividingWords : ∀ w ∈ dividingWords, IsName w := by decide

/-- A dividing word is found by its spelling. -/
theorem findIdx?_dividingWords {words : List Text} (hwords : ∀ w ∈ words, w ∈ dividingWords) {k : Text}
    (hk : k ∈ words) : (words.findIdx? fun w => sameWord w k) = some (words.idxOf k) := by
  have hsame : ∀ w ∈ words, sameWord w k = (w == k) := by
    intro w hw
    rw [Bool.eq_iff_iff, sameWord_iff, fold_dividingWords w (hwords w hw),
      fold_dividingWords k (hwords k hk), beq_iff_eq]
  rw [findIdx?_congr hsame, List.findIdx?_eq_some_iff_findIdx_eq]
  exact ⟨List.idxOf_lt_length_iff.2 hk, rfl⟩

/-! ## Going over a text -/

/-- Whether the search for a clause with one of `words` goes over a text that a line end
follows. -/
def StepsOver (words : List Text) (t : Text) : Prop :=
  ∀ u : Text, AtLineEnd u → ∀ (fuel passed : Nat) (before : Option Char), (t ++ u).length < fuel →
    ∃ fuel', u.length < fuel' ∧ clauseFrom? words fuel ⟨passed, before, t ++ u⟩
      = clauseFrom? words fuel' ⟨passed + t.length, lastOr before t, u⟩

section Steps

variable {words : List Text} {a b t x : Text}

/-- Blanks and comments are gone over without a step. -/
theorem stepsOver_of_skipTrivia (h : ∀ u, AtLineEnd u → ∀ passed before,
    skipTrivia ⟨passed, before, t ++ u⟩ = skipTrivia ⟨passed + t.length, lastOr before t, u⟩) :
    StepsOver words t := by
  intro u hu fuel passed before hfuel
  rw [List.length_append] at hfuel
  exact ⟨fuel, by omega, clauseFrom?_congr (h u hu passed before) fuel⟩

theorem stepsOver_pad (hg : IsPad t) : StepsOver words t :=
  stepsOver_of_skipTrivia fun u _ passed before => skipTrivia_pad hg passed before u

theorem stepsOver_comment {c : Comment} (hc : c.IsOneLine) : StepsOver words c.line :=
  stepsOver_of_skipTrivia fun _ hu passed before => skipTrivia_comment hc.1 hu passed before

/-- Two texts, if the second one could stand on the lines after the first. -/
theorem StepsOver.append (ha : StepsOver words a) (hb : StepsOver words b) (hline : AtLineEnd b) :
    StepsOver words (a ++ b) := by
  intro u hu fuel passed before hfuel
  rw [List.append_assoc] at hfuel ⊢
  obtain ⟨fuel₁, hfuel₁, hstep₁⟩ := ha (b ++ u) (hline.append hu) fuel passed before hfuel
  obtain ⟨fuel₂, hfuel₂, hstep₂⟩ := hb u hu fuel₁ _ _ hfuel₁
  exact ⟨fuel₂, hfuel₂, by rw [hstep₁, hstep₂, List.length_append, lastOr_append, Nat.add_assoc]⟩

theorem StepsOver.newline (h : StepsOver words t) : StepsOver words ('\n' :: t) := by
  intro u hu fuel passed before hfuel
  rw [List.cons_append, List.length_cons] at hfuel
  obtain ⟨fuel', hfuel', hstep⟩ := h u hu fuel (passed + 1) (some '\n') (by omega)
  have hskip := @clauseFrom?_congr words _ _ (skipTrivia_pad isPad_newline passed before (t ++ u)) fuel
  refine ⟨fuel', hfuel', hskip.trans (hstep.trans ?_)⟩
  rw [List.length_cons, lastOr_cons, Nat.add_assoc, Nat.add_comm 1]

/-- Texts on lines of their own. -/
theorem stepsOver_join {parts : List Text} (h : ∀ t ∈ parts, StepsOver words t) :
    StepsOver words (join ['\n'] parts) := by
  induction parts with
  | nil => exact stepsOver_pad isPad_nil
  | cons t parts ih =>
    obtain ⟨ht, hparts⟩ := List.forall_mem_cons.1 h
    by_cases hnil : parts = []
    · rwa [hnil, join, List.intercalate_singleton]
    · rw [join_cons_of_ne_nil t hnil]
      exact ht.append (ih hparts).newline (atLineEnd_newline _)

/-- A statement and the comment behind it. -/
theorem stepsOver_statement (hwords : ∀ w ∈ words, w ∈ dividingWords) {free : Bool}
    (hx : IsStatement free x) {comment : Option Comment} (hcomment : ∀ c ∈ comment, c.IsOneLine) :
    StepsOver words (x ++ remark comment) := by
  intro u hu fuel passed before hfuel
  obtain ⟨fuel, rfl⟩ : ∃ n, fuel = n + 1 := ⟨fuel - 1, by omega⟩
  have hpos : 0 < x.length := by
    obtain ⟨c, v, rfl, -⟩ := hx.exists_cons
    exact Nat.succ_pos _
  have hremark : StepsOver words (remark comment) := by
    cases comment with
    | none => exact stepsOver_pad isPad_nil
    | some c =>
      refine stepsOver_of_skipTrivia fun v hv passed before => ?_
      have hblank := skipTrivia_pad isPad_blank passed before (c.line ++ v)
      refine hblank.trans ((skipTrivia_comment (hcomment c rfl).1 hv _ _).trans ?_)
      rw [remark, List.length_cons, lastOr_cons]
      simp only [Comment.line, List.length_cons, List.length_nil]
      congr 2
      omega
  rw [List.append_assoc, List.length_append] at hfuel
  obtain ⟨fuel', hfuel', hstep⟩ := hremark u hu fuel (passed + x.length) (lastOr before x) (by omega)
  refine ⟨fuel', hfuel', ?_⟩
  rw [List.append_assoc, clauseFrom?_statement hwords hx, hstep, List.length_append, lastOr_append,
    Nat.add_assoc]

/-- Behind a text that the search goes over it finds what stands on the next line. -/
theorem StepsOver.clause? (h : StepsOver words t) (hwords : ∀ w ∈ words, w ∈ dividingWords) :
    clause? words t = none ∧ ∀ k ∈ words, ∀ u : Text, u.head?.any isIdentChar = false →
      clause? words (t ++ '\n' :: (k ++ u)) = some (t.length + 1, words.idxOf k) := by
  constructor
  · obtain ⟨fuel, -, hfound⟩ := h [] atLineEnd_nil (t.length + 1) 0 none (by simp)
    rw [List.append_nil] at hfound
    rw [Text.clause?, hfound]
    cases fuel <;> rfl
  · intro k hk u hu
    have hname : IsName k := isName_dividingWords k (hwords k hk)
    have hruns : ∀ w ∈ words, IsRun w := fun w hw => isRun_dividingWords w (hwords w hw)
    obtain ⟨fuel, hfuel, hfound⟩ := h ('\n' :: (k ++ u)) (atLineEnd_newline _)
      ((t ++ '\n' :: (k ++ u)).length + 1) 0 none (Nat.lt_succ_self _)
    obtain ⟨fuel, rfl⟩ : ∃ n, fuel = n + 1 := ⟨fuel - 1, by omega⟩
    have hskip := @clauseFrom?_congr words _ _
      (skipTrivia_pad isPad_newline (0 + t.length) (lastOr none t) (k ++ u)) (fuel + 1)
    rw [Text.clause?, hfound]
    refine hskip.trans ?_
    rw [clauseFrom?_word hruns hname hu (findIdx?_dividingWords hwords hk), Nat.zero_add]
    rfl

end Steps

/-! ## Sequential code -/

theorem Reference.ReadsBack.startsStatement {room : Nat} {r : Reference} (h : r.ReadsBack room)
    {u : Text} (hu : Closes u.head?) : StartsStatement (r.text ++ u) := by
  obtain ⟨n, ts, htokens⟩ := r.exists_tokens
  have hfit := h.isPhrase none u.head? rfl hu
  rw [htokens] at hfit
  rw [← r.render_tokens, htokens, render_cons, text_word, List.append_assoc]
  exact n.startsStatement (first_render hfit)

namespace Statement

variable {room : Nat} {s : Statement}

/-- A statement starts with a word that divides nothing. -/
theorem Readable.startsStatement (h : s.Readable room) (hcomment : s.isComment = false) :
    StartsStatement s.code := by
  cases s with
  | declaration d =>
    rw [show (declaration d).code = d.code from rfl, d.code_eq, List.append_assoc]
    refine ⟨d.objectClass.keyword.toList, _, rfl, d.objectClass.isName, rfl, ?_⟩
    cases d.objectClass <;> decide
  | assignment target kind value =>
    have htext : (assignment target kind value).code
        = target.text ++ ' ' :: (kind.symbol.toList ++ ' ' :: (value.text ++ [';'])) :=
      text_assignment target kind value
    rw [htext]
    exact h.1.startsStatement rfl
  | comment c => cases hcomment
  | null => exact ⟨"null".toList, [';'], rfl, by decide, rfl, by decide⟩
  | result value =>
    cases value with
    | none => exact ⟨"return".toList, [';'], rfl, by decide, rfl, by decide⟩
    | some value => exact ⟨"return".toList, _, rfl, by decide, rfl, by decide⟩

end Statement

namespace Sequential

variable {room : Nat} {s : Sequential} {words : List Text}

/-- An element starts with a word that divides nothing. -/
theorem Readable.startsStatement (h : s.Readable room) (helement : s.isElement = true) :
    StartsStatement s.code := by
  cases h with
  | simple h => exact h.startsStatement (by simpa [isElement] using helement)
  | conditional => exact ⟨"if".toList, _, text_conditional, by decide, rfl, by decide⟩
  | selection => exact ⟨"case".toList, _, text_selection, by decide, rfl, by decide⟩
  | loop => exact ⟨"for".toList, _, text_loop, by decide, rfl, by decide⟩
  | region => cases helement

/-- **The search for a dividing word goes over sequential code**, however its constructs are
nested. -/
theorem Readable.stepsOver (h : s.Readable room) (hwords : ∀ w ∈ words, w ∈ dividingWords) :
    StepsOver words s.text := by
  have helement : ∀ {s : Sequential}, s.Readable room → s.isElement = true →
      ∀ comment : Option Comment, (∀ c ∈ comment, c.IsOneLine) → s.text = s.code ++ remark comment →
        StepsOver words s.text := by
    intro s h he comment hcomment htext
    have hstatement := (h.stands he).isStatement (h.startsStatement he) 0
    rw [shift_zero] at hstatement
    rw [htext]
    exact stepsOver_statement hwords hstatement hcomment
  induction h with
  | @simple s hs =>
    cases s with
    | declaration d => exact helement (.simple hs) rfl d.comment hs.comment d.text_eq
    | comment c => exact stepsOver_comment hs
    | assignment | null | result => exact helement (.simple hs) rfl none nofun (List.append_nil _).symm
  | conditional hc hbody hrest =>
    exact helement (.conditional hc hbody hrest) rfl none nofun (List.append_nil _).symm
  | selection hs hchoices hbodies =>
    exact helement (.selection hs hchoices hbodies) rfl none nofun (List.append_nil _).symm
  | loop hr hbody => exact helement (.loop hr hbody) rfl none nofun (List.append_nil _).symm
  | region _ ih =>
    rw [text_eq_join]
    exact stepsOver_join (List.forall_mem_map.2 ih)

/-- **The search for a clause sees only its own level**: in sequential code it finds none of
its words, however many stand inside constructs and comments, and behind the code it finds
the word at the start of the next line. -/
theorem clause?_behind (h : s.Readable room) (hwords : ∀ w ∈ words, w ∈ dividingWords) :
    clause? words s.text = none ∧ ∀ k ∈ words, ∀ u : Text, u.head?.any isIdentChar = false →
      clause? words (s.text ++ '\n' :: (k ++ u)) = some (s.text.length + 1, words.idxOf k) :=
  (h.stepsOver hwords).clause? hwords

/-- A comment line ` else` and a conditional statement with an `else`. -/
def alternatives : Sequential :=
  .region [.simple (.comment ⟨" else".toList⟩),
    .conditional probeExpr (.simple .null) (some (.simple .null))]

theorem readable_alternatives : alternatives.Readable 1 := by
  have hcomment : Comment.IsOneLine ⟨" else".toList⟩ := ⟨by decide, by decide⟩
  have hconditional : (conditional probeExpr (.simple .null) (some (.simple .null))).Readable 1 :=
    .conditional (readsBack_probeExpr 0) (.simple trivial) fun s hs => by
      cases hs
      exact .simple trivial
  exact .region (List.forall_mem_cons.2 ⟨.simple hcomment, List.forall_mem_singleton.2 hconditional⟩)

theorem clause?_behind_alternatives :
    alternatives.text = "-- else\nif a then\n    null;\nelse\n    null;\nend if;".toList ∧
      clause? ["elsif".toList, "else".toList] alternatives.text = none ∧
      clause? ["elsif".toList, "else".toList] (alternatives.text ++ "\nelse\n    null;".toList)
        = some (51, 1) := by
  have hwords : ∀ w ∈ ["elsif".toList, "else".toList], w ∈ dividingWords := by decide
  obtain ⟨hnone, hbehind⟩ := clause?_behind readable_alternatives hwords
  exact ⟨by decide +kernel, hnone, hbehind "else".toList (by decide) "\n    null;".toList rfl⟩

end Sequential
end CanonicalVhdl
