import CanonicalVhdl.Proofs.Object.ReadBack
import CanonicalVhdl.Statement.Basic

/-!
# Simple statements that read back

## Main definitions

* `Statement.ReadsBack` — the parts of a statement read back, and it is not too long.
* `Statement.IsPlain` — a statement that only its own reader takes.
* `Statement.piece` — what a statement is in a region.

## Main statements

* `Statement.ReadsBack.shows` — what a statement looks like in a region.
* `Statement.ReadsBack.cases` — a statement is a declaration, a comment or plain.
-/

namespace CanonicalVhdl

open Text Token

/-! ## First words -/

/-- The words that a reader of statements looks for at the start of one. -/
def openingWords : List Text :=
  ["signal", "variable", "constant", "if", "case", "for"].map String.toList

theorem isReserved_openingWords : ∀ w ∈ dividingWords ++ openingWords ++ ["return".toList],
    isReserved w = true := by decide

theorem isRun_openingWords : ∀ w ∈ openingWords, IsRun w := by
  have key : ∀ w ∈ openingWords, w ≠ [] ∧ w.all isIdentChar = true := by decide
  exact fun w hw => ⟨(key w hw).1, (key w hw).2⟩

theorem ObjectClass.mem_openingWords (c : ObjectClass) : c.keyword.toList ∈ openingWords := by
  cases c <;> decide

/-- An identifier is no dividing word. -/
theorem Ident.not_mem_dividingWords (i : Ident) :
    dividingWords.contains (Text.fold i.text) = false := by
  rw [Bool.eq_false_iff]
  intro hmem
  have hmem := List.contains_iff_mem.1 hmem
  have hsame : sameWord i.text (Text.fold i.text) = true := by
    rw [sameWord_iff, fold_dividingWords _ hmem]
  rw [i.sameWord_eq_false (isReserved_openingWords _ (by simp [hmem]))] at hsame
  cases hsame

/-- A text whose first word starts neither a declaration nor a construct. -/
structure IsOpening (w : Text) : Prop where
  /-- The word is a name. -/
  isName : IsName w
  /-- The word divides nothing. -/
  not_dividing : dividingWords.contains (fold w) = false
  /-- The word starts neither a declaration nor a construct. -/
  not_opening : ∀ k ∈ openingWords, sameWord k w = false

theorem Ident.isOpening (i : Ident) : IsOpening i.text where
  isName := i.isName
  not_dividing := i.not_mem_dividingWords
  not_opening k hk := by
    rw [sameWord_comm]
    exact i.sameWord_eq_false (isReserved_openingWords k (by simp [hk]))

theorem IsOpening.startsWith {w u k : Text} (h : IsOpening w) (hu : u.head?.any isIdentChar = false)
    (hk : k ∈ openingWords) : Text.startsWith k (w ++ u) = false := by
  have := startsWith_run (g := []) rfl (isRun_openingWords k hk) h.isName.isRun hu
  rw [List.nil_append] at this
  rw [this, h.not_opening k hk]

/-- A reference starts with a name. -/
theorem Reference.exists_tokens (r : Reference) :
    ∃ (n : Ident) (ts : List Token), r.tokens = word n.text :: ts := by
  cases r <;> exact ⟨_, _, rfl⟩

namespace Statement

/-! ## Plain statements -/

/-- What a statement is in a region. -/
def piece : Statement → Piece
  | declaration d => .code d.code (d.comment.map (·.text))
  | comment c => .comment c.text
  | s => .code s.text none

theorem piece_eq_code {s : Statement} (hd : ∀ d, s ≠ .declaration d) (hc : ∀ c, s ≠ .comment c) :
    s.piece = .code s.text none := by
  cases s with
  | declaration d => exact absurd rfl (hd d)
  | comment c => exact absurd rfl (hc c)
  | _ => rfl

theorem text_assignment (target : Reference) (kind : AssignmentKind) (value : Expr) :
    (assignment target kind value).text
      = target.text ++ ' ' :: (kind.symbol.toList ++ ' ' :: (value.text ++ [';'])) := rfl

theorem text_result (value : Expr) :
    (result (some value)).text = "return ".toList ++ value.text ++ [';'] := rfl

/-- A statement that is neither a declaration nor a comment line. -/
structure IsPlain (room : Nat) (s : Statement) : Prop where
  /-- The text is one piece without a comment behind it. -/
  piece_eq : s.piece = .code s.text none
  /-- The text is one statement. -/
  isStatement : IsStatement true s.text
  /-- The text is one line. -/
  newline_not_mem : '\n' ∉ s.text
  /-- The first word starts nothing else. -/
  startsWith : ∀ k ∈ openingWords, Text.startsWith k s.text = false
  /-- The reader returns the statement. -/
  read_text : Statement.read room s.text = some s

/-- A reader of statements takes off the semicolon. -/
theorem read_render {room : Nat} {w : Text} {ts : List Token} (hphrase : IsPhrase (word w :: ts))
    (hw : IsOpening w) (hstatement : IsStatement true (render (word w :: ts) ++ [';']))
    (hsolid : Solid (render (word w :: ts)))
    (hfits : fits Limits.statementBytes (render (word w :: ts) ++ [';']) = true) :
    Statement.read room (render (word w :: ts) ++ [';']) = readBody room (render (word w :: ts)) := by
  have hfit : FitAll none (word w :: ts ++ [mark ';']) none :=
    fitAll_append.2 ⟨hphrase _ _ rfl rfl, fits_separator (by decide), trivial⟩
  have hcode := withoutComments_render hfit
  rw [render_append, render_cons (mark ';'), text_mark, render_nil, List.append_nil] at hcode
  have htrim := trim_eq_self hstatement.solid.toTrimmed
  have hcomment : Comment.read (render (word w :: ts) ++ [';']) = none := by
    obtain ⟨c, r, hcons, hc⟩ := hstatement.exists_cons
    rw [Comment.read, htrim, hfits, hcons]
    have hne : c ≠ '-' := by
      rintro rfl
      exact absurd hc (by decide)
    simp [hne]
  have hobject : ObjectDecl.read room (render (word w :: ts) ++ [';']) = none := by
    have hnone : ObjectClass.ofDeclaration? (render (word w :: ts) ++ [';']) = none := by
      have hu : (render ts ++ [';']).head?.any isIdentChar = false :=
        first_render (hphrase none (some ';') rfl rfl)
      simp only [ObjectClass.ofDeclaration?, List.find?_eq_none, render_cons, text_word,
        List.append_assoc]
      intro c _
      rw [hw.startsWith hu c.mem_openingWords]
      decide
    rw [ObjectDecl.read, trimStart_eq_self hstatement.solid.head, hnone]
    rfl
  simp only [Statement.read, htrim, hfits, hcomment, hobject, hcode, hstatement.isConstruct,
    Bool.not_true, Bool.false_eq_true, if_false, dropFinal?_append, Option.bind_eq_bind,
    Option.bind_some, trimEnd_eq_self hsolid.last]

/-- Statements without a part in the structure are plain if their bodies read back. -/
theorem isPlain_render {room : Nat} {s : Statement} {w : Text} {ts : List Token}
    (hpiece : s.piece = .code s.text none) (htext : s.text = render (word w :: ts) ++ [';']) (hphrase : IsPhrase (word w :: ts))
    (hw : IsOpening w) (hinert : ∀ t ∈ word w :: ts, Nesting.isInert t = true)
    (hsolid : Solid (render (word w :: ts))) (hline : '\n' ∉ render (word w :: ts))
    (hfits : fits Limits.statementBytes s.text = true)
    (hbody : readBody room (render (word w :: ts)) = some s) : s.IsPlain room := by
  have hstatement := isStatement_inert hphrase hw.isName hw.not_dividing hinert
  have hu : (render ts ++ [';']).head?.any isIdentChar = false :=
    first_render (hphrase none (some ';') rfl rfl)
  rw [htext] at hfits
  refine ⟨hpiece, ?_, ?_, ?_, ?_⟩ <;> rw [htext]
  · exact hstatement
  · simp only [List.mem_append, List.mem_singleton, not_or]
    exact ⟨hline, by decide⟩
  · intro k hk
    rw [render_cons, text_word, List.append_assoc]
    exact hw.startsWith hu hk
  · rw [read_render hphrase hw hstatement hsolid hfits, hbody]

end Statement

/-! ## Assignments -/

section Assignment

variable {room : Nat} {target : Reference} {value : Expr} (kind : AssignmentKind)

theorem AssignmentKind.isPattern : IsPattern kind.symbol.toList := by
  cases kind <;> exact .inr (by decide)

theorem AssignmentKind.isConnective : isConnective kind.symbol.toList = true := by
  cases kind <;> decide

theorem AssignmentKind.isInert : ∀ t ∈ spaced kind.symbol.toList, Nesting.isInert t = true := by
  cases kind <;> decide

/-- Outside the parentheses of a reference no operator stands. -/
theorem Reference.lacks_assignment (r : Reference) : Lacks kind.symbol.toList r.tokens := by
  cases kind <;> cases r <;> simp [Lacks, Reference.tokens, spells, AssignmentKind.symbol]

/-- The first mark of an assignment is the one after its target. -/
theorem firstAssignment?_text (htarget : target.ReadsBack room) (hvalue : value.ReadsBack room) :
    firstAssignment? (target.text ++ ' ' :: (kind.symbol.toList ++ ' ' :: value.text))
      = some (target.text.length + 1, kind) := by
  have htokens : render (target.tokens ++ (spaced kind.symbol.toList ++ value.tokens))
      = target.text ++ ' ' :: (kind.symbol.toList ++ ' ' :: value.text) := by
    simp [Reference.render_tokens, Expr.render_tokens]
  have hphrase := htarget.isPhrase.spaced hvalue.isPhrase kind.isConnective
  have hfit : FitAll none (target.tokens ++ [mark ' '] ++ [connective kind.symbol.toList])
      (' ' :: value.text).head? := by
    rw [fitAll_append, fitAll_append]
    refine ⟨⟨htarget.isPhrase _ _ rfl rfl, fits_blank, trivial⟩, ?_, trivial⟩
    simpa [firstOr] using fits_connective kind.isConnective
  have hblank : ∀ k : AssignmentKind, Lacks k.symbol.toList [mark ' '] := fun k => by
    cases k <;> decide
  have hfound := outerMatch?_token kind.isPattern hfit
    (lacks_append.2 ⟨target.lacks_assignment kind, hblank kind⟩) spells_connective
  rw [render_append, render_cons, text_mark, render_nil, List.append_nil, Reference.render_tokens,
    text_connective, List.length_append, List.length_singleton, List.append_assoc,
    List.append_assoc, List.singleton_append] at hfound
  cases kind with
  | signal =>
    have hnone : outerMatch? ":=".toList
        (target.text ++ ' ' :: ("<=".toList ++ ' ' :: value.text)) = none := by
      have hlacks : Lacks ":=".toList (target.tokens ++ (spaced "<=".toList ++ value.tokens)) :=
        lacks_append.2 ⟨target.lacks_assignment .var,
          lacks_append.2 ⟨by decide, lacks_of_isCalm (by decide) hvalue.isCalm⟩⟩
      rw [AssignmentKind.symbol] at htokens hphrase
      rw [outerMatch?_eq_head?, ← htokens,
        outerMatches_eq_nil (.inr (by decide)) (hphrase _ _ rfl rfl) hlacks]
      rfl
    simp only [firstAssignment?, AssignmentKind.symbol] at hfound hnone ⊢
    rw [hfound, hnone]
  | var =>
    -- A comparison in the value may be written like the other kind of assignment.
    have hlacks : Lacks "<=".toList (target.tokens ++ spaced ":=".toList) :=
      lacks_append.2 ⟨target.lacks_assignment .signal, by decide⟩
    have hlater : ∀ i, outerMatch? "<=".toList
        (target.text ++ ' ' :: (":=".toList ++ ' ' :: value.text)) = some i →
          target.text.length + 1 ≤ i := by
      intro i hi
      rw [AssignmentKind.symbol] at htokens hphrase
      rw [← htokens, ← List.append_assoc] at hi
      rw [← List.append_assoc] at hphrase
      have := le_outerMatch? (.inr (by decide)) (hphrase _ _ rfl rfl) hlacks hi
      rw [render_append, Reference.render_tokens, render_spaced, List.length_append,
        List.length_cons] at this
      omega
    rw [AssignmentKind.symbol] at hfound ⊢
    rw [firstAssignment?, hfound]
    cases hless : outerMatch? "<=".toList
        (target.text ++ ' ' :: (":=".toList ++ ' ' :: value.text)) with
    | none => rfl
    | some i => simp only [if_neg (Nat.not_lt.2 (hlater i hless))]

/-- **An assignment is read from its body.** -/
theorem Statement.readBody_assignment (htarget : target.ReadsBack room)
    (hvalue : value.ReadsBack room) :
    Statement.readBody room (target.text ++ ' ' :: (kind.symbol.toList ++ ' ' :: value.text))
      = some (.assignment target kind value) := by
  obtain ⟨n, ts, htokens⟩ := target.exists_tokens
  have htext : target.text ++ ' ' :: (kind.symbol.toList ++ ' ' :: value.text)
      = n.text ++ (render ts ++ ' ' :: (kind.symbol.toList ++ ' ' :: value.text)) := by
    rw [← target.render_tokens, htokens, render_cons, text_word, List.append_assoc]
  have hu : (render ts ++ ' ' :: (kind.symbol.toList ++ ' ' :: value.text)).head?.any isIdentChar
      = false := by
    have hfit := htarget.isPhrase none (some ' ') rfl rfl
    rw [htokens] at hfit
    exact first_render (u := ' ' :: (kind.symbol.toList ++ ' ' :: value.text)) hfit
  have hnull : sameWord (target.text ++ ' ' :: (kind.symbol.toList ++ ' ' :: value.text))
      "null".toList = false := by
    rw [Bool.eq_false_iff]
    intro hsame
    have hall := (show IsName "null".toList from ⟨by decide, by decide⟩).of_sameWord hsame
    have := List.all_eq_true.1 hall.ident ' ' (by simp)
    exact absurd this (by decide)
  have hreturn : afterWord? "return".toList
      (target.text ++ ' ' :: (kind.symbol.toList ++ ' ' :: value.text)) = none := by
    have := afterWord?_run (g := []) (w := "return".toList) rfl ⟨by decide, by decide⟩ n.isRun hu
    rw [List.nil_append, sameWord_comm,
      n.sameWord_eq_false (isReserved_openingWords _ (by decide))] at this
    rw [htext, this]
    rfl
  have hlength : kind.symbol.toList.length = 2 := by cases kind <;> rfl
  obtain ⟨hleft, hright⟩ := Text.Reads.sides (s := kind.symbol.toList) htarget.reads hvalue.reads
  rw [hlength] at hright
  simp only [Statement.readBody, hnull, hreturn, firstAssignment?_text kind htarget hvalue, hleft,
    hright, Bool.false_eq_true, if_false, Option.bind_eq_bind, Option.bind_some]

end Assignment

/-! ## Statements -/

namespace Statement

theorem isOpening_words : ∀ w ∈ ["null".toList, "return".toList], IsOpening w := by
  have key : ∀ w ∈ ["null".toList, "return".toList], w.head?.any Char.isAlpha = true
      ∧ w.all isIdentChar = true ∧ dividingWords.contains (Text.fold w) = false
      ∧ ∀ k ∈ openingWords, sameWord k w = false := by decide
  intro w hw
  obtain ⟨hhead, hident, hdividing, hopening⟩ := key w hw
  exact ⟨⟨hhead, hident⟩, hdividing, hopening⟩

section Plain

variable {room : Nat}

theorem isPlain_assignment {target : Reference} {kind : AssignmentKind} {value : Expr}
    (htarget : target.ReadsBack room) (hvalue : value.ReadsBack room)
    (hfits : fits Limits.statementBytes (Statement.assignment target kind value).text = true) :
    (Statement.assignment target kind value).IsPlain room := by
  obtain ⟨n, ts, htokens⟩ := target.exists_tokens
  have hrender : render (word n.text :: (ts ++ (spaced kind.symbol.toList ++ value.tokens)))
      = target.text ++ ' ' :: (kind.symbol.toList ++ ' ' :: value.text) := by
    rw [← List.cons_append, ← htokens]
    simp [Reference.render_tokens, Expr.render_tokens]
  have hphrase := htarget.isPhrase.spaced hvalue.isPhrase kind.isConnective
  rw [htokens, List.cons_append] at hphrase
  have htext : (Statement.assignment target kind value).text
      = render (word n.text :: (ts ++ (spaced kind.symbol.toList ++ value.tokens))) ++ [';'] := by
    rw [hrender, text_assignment]
    simp only [List.append_assoc, List.cons_append]
  refine isPlain_render (piece_eq_code (by simp) (by simp)) htext hphrase n.isOpening ?_ ?_ ?_ hfits ?_
  · intro t ht
    rw [← List.cons_append, ← htokens] at ht
    rcases List.mem_append.1 ht with ht | ht
    · exact htarget.isInert t ht
    · rcases List.mem_append.1 ht with ht | ht
      · exact kind.isInert t ht
      · exact hvalue.isInert t ht
  · rw [hrender]
    have := htarget.solid.between hvalue.solid (' ' :: (kind.symbol.toList ++ [' ']))
    simpa using this
  · rw [hrender]
    have hsymbol : '\n' ∉ kind.symbol.toList := by cases kind <;> decide
    simp only [List.mem_append, List.mem_cons, not_or]
    exact ⟨htarget.newline_not_mem, by decide, hsymbol, by decide, hvalue.newline_not_mem⟩
  · rw [hrender]
    exact readBody_assignment kind htarget hvalue

theorem isPlain_null : Statement.null.IsPlain room := by
  have htext : Statement.null.text = render [word "null".toList] ++ [';'] := by decide
  have hline : '\n' ∉ render [word "null".toList] := by decide
  have hinert : ∀ t ∈ [word "null".toList], Nesting.isInert t = true := by decide
  have hsame : sameWord (render [word "null".toList]) "null".toList = true := by decide
  refine isPlain_render (piece_eq_code (by simp) (by simp)) htext (isPhrase_word (isOpening_words _ (by decide)).isName)
    (isOpening_words _ (by decide)) hinert ?_ hline (by decide) ?_
  · exact (isOpening_words "null".toList (by decide)).isName.isRun.solid
  · rw [readBody, hsame]
    rfl

theorem isPlain_noResult : (Statement.result none).IsPlain room := by
  have htext : (Statement.result none).text = render [word "return".toList] ++ [';'] := by decide
  have hline : '\n' ∉ render [word "return".toList] := by decide
  have hinert : ∀ t ∈ [word "return".toList], Nesting.isInert t = true := by decide
  have hsame : sameWord (render [word "return".toList]) "null".toList = false := by decide
  have hafter : afterWord? "return".toList (render [word "return".toList]) = some [] := by decide
  refine isPlain_render (piece_eq_code (by simp) (by simp)) htext (isPhrase_word (isOpening_words _ (by decide)).isName)
    (isOpening_words _ (by decide)) hinert ?_ hline (by decide) ?_
  · exact (isOpening_words "return".toList (by decide)).isName.isRun.solid
  · rw [readBody, hsame, hafter]
    rfl

theorem isPlain_result {value : Expr} (hvalue : value.ReadsBack room)
    (hfits : fits Limits.statementBytes (Statement.result (some value)).text = true) :
    (Statement.result (some value)).IsPlain room := by
  have hopening := isOpening_words "return".toList (by decide)
  have hword : "return ".toList = "return".toList ++ [' '] := rfl
  have hnull : ∀ u, sameWord ("return".toList ++ ' ' :: u) "null".toList = false := by
    intro u
    rw [Bool.eq_false_iff]
    intro hsame
    have hlength := length_eq_of_sameWord hsame
    simp at hlength
  have hinert : Nesting.isInert (word "return".toList) = true := by decide
  have hnewline : '\n' ∉ "return".toList := by decide
  have htext : (Statement.result (some value)).text = "return".toList ++ ' ' :: value.text ++ [';'] := by
    rw [text_result, hword]
    simp only [List.append_assoc, List.singleton_append]
  have hrender : render (word "return".toList :: mark ' ' :: value.tokens)
      = "return".toList ++ ' ' :: value.text := by
    rw [render_cons, render_cons, text_word, text_mark, Expr.render_tokens, List.singleton_append]
  have hafter := afterWord?_blank hopening.isName.isRun hvalue.solid.head
  have hempty : value.text.isEmpty = false := by simpa using hvalue.solid.ne_nil
  have hbody : readBody room ("return".toList ++ ' ' :: value.text) = some (.result (some value)) := by
    rw [readBody, hnull, hafter]
    simp only [hempty, Bool.false_eq_true, if_false, hvalue.read_text, Option.map_some]
  have hsolid := hopening.isName.isRun.solid.between hvalue.solid [' ']
  generalize "return".toList = w at *
  refine isPlain_render (piece_eq_code (by simp) (by simp)) (by rw [htext, hrender])
    (hvalue.isPhrase.prefixed hopening.isName) hopening ?_ ?_ ?_ hfits ?_
  · intro t ht
    simp only [List.mem_cons] at ht
    rcases ht with rfl | rfl | ht
    · exact hinert
    · rfl
    · exact hvalue.isInert t ht
  · rw [hrender]
    exact hsolid
  · rw [hrender]
    simp only [List.mem_append, List.mem_cons, not_or]
    exact ⟨hnewline, by decide, hvalue.newline_not_mem⟩
  · rw [hrender, hbody]

end Plain

/-- Whether the parts of a statement read back, and it is not too long. -/
inductive ReadsBack (room : Nat) : Statement → Prop
  | declaration {d : ObjectDecl} : d.ReadsBack room → ReadsBack room (.declaration d)
  | assignment {target : Reference} {kind : AssignmentKind} {value : Expr} :
    target.ReadsBack room → value.ReadsBack room →
    fits Limits.statementBytes (Statement.assignment target kind value).text = true →
    ReadsBack room (.assignment target kind value)
  | comment {c : Comment} : IsCommentText c.text → ReadsBack room (.comment c)
  | null : ReadsBack room .null
  | noResult : ReadsBack room (.result none)
  | result {value : Expr} : value.ReadsBack room →
    fits Limits.statementBytes (Statement.result (some value)).text = true →
    ReadsBack room (.result (some value))

/-- A statement is a declaration, a comment line or plain. -/
theorem ReadsBack.cases {room : Nat} {s : Statement} (h : s.ReadsBack room) :
    (∃ d, s = .declaration d ∧ d.ReadsBack room) ∨ (∃ c, s = .comment c ∧ IsCommentText c.text)
      ∨ s.IsPlain room := by
  cases h with
  | declaration h => exact .inl ⟨_, rfl, h⟩
  | comment h => exact .inr (.inl ⟨_, rfl, h⟩)
  | assignment htarget hvalue hfits => exact .inr (.inr (isPlain_assignment htarget hvalue hfits))
  | null => exact .inr (.inr isPlain_null)
  | noResult => exact .inr (.inr isPlain_noResult)
  | result hvalue hfits => exact .inr (.inr (isPlain_result hvalue hfits))

variable {room : Nat} {s : Statement}

/-- What a statement looks like in a region. -/
theorem ReadsBack.shows (h : s.ReadsBack room) : Shows true s.piece s.text := by
  rcases h.cases with ⟨d, rfl, hd⟩ | ⟨c, rfl, hc⟩ | hs
  · exact hd.shows
  · exact .comment hc
  · rw [hs.piece_eq]
    exact .code hs.isStatement

theorem ReadsBack.newline_not_mem (h : s.ReadsBack room) : '\n' ∉ s.text := by
  rcases h.cases with ⟨d, rfl, hd⟩ | ⟨c, rfl, hc⟩ | hs
  · exact hd.newline_not_mem_text
  · have htext : (Statement.comment c).text = '-' :: '-' :: c.text := rfl
    rw [htext, List.mem_cons, List.mem_cons, not_or, not_or]
    exact ⟨by decide, by decide, hc.newline_not_mem⟩
  · exact hs.newline_not_mem

end Statement
end CanonicalVhdl
