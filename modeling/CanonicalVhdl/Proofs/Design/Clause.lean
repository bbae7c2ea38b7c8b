import CanonicalVhdl.Design.Interface
import CanonicalVhdl.Proofs.Region.Header
import CanonicalVhdl.Proofs.Token.Remark

/-!
# Clauses between parentheses

The entries of a port or generic clause stand on lines of their own, a semicolon after
each but the last, and a comment behind the semicolon or, on the last line, behind the
code.  Cutting the interior at its semicolons puts the comment of an entry at the head of
the piece after it; the reader masks it there and gives it back to the entry before.

## Main definitions

* `Text.IsPassed` — code that searches pass over in front of what ends it.
* `ListEntry.IsLaid` — an entry is made of tokens, with a comment of one line.
* `ListEntry.IsSound` — an entry has code that searches pass over.
* `ListEntry.interior`, `ListEntry.clause` — a clause inside `k` steps of indentation.
* `ListEntry.piecesAfter` — the pieces between the semicolons.

## Main statements

* `ListEntry.split?_interior` — the entries are read from the interior.
* `ListEntry.interior?_clause` — the interior is read from the clause.
* `ListEntry.isStatement_clause` — a clause is one statement.
-/

namespace CanonicalVhdl

open Text Token

theorem IsRemark.solid {t : Text} (ht : Solid t) {comment : Option Comment}
    (h : IsRemark comment) : Solid (t ++ remark comment) := by
  cases comment with
  | none => rwa [remark, List.append_nil]
  | some c => exact ht.between (h c rfl).solid_line [' ']

/-! ## Code that searches pass over -/

namespace Text

/-- Whether a text may follow the code of an entry: a semicolon, the blank before a comment or the
end of the line comes first, if anything does. -/
def EndsCode (u : Text) : Prop :=
  ∀ c ∈ u.head?, c ∈ [';', ' ', '\n']

theorem endsCode_nil : EndsCode [] :=
  fun _ h => absurd h (Option.not_mem_none _)

theorem endsCode_semicolon (u : Text) : EndsCode (';' :: u) := by
  simp [EndsCode]

theorem EndsCode.closes {u : Text} (h : EndsCode u) : Closes u.head? := by
  cases u with
  | nil => rfl
  | cons c u =>
    have hkind : ∀ c ∈ [';', ' ', '\n'], Closes (some c) := by
      simp only [Closes]
      decide
    exact hkind c (h c rfl)

/-- Code that searches pass over where an entry may stand: the code closes its parentheses and its
literals, and has neither comments nor semicolons of its own. -/
structure IsPassed (t : Text) : Prop where
  /-- The search for a closing parenthesis passes over the code. -/
  closeFrom_eq : ∀ (start count position depth : Nat) {before : Option Char} {u : Text},
    Opens before → EndsCode u →
      closeFrom (some (start, count + 1)) position depth before (t ++ u)
        = closeFrom (some (start, count + 1)) (position + t.length) depth (lastOr before t) u
  /-- The search for semicolons passes over the code. -/
  hitsFrom_eq : ∀ (position : Nat) {before : Option Char} {u : Text}, Opens before → EndsCode u →
    hitsFrom [[';']] position 0 before (t ++ u)
      = hitsFrom [[';']] (position + t.length) 0 (lastOr before t) u
  /-- Masking comments leaves the code. -/
  maskFrom_eq : ∀ {before : Option Char} {u : Text}, Opens before → EndsCode u →
    maskFrom [] false 0 before (t ++ u) = t ++ maskFrom [] false 0 (lastOr before t) u

theorem isPattern_semicolon : ∀ p ∈ [[';']], IsPattern p :=
  patterns_single (.inr (by decide : [';'] ∈ symbolPatterns))

/-- Tokens are passed over. -/
theorem isPassed_render {ts : List Token} (h : IsPhrase ts) (hlacks : Lacks [';'] ts) :
    IsPassed (render ts) where
  closeFrom_eq start count position depth before u hbefore hu :=
    closeFrom_innerAll ts u start count position depth before (h _ _ hbefore hu.closes)
  hitsFrom_eq position before u hbefore hu := by
    rw [hitsFrom_render isPattern_semicolon (h _ _ hbefore hu.closes), hits_eq_nil hlacks,
      List.nil_append]
  maskFrom_eq hbefore hu := maskFrom_tokens ts _ _ (h _ _ hbefore hu.closes)

theorem isPassed_nil : IsPassed [] :=
  isPassed_render isPhrase_nil fun _ h => absurd h List.not_mem_nil

end Text

/-- The code of an entry ends before its comment. -/
theorem endsCode_remark (comment : Option Comment) {u : Text} (hu : AtLineEnd u) :
    EndsCode (remark comment ++ u) := by
  cases comment with
  | none =>
    obtain rfl | ⟨v, rfl⟩ := hu.cases
    · exact endsCode_nil
    · simp [EndsCode, remark]
  | some c => simp [EndsCode, remark]

namespace ListEntry

/-- An entry is made of tokens without a semicolon outside parentheses, on one line, with a
comment of one line. -/
structure IsLaid (ts : List Token) (e : ListEntry) : Prop where
  /-- The code is made of the tokens. -/
  code_eq : e.code = render ts
  /-- The tokens keep apart from their surroundings. -/
  isPhrase : IsPhrase ts
  /-- No semicolon stands outside parentheses. -/
  lacks : Lacks [';'] ts
  /-- There is code, without blanks at its ends. -/
  solid : Solid e.code
  /-- The code is one line. -/
  newline_not_mem : '\n' ∉ e.code
  /-- The comment is one line. -/
  isRemark : IsRemark e.comment

/-- Whether every entry of a list is made of tokens. -/
def AreLaid (es : List ListEntry) : Prop :=
  ∀ e ∈ es, ∃ ts, e.IsLaid ts

/-- An entry has code on one line that searches pass over, and a comment of one line. -/
structure IsSound (e : ListEntry) : Prop where
  /-- Searches pass over the code. -/
  isPassed : IsPassed e.code
  /-- There is code, without blanks at its ends. -/
  solid : Solid e.code
  /-- The code is one line. -/
  newline_not_mem : '\n' ∉ e.code
  /-- The comment is one line. -/
  isRemark : IsRemark e.comment

theorem IsLaid.isSound {ts : List Token} {e : ListEntry} (h : e.IsLaid ts) : e.IsSound where
  isPassed := h.code_eq ▸ isPassed_render h.isPhrase h.lacks
  solid := h.solid
  newline_not_mem := h.newline_not_mem
  isRemark := h.isRemark

theorem AreLaid.isSound {es : List ListEntry} (h : AreLaid es) : ∀ e ∈ es, e.IsSound := by
  intro e he
  obtain ⟨ts, hts⟩ := h e he
  exact hts.isSound

theorem lines_cons_cons (e f : ListEntry) (es : List ListEntry) :
    lines (e :: f :: es) = (e.code ++ ';' :: remark e.comment) :: lines (f :: es) := by
  rw [lines, Comment.append_eq, List.append_assoc]
  · rfl
  · exact List.cons_ne_nil f es

theorem lines_single (e : ListEntry) : lines [e] = [e.code ++ remark e.comment] := by
  rw [lines, Comment.append_eq]

/-- A line of a clause is the code of an entry, perhaps with a semicolon, and its comment. -/
theorem forall_mem_lines {P : Text → Prop} {es : List ListEntry}
    (hlast : ∀ e ∈ es, P (e.code ++ remark e.comment))
    (h : ∀ e ∈ es, P (e.code ++ ';' :: remark e.comment)) : ∀ l ∈ lines es, P l := by
  induction es with
  | nil => exact fun _ h => absurd h List.not_mem_nil
  | cons e es ih =>
    obtain ⟨he, hes⟩ := List.forall_mem_cons.1 h
    obtain ⟨helast, heslast⟩ := List.forall_mem_cons.1 hlast
    cases es with
    | nil =>
      rw [lines_single]
      exact List.forall_mem_singleton.2 helast
    | cons f es =>
      rw [lines_cons_cons]
      exact List.forall_mem_cons.2 ⟨he, ih heslast hes⟩

/-- The lines of a clause are tokens with comments behind them. -/
theorem AreLaid.isCommented {es : List ListEntry} (h : AreLaid es) : ∀ l ∈ lines es, IsCommented l := by
  refine forall_mem_lines (fun e he => ?_) fun e he => ?_ <;> obtain ⟨ts, he⟩ := h e he
  · exact ⟨ts, e.comment, he.isPhrase, he.isRemark, by rw [he.code_eq]⟩
  · refine ⟨ts ++ [mark ';'], e.comment, fun before next hb _ => ?_, he.isRemark, ?_⟩
    · exact fitAll_append.2 ⟨he.isPhrase before _ hb rfl, fits_separator (by decide), trivial⟩
    · rw [render_append, render_cons, render_nil, text_mark, List.append_assoc, he.code_eq]
      rfl

theorem isLine_lines {es : List ListEntry} (h : ∀ e ∈ es, e.IsSound) : ∀ l ∈ lines es, IsLine l := by
  refine forall_mem_lines (fun e he => ?_) fun e he => ?_ <;> replace he := h e he
  · refine isLine_of_solid (he.isRemark.solid he.solid) ?_
    simp [he.newline_not_mem, he.isRemark.newline_not_mem]
  · have hsemicolon : Solid (e.code ++ [';']) := he.solid.between (solid_singleton (by decide)) []
    have hline := he.isRemark.solid hsemicolon
    rw [List.append_assoc, List.singleton_append] at hline
    refine isLine_of_solid hline ?_
    simp [he.newline_not_mem, he.isRemark.newline_not_mem]

/-! ## The text of a clause -/

/-- What stands between the parentheses of a clause. -/
def interior (k : Nat) (es : List ListEntry) : Text :=
  stack (k + 1) (lines es) ++ lineBreak k

/-- A clause inside `k` steps of indentation. -/
def clause (keyword : Text) (k : Nat) (es : List ListEntry) : Text :=
  keyword ++ ' ' :: '(' :: (interior k es ++ [')', ';'])

theorem lines_ne_nil {es : List ListEntry} (h : es ≠ []) : lines es ≠ [] := by
  match es with
  | [] => exact absurd rfl h
  | [e] => rw [lines_single]; exact List.cons_ne_nil _ _
  | e :: f :: es => rw [lines_cons_cons]; exact List.cons_ne_nil _ _

theorem clauseText_eq (keyword : Text) {es : List ListEntry} (h : ∀ e ∈ es, e.IsSound) (hne : es ≠ []) :
    clauseText keyword es
      = keyword ++ " (".toList ++ nested (join ['\n'] (lines es)) ++ ('\n' :: ");".toList) := by
  have hjoin : (join ['\n'] (lines es)).isEmpty = false := by
    simpa using (isLined_join (lines_ne_nil hne) fun l hl => (isLine_lines h l hl).isLined).ne_nil
  rw [clauseText, nested, hjoin]
  simp

/-- A clause is made of lines. -/
theorem isLined_clauseText {keyword : Text} (hkeyword : IsRun keyword) {es : List ListEntry}
    (h : ∀ e ∈ es, e.IsSound) (hne : es ≠ []) : IsLined (clauseText keyword es) := by
  have hopen : IsLine (keyword ++ " (".toList) := by
    refine isLine_of_solid (hkeyword.solid.between (solid_singleton (by decide)) [' ']) ?_
    rw [List.mem_append, not_or]
    exact ⟨hkeyword.not_mem (by decide), by decide⟩
  have hclose : IsLine ");".toList :=
    isLine_of_solid (solid_of_forall (by decide) (by decide)) (by decide)
  rw [clauseText_eq keyword h hne]
  exact (hopen.isLined.append_tail (isTail_nested (.inr (isLined_join (lines_ne_nil hne) fun l hl =>
    (isLine_lines h l hl).isLined)))).append_tail hclose.isLined.tail

theorem shift_clauseText {keyword : Text} (hkeyword : '\n' ∉ keyword) {es : List ListEntry}
    (h : ∀ e ∈ es, e.IsSound) (hne : es ≠ []) (k : Nat) :
    shift k (clauseText keyword es) = clause keyword k es := by
  have hlined : ∀ l ∈ lines es, IsLined l := fun l hl => (isLine_lines h l hl).isLined
  have hlines : (lines es).map (shift (k + 1)) = lines es := by
    rw [List.map_congr_left fun l hl => shift_of_not_mem (isLine_lines h l hl).newline_not_mem (k + 1),
      List.map_id']
  have hopen : '\n' ∉ " (".toList := by decide
  have hclose : shift k ('\n' :: ");".toList) = lineBreak k ++ ");".toList := by
    have hbreak : '\n' :: ");".toList = lineBreak 0 ++ ");".toList := rfl
    rw [hbreak, shift_append, shift_of_not_mem (by decide : '\n' ∉ ");".toList), shift_lineBreak,
      Nat.add_zero]
  rw [clauseText_eq keyword h hne, shift_append, shift_append, shift_append, shift_of_not_mem hkeyword,
    shift_of_not_mem hopen, shift_nested hlined, hlines, hclose, clause, interior]
  simp

/-! ## Reading a clause -/

/-- The search for the closing parenthesis passes over the lines of a clause. -/
theorem closeFrom_lines {es : List ListEntry} (h : ∀ e ∈ es, e.IsSound) (start count depth : Nat) :
    ∀ l ∈ lines es, ∀ u position before, Opens before → AtLineEnd u →
      closeFrom (some (start, count + 1)) position depth before (l ++ u)
        = closeFrom (some (start, count + 1)) (position + l.length) depth (lastOr before l) u := by
  refine forall_mem_lines (fun e he => ?_) fun e he => ?_ <;> replace he := h e he <;>
    intro u position before hbefore hu
  · rw [List.append_assoc, he.isPassed.closeFrom_eq _ _ _ _ hbefore (endsCode_remark _ hu),
      closeFrom_remark he.isRemark hu, lastOr_append, List.length_append, Nat.add_assoc]
  · have hmark : Lexeme.at (lastOr before e.code) (';' :: (remark e.comment ++ u)) = .code :=
      at_code (by decide) (fun h => absurd h (by decide)) (fun h => absurd h (by decide))
    rw [List.append_assoc, List.cons_append,
      he.isPassed.closeFrom_eq _ _ _ _ hbefore (endsCode_semicolon _),
      closeFrom_code _ _ _ hmark (by decide) (by decide), closeFrom_remark he.isRemark hu, lastOr_append,
      lastOr_cons, List.length_append, List.length_cons]
    congr 1
    omega

/-- The interior is read from the clause. -/
theorem interior?_clause {keyword : Text} (hkeyword : IsRun keyword) {es : List ListEntry}
    (h : ∀ e ∈ es, e.IsSound) (k : Nat) :
    interior? keyword (clause keyword k es) = some (interior k es) := by
  have hgroup : closeFrom none 0 0 none ('(' :: (interior k es ++ [')', ';']))
      = some (some (0, (interior k es).length + 2)) := by
    have hbreak : ∀ k u position before, closeFrom (some (0, 1)) position 1 before (lineBreak k ++ u)
        = closeFrom (some (0, 1)) (position + (lineBreak k).length) 1 (lastOr before (lineBreak k)) u := by
      intro k u position before
      have := closeFrom_innerAll (pad (lineBreak k)) u 0 0 position 1 before (isPad_lineBreak k).fitAll
      rwa [render_pad] at this
    have hstack := scan_stack (F := fun position => closeFrom (some (0, 1)) position 1) hbreak
      (closeFrom_lines h 0 0 1) (k + 1) (atLineEnd_lineBreak k [')', ';']) 1 (some '(')
    rw [interior, List.append_assoc, closeFrom, codePointsFrom_code _ _ (at_open _)]
    show closeFrom (some (0, 1)) 1 1 (some '(') _ = _
    rw [hstack, hbreak, closeFrom, codePointsFrom_code _ _ (at_close _)]
    show some (some (0, _ + 1)) = _
    simp only [List.length_append]
    congr 3
    omega
  have hspan : balancedSpan? '(' ')' ('(' :: (interior k es ++ [')', ';']))
      = some (0, (interior k es).length + 2) := by
    rw [balancedSpan?, codePoints, ← closeFrom, hgroup]
    rfl
  have hparens : parenthesised? ('(' :: (interior k es ++ [')', ';']))
      = some (interior k es, [';']) := by
    have hstop : (interior k es).length + 2 - 1 = (interior k es).length + 1 := rfl
    rw [parenthesised?, hspan]
    simp [hstop]
  have hafter := @afterWord?_blank keyword ('(' :: (interior k es ++ [')', ';'])) hkeyword rfl
  rw [interior?, clause, hafter, Option.bind_eq_bind, Option.bind_some, hparens]
  rfl

/-- The pieces between the semicolons of a clause, after an entry with a comment. -/
def piecesAfter (k : Nat) (comment : Option Comment) : List ListEntry → List Text
  | [] => []
  | [e] => [remark comment ++ (lineBreak (k + 1) ++ (e.code ++ (remark e.comment ++ lineBreak k)))]
  | e :: es => (remark comment ++ (lineBreak (k + 1) ++ e.code)) :: piecesAfter k e.comment es

theorem piecesAfter_cons_cons (k : Nat) (comment : Option Comment) (e f : ListEntry)
    (es : List ListEntry) :
    piecesAfter k comment (e :: f :: es)
      = (remark comment ++ (lineBreak (k + 1) ++ e.code)) :: piecesAfter k e.comment (f :: es) := by
  rw [piecesAfter]
  exact List.cons_ne_nil f es

/-- The comment of one entry and the code of the next hold no semicolon outside. -/
theorem hitsFrom_piece {comment : Option Comment} (h : IsRemark comment) {t : Text} (ht : IsPassed t)
    (k : Nat) {u : Text} (hu : EndsCode u) (position : Nat) (before : Option Char) :
    hitsFrom [[';']] position 0 before (remark comment ++ (lineBreak k ++ (t ++ u)))
      = hitsFrom [[';']] (position + (remark comment ++ (lineBreak k ++ t)).length) 0
          (lastOr before (remark comment ++ (lineBreak k ++ t))) u := by
  have hfit : FitAll (lastOr before (remark comment)) (pad (lineBreak k)) (t ++ u).head? :=
    (isPad_lineBreak k).fitAll
  have hbreak := hitsFrom_render isPattern_semicolon hfit (position + (remark comment).length)
  rw [hits_eq_nil (lacks_pad (by decide) (isPad_lineBreak k)), List.nil_append, render_pad] at hbreak
  rw [hitsFrom_remark isPattern_semicolon h (atLineEnd_lineBreak k _), hbreak,
    ht.hitsFrom_eq _ (opens_lineBreak k _) hu]
  simp only [lastOr_append, List.length_append, Nat.add_assoc]

/-- Cutting at the semicolons outside parentheses. -/
theorem piecesBetween_interior (k : Nat) {es : List ListEntry} (h : ∀ e ∈ es, e.IsSound)
    (hne : es ≠ []) :
    ∀ (comment : Option Comment), IsRemark comment → ∀ (position : Nat) (before : Option Char),
      piecesBetween position (remark comment ++ interior k es)
          ((hitsFrom [[';']] position 0 before (remark comment ++ interior k es)).map (·.1))
        = piecesAfter k comment es := by
  induction es with
  | nil => exact absurd rfl hne
  | cons e es ih =>
    intro comment hcomment position before
    have he := h e List.mem_cons_self
    cases es with
    | nil =>
      have hinterior : interior k [e]
          = lineBreak (k + 1) ++ (e.code ++ (remark e.comment ++ lineBreak k)) := by
        rw [interior, lines_single, stack_cons, stack_nil]
        simp only [List.append_assoc, List.nil_append]
      have hempty : ∀ position before,
          hitsFrom [[';']] position 0 before (remark e.comment ++ lineBreak k) = [] := by
        intro position before
        have := hitsFrom_piece he.isRemark isPassed_nil k endsCode_nil position before
        simp only [List.append_nil] at this
        exact this
      rw [hinterior, hitsFrom_piece hcomment he.isPassed (k + 1)
        (endsCode_remark e.comment (by simpa using atLineEnd_lineBreak k [])), hempty, piecesAfter]
      rfl
    | cons f es =>
      have hinterior : interior k (e :: f :: es)
          = lineBreak (k + 1) ++ (e.code ++ ';' :: (remark e.comment ++ interior k (f :: es))) := by
        rw [interior, lines_cons_cons, stack_cons, interior]
        simp only [List.append_assoc, List.cons_append]
      have hmark : ∀ position before u, hitsFrom [[';']] position 0 before (';' :: u)
          = (position, 0) :: hitsFrom [[';']] (position + 1) 0 (some ';') u := by
        intro position before u
        exact @hitsFrom_render _ before isPattern_semicolon [mark ';'] u
          ⟨fits_separator (by decide), trivial⟩ position
      have hrest := ih (fun e he => h e (List.mem_cons_of_mem _ he)) (List.cons_ne_nil f es) e.comment
        he.isRemark (position + (remark comment ++ (lineBreak (k + 1) ++ e.code)).length + 1)
        (some ';')
      have hsplit : ∀ u, remark comment ++ (lineBreak (k + 1) ++ (e.code ++ u))
          = (remark comment ++ (lineBreak (k + 1) ++ e.code)) ++ u := by
        intro u
        simp only [List.append_assoc]
      rw [hinterior, hitsFrom_piece hcomment he.isPassed (k + 1) (endsCode_semicolon _), hmark,
        List.map_cons, hsplit, piecesBetween_cut, hrest, piecesAfter_cons_cons]

theorem splitOuter_interior (k : Nat) {es : List ListEntry} (h : ∀ e ∈ es, e.IsSound) (hne : es ≠ []) :
    splitOuter ';' (interior k es) = piecesAfter k none es := by
  rw [splitOuter_eq_hitsFrom (by decide)]
  exact piecesBetween_interior k h hne none (fun _ h => absurd h (by simp)) 0 none

/-! ## Reading the entries -/

/-- The comment at the head of a piece belongs to the entry before it. -/
theorem lineComment_remark {comment : Option Comment} (h : IsRemark comment) {u : Text}
    (hu : AtLineEnd u) : lineComment (remark comment ++ u) = comment := by
  cases comment with
  | none =>
    obtain rfl | ⟨v, rfl⟩ := hu.cases <;> rfl
  | some c =>
    have hc := h c rfl
    have hline := (span_line (h.newline_not_mem) hu).1
    have htrim : trim (remark (some c)) = '-' :: '-' :: c.text := by
      have : trim ([' '] ++ ('-' :: '-' :: c.text) ++ []) = '-' :: '-' :: c.text :=
        trim_pad_trimmed (by decide) hc.solid_line.toTrimmed rfl
      rwa [List.append_nil] at this
    rw [lineComment, hline, Comment.ofLine?, htrim]
    exact hc.ofText?

theorem all_isBlank_blanked (x : Text) : (blanked x).all isBlank = true := by
  rw [List.all_eq_true]
  intro c hc
  rw [List.eq_of_mem_replicate hc]
  decide

/-- Masked, what stands between the code of two entries is blank. -/
theorem all_isBlank_gap (comment : Option Comment) (k : Nat) :
    (blanked (remark comment) ++ lineBreak k).all isBlank = true := by
  rw [List.all_append, all_isBlank_blanked, (isPad_lineBreak k).all_isBlank]
  rfl

theorem byteLength_blanked (x : Text) : byteLength (blanked x) = byteLength x := by
  have key : ∀ n, byteLength (List.replicate n ' ') = n := by
    intro n
    have hblank : ' '.utf8Size = 1 := by decide
    induction n with
    | zero => rfl
    | succ n ih => rw [List.replicate_succ, byteLength_cons, ih, hblank, Nat.add_comm]
  exact key _

/-- The comment of one entry before the code of the next is masked. -/
theorem maskFrom_piece {comment : Option Comment} (h : IsRemark comment) {t : Text} (ht : IsPassed t)
    (k : Nat) {u : Text} (hu : EndsCode u) (before : Option Char) :
    ∃ before', maskFrom [] false 0 before (remark comment ++ (lineBreak k ++ (t ++ u)))
      = blanked (remark comment) ++ (lineBreak k ++ (t ++ maskFrom [] false 0 before' u)) := by
  have hpad := maskFrom_tokens (pad (lineBreak k)) (t ++ u) (lastOr before (remark comment))
    (isPad_lineBreak k).fitAll
  rw [render_pad] at hpad
  exact ⟨_, by rw [maskFrom_remark h (atLineEnd_lineBreak k _), hpad,
    ht.maskFrom_eq (opens_lineBreak k _) hu]⟩

/-- The code of an entry, and its comment given the piece after it. -/
theorem ofPieces?_cons {comment : Option Comment} (hcomment : IsRemark comment) {e : ListEntry}
    (he : e.IsSound) (k : Nat) (p : Text) (ps : List Text) :
    ofPieces? ((remark comment ++ (lineBreak k ++ e.code)) :: p :: ps)
      = (ofPieces? (p :: ps)).map (⟨e.code, lineComment p⟩ :: ·) := by
  obtain ⟨before, hmask⟩ := maskFrom_piece hcomment he.isPassed k endsCode_nil none
  have hnil : maskFrom [] false 0 before [] = [] := rfl
  rw [List.append_nil, hnil, List.append_nil] at hmask
  have hpad := all_isBlank_gap comment k
  have htrim := trim_pad_trimmed hpad he.solid.toTrimmed (show ([] : Text).all isBlank = true from rfl)
  rw [List.append_nil, List.append_assoc] at htrim
  have hcode : e.code.isEmpty = false := by simpa using he.solid.ne_nil
  rw [ofPieces?, maskComments, hmask, htrim, hcode]
  cases ofPieces? (p :: ps) <;> rfl

/-- Masked, the last piece is the code of its entry between blanks. -/
theorem maskComments_last {comment : Option Comment} (hcomment : IsRemark comment) {e : ListEntry}
    (he : e.IsSound) (k j : Nat) :
    maskComments (remark comment ++ (lineBreak k ++ (e.code ++ (remark e.comment ++ lineBreak j))))
      = (blanked (remark comment) ++ lineBreak k) ++ e.code
        ++ (blanked (remark e.comment) ++ lineBreak j) := by
  obtain ⟨before, hmask⟩ := maskFrom_piece hcomment he.isPassed k
    (endsCode_remark e.comment (by simpa using atLineEnd_lineBreak j [])) none
  obtain ⟨before', hend⟩ := maskFrom_piece he.isRemark isPassed_nil j endsCode_nil before
  have hnil : maskFrom [] false 0 before' [] = [] := rfl
  simp only [hnil, List.append_nil] at hend
  rw [maskComments, hmask, hend]
  simp only [List.append_assoc]

/-- The last entry, whose comment follows its code. -/
theorem ofPieces?_last {comment : Option Comment} (hcomment : IsRemark comment) {e : ListEntry}
    (he : e.IsSound) (k j : Nat) :
    ofPieces? [remark comment ++ (lineBreak k ++ (e.code ++ (remark e.comment ++ lineBreak j)))]
      = some [e] := by
  have hpad := all_isBlank_gap comment k
  have hpad' := all_isBlank_gap e.comment j
  have htrimEnd : trimEnd ((blanked (remark comment) ++ lineBreak k) ++ e.code
      ++ (blanked (remark e.comment) ++ lineBreak j))
        = (blanked (remark comment) ++ lineBreak k) ++ e.code := by
    rw [trimEnd_append hpad']
    refine trimEnd_eq_self ?_
    rw [List.getLast?_append_of_ne_nil _ he.solid.ne_nil]
    exact he.solid.last
  -- masking keeps the number of bytes, so that the code ends at the same offset in both texts
  have hlength : byteLength ((blanked (remark comment) ++ lineBreak k) ++ e.code)
      = byteLength (remark comment ++ (lineBreak k ++ e.code)) := by
    simp only [byteLength_append, byteLength_blanked, Nat.add_assoc]
  have hsplit : remark comment ++ (lineBreak k ++ (e.code ++ (remark e.comment ++ lineBreak j)))
      = (remark comment ++ (lineBreak k ++ e.code)) ++ (remark e.comment ++ lineBreak j) := by
    simp only [List.append_assoc]
  have hposition : position? (byteLength (remark comment ++ (lineBreak k ++ e.code)))
      ((remark comment ++ (lineBreak k ++ e.code)) ++ (remark e.comment ++ lineBreak j))
        = some (remark comment ++ (lineBreak k ++ e.code)).length := by
    rw [position?_append]
  have hbehind := lineComment_remark he.isRemark
    (u := lineBreak j) (by simpa using atLineEnd_lineBreak j [])
  have hcode : e.code.isEmpty = false := by simpa using he.solid.ne_nil
  rw [ofPieces?, maskComments_last hcomment he, trim_pad_trimmed hpad he.solid.toTrimmed hpad', htrimEnd,
    hlength, hsplit, hposition, Option.getD_some, List.drop_left, hbehind, hcode]
  rfl

/-- The pieces between the semicolons give back the entries. -/
theorem ofPieces?_piecesAfter (k : Nat) {es : List ListEntry} (h : ∀ e ∈ es, e.IsSound) :
    ∀ comment, IsRemark comment → ofPieces? (piecesAfter k comment es) = some es := by
  induction es with
  | nil => exact fun _ _ => rfl
  | cons e es ih =>
    intro comment hcomment
    have he := h e List.mem_cons_self
    have hrest := ih (fun e he => h e (List.mem_cons_of_mem _ he)) e.comment he.isRemark
    cases es with
    | nil => exact ofPieces?_last hcomment he (k + 1) k
    | cons f es =>
      obtain ⟨u, ps, hpieces, hu⟩ : ∃ u ps, piecesAfter k e.comment (f :: es)
          = (remark e.comment ++ u) :: ps ∧ AtLineEnd u := by
        cases es with
        | nil => exact ⟨_, _, rfl, atLineEnd_lineBreak _ _⟩
        | cons g es => exact ⟨_, _, piecesAfter_cons_cons k e.comment f g es, atLineEnd_lineBreak _ _⟩
      rw [piecesAfter_cons_cons, hpieces, ofPieces?_cons hcomment he, ← hpieces, hrest,
        Option.map_some, lineComment_remark he.isRemark hu]

/-- **The entries of a clause are read from its interior.** -/
theorem split?_interior (k : Nat) {es : List ListEntry} (h : ∀ e ∈ es, e.IsSound) (hne : es ≠ []) :
    split? (interior k es) = some es := by
  rw [split?, splitOuter_interior k h hne]
  exact ofPieces?_piecesAfter k h none fun _ h => absurd h (by simp)

/-! ## Clauses as statements -/

/-- A clause is one statement. -/
theorem isStatement_clause {keyword : Text} (hkeyword : IsName keyword)
    (hdiv : dividingWords.contains (fold keyword) = false)
    (hinert : structureWords.contains (fold keyword) = false) {es : List ListEntry} (h : AreLaid es)
    (k : Nat) : IsStatement true (clause keyword k es) := by
  refine ⟨⟨keyword, _, rfl, hkeyword, rfl, hdiv⟩, ?_, ?_⟩
  · have hsplit : clause keyword k es
        = (keyword ++ ' ' :: '(' :: (interior k es ++ [')'])) ++ [';'] := by
      simp [clause]
    rw [hsplit, List.getLast?_concat]
  · intro depth header position before u _ hbefore
    have hhead : IsPhrase [word keyword] := isPhrase_word hkeyword
    have hafter : Nesting.after ⟨depth, false, header⟩ [word keyword, mark ' ']
        = some ⟨depth, false, header⟩ := by
      refine Nesting.after_eq_self rfl fun t ht => ?_
      simp only [List.mem_cons, List.not_mem_nil, or_false] at ht
      rcases ht with rfl | rfl
      · rw [Nesting.isInert, hinert]
        rfl
      · rfl
    have hfit : FitAll before [word keyword, mark ' '] (some '(') :=
      ⟨(hhead _ (some ' ') hbefore rfl).1, fits_blank, trivial⟩
    have hsplit : clause keyword k es ++ u = render [word keyword, mark ' ']
        ++ '(' :: (stack (k + 1) (lines es) ++ (lineBreak k ++ ')' :: ';' :: u)) := by
      simp [clause, interior]
    have hlength : (clause keyword k es).length
        = keyword.length + (stack (k + 1) (lines es)).length + (lineBreak k).length + 4 := by
      simp only [clause, interior, List.length_append, List.length_cons, List.length_nil]
      omega
    rw [hsplit, extentFrom_render hfit hafter, extentFrom_open,
      extentFrom_stack h.isCommented (k + 1) (atLineEnd_lineBreak k _), extentFrom_pad
        (isPad_lineBreak k), extentFrom_close, extentFrom_semicolon_ended, hlength]
    congr 1
    simp only [render_cons, render_nil, text_word, text_mark, List.length_append, List.length_cons,
      List.length_nil]
    omega

end ListEntry
end CanonicalVhdl
