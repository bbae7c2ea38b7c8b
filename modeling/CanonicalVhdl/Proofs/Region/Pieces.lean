import CanonicalVhdl.Lexical.Comment
import CanonicalVhdl.Proofs.Region.Statement
import CanonicalVhdl.Proofs.Text.Layout
import CanonicalVhdl.Text.Piece

/-!
# Regions of statements

A printed region is a sequence of statements and comment lines, each on lines of its
own and with some padding before it.  Cut into pieces it gives back exactly these, a
scan inside a construct passes over it, and a search for a dividing word steps over
it.

## Main definitions

* `Shows free p x` — the text `x` is the piece `p`.
* `Region free ps t` — the text `t` is made of the pieces `ps`.

## Main statements

* `Region.pieces?` — a region is cut into its pieces.
* `Region.isInterior` — a region is passed over inside a construct.
* `Region.clause?` — a dividing word after a region is found behind it.
-/

namespace CanonicalVhdl

open Text Token

/-! ## Pieces -/

/-- Whether a text is what stands in a comment line: one line without blanks at its end. -/
structure IsCommentText (c : Text) : Prop where
  /-- There is no line feed. -/
  newline_not_mem : '\n' ∉ c
  /-- There is no carriage return. -/
  return_not_mem : '\r' ∉ c
  /-- No blank stands at the end. -/
  trimEnd_eq : trimEnd c = c

/-- A comment of one line reads as it stands. -/
theorem IsCommentText.ofText? {c : Comment} (h : IsCommentText c.text) :
    Comment.ofText? c.text = some c := by
  have hn : c.text.contains '\n' = false := by simpa using h.newline_not_mem
  have hr : c.text.contains '\r' = false := by simpa using h.return_not_mem
  rw [Comment.ofText?, hn, hr, h.trimEnd_eq]
  rfl

/-- Whether a comment ends the last line of a piece. -/
def Piece.endsLine : Piece → Bool
  | .comment _ => true
  | .code _ trailer => trailer.isSome

/-- What a piece looks like in a text. -/
inductive Shows (free : Bool) : Piece → Text → Prop
  /-- A comment line. -/
  | comment {c : Text} : IsCommentText c → Shows free (.comment c) ('-' :: '-' :: c)
  /-- A statement. -/
  | code {x : Text} : IsStatement free x → Shows free (.code x none) x
  /-- A statement with a comment behind it. -/
  | trailed {x c : Text} : IsStatement free x → IsCommentText c →
    Shows free (.code x (some c)) (x ++ ' ' :: '-' :: '-' :: c)

/-- Pieces on lines of their own, with padding before each and after the last. -/
inductive Region (free : Bool) : List Piece → Text → Prop
  | nil {g : Text} : IsPad g → Region free [] g
  | cons {g x r : Text} {p : Piece} {ps : List Piece} : IsPad g → Shows free p x → AtLineEnd r →
    Region free ps r → Region free (p :: ps) (g ++ (x ++ r))

variable {free : Bool}

/-- A piece starts with neither a blank nor a line end. -/
theorem Shows.exists_cons {p : Piece} {x : Text} (h : Shows free p x) :
    ∃ c r, x = c :: r ∧ isAsciiBlank c = false := by
  have hstatement : ∀ {x : Text}, IsStatement free x → ∃ c r, x = c :: r ∧ isAsciiBlank c = false := by
    intro x hx
    obtain ⟨c, r, rfl, hc⟩ := hx.exists_cons
    exact ⟨c, r, rfl, isAsciiBlank_eq_false_of_isIdentChar (isIdentChar_of_isAlpha hc)⟩
  cases h with
  | comment hc => exact ⟨'-', _, rfl, by decide⟩
  | code hx => exact hstatement hx
  | trailed hx hc =>
    obtain ⟨c, r, rfl, hc⟩ := hstatement hx
    exact ⟨c, _, rfl, hc⟩

/-- A comment has no blank at its ends. -/
theorem IsCommentText.solid_line {c : Text} (hc : IsCommentText c) : Solid ('-' :: '-' :: c) := by
  refine ⟨⟨rfl, ?_⟩, List.cons_ne_nil _ _⟩
  cases hlast : c.getLast? with
  | none =>
    rw [List.getLast?_eq_none_iff.1 hlast]
    decide
  | some d =>
    have := getLast?_trimEnd c
    rw [hc.trimEnd_eq, hlast] at this
    simpa [List.getLast?_cons, hlast] using this

/-- A piece has no blank at its ends. -/
theorem Shows.solid {p : Piece} {x : Text} (h : Shows free p x) : Solid x := by
  cases h with
  | comment hc => exact hc.solid_line
  | code hx => exact hx.solid
  | trailed hx hc => exact hx.solid.between hc.solid_line [' ']

theorem Region.ne_nil {p : Piece} {ps : List Piece} {t : Text} (h : Region free (p :: ps) t) :
    t ≠ [] := by
  cases h with
  | cons hg hp hr hps =>
    obtain ⟨c, v, rfl, -⟩ := hp.exists_cons
    simp

/-! ## Scans over regions -/

/-- Inside a construct a piece is passed over. -/
theorem Shows.extent {p : Piece} {x : Text} (h : Shows free p x) (depth : Nat) {header : Bool}
    (position : Nat) {before : Option Char} (hheader : header = true → free = true)
    (hbefore : Opens before) :
    ∃ header', (header' = true → free = true) ∧ ∀ u, (p.endsLine = true → AtLineEnd u) →
      extentFrom 0 ⟨depth + 1, false, header⟩ 0 position before (x ++ u)
        = extentFrom 0 ⟨depth + 1, false, header'⟩ 0 (position + x.length) (lastOr before x) u := by
  have hcomment : ∀ {c : Text} (header : Bool) (position : Nat) (before : Option Char) (u : Text),
      '\n' ∉ c → AtLineEnd u →
      extentFrom 0 ⟨depth + 1, false, header⟩ 0 position before ('-' :: '-' :: (c ++ u))
        = extentFrom 0 ⟨depth + 1, false, header⟩ 0 (position + (c.length + 2))
            (lastOr before ('-' :: '-' :: c)) u := by
    intro c header position before u hc hu
    rw [← List.cons_append, extentFrom_comment (at_comment hc hu before), lastOr_cons,
      lastOr_cons, lastOr_cons]
    congr 1
    simp only [List.length_cons]
    omega
  have hstatement : ∀ {x : Text}, IsStatement free x → ∀ u,
      extentFrom 0 ⟨depth + 1, false, header⟩ 0 position before (x ++ u)
        = extentFrom 0 ⟨depth + 1, false, false⟩ 0 (position + x.length) (lastOr before x) u := by
    intro x hx u
    obtain ⟨c, r, rfl, -⟩ := hx.exists_cons
    rw [hx.extent u hheader hbefore, lastOr_of_ne_nil (List.cons_ne_nil c r), hx.last]
    rfl
  cases h with
  | comment hc =>
    refine ⟨header, hheader, fun u hu => ?_⟩
    exact hcomment header position before u hc.newline_not_mem (hu rfl)
  | code hx =>
    refine ⟨false, fun h => absurd h (by decide), fun u _ => hstatement hx u⟩
  | @trailed x c hx hc =>
    refine ⟨false, fun h => absurd h (by decide), fun u hu => ?_⟩
    rw [List.append_assoc, hstatement hx, List.cons_append]
    have hblank : extentFrom 0 ⟨depth + 1, false, false⟩ 0 (position + x.length) (lastOr before x)
        (' ' :: '-' :: '-' :: (c ++ u))
          = extentFrom 0 ⟨depth + 1, false, false⟩ 0 (position + x.length + 1)
            (lastOr (lastOr before x) [' ']) ('-' :: '-' :: (c ++ u)) := extentFrom_pad isPad_blank _
    rw [List.cons_append, List.cons_append, hblank, hcomment _ _ _ u hc.newline_not_mem (hu rfl)]
    congr 1
    · simp only [List.length_append, List.length_cons]
      omega
    · rw [lastOr_append]
      rfl

/-- A region on new lines is passed over inside a construct. -/
theorem Region.isInterior {ps : List Piece} {t : Text} (h : Region free ps t) (ht : AtLineEnd t) :
    IsInterior free (ps.getLast?.any Piece.endsLine) t := by
  refine ⟨ht, ?_⟩
  intro depth header position before hheader
  induction h generalizing header position before with
  | @nil g hg => exact ⟨header, hheader, fun u _ _ => extentFrom_pad hg u⟩
  | @cons g x r p ps hg hp hr hps ih =>
    have hne : g ≠ [] := by
      rintro rfl
      obtain ⟨c, v, rfl, hc⟩ := hp.exists_cons
      have := ht c (by simp)
      subst this
      exact absurd hc (by decide)
    have hopens : Opens (lastOr before g) := by
      rw [lastOr_of_ne_nil hne, List.getLast?_eq_some_getLast hne]
      rcases hg _ (List.getLast_mem hne) with h | h <;> rw [h] <;> rfl
    obtain ⟨header', hheader', hpiece⟩ := hp.extent depth (position + g.length) hheader hopens
    obtain ⟨header'', hheader'', hrest⟩ := ih hr header' (position + g.length + x.length)
      (lastOr (lastOr before g) x) hheader'
    refine ⟨header'', hheader'', fun u hclose hu => ?_⟩
    have hline : p.endsLine = true → AtLineEnd (r ++ u) := by
      intro hp
      obtain rfl | ⟨v, rfl⟩ := hr.cases
      · -- Then the piece is the last one, and what follows it follows the region.
        cases ps with
        | nil => exact hu (by simpa using hp)
        | cons q qs => exact absurd rfl hps.ne_nil
      · exact atLineEnd_newline _
    rw [List.append_assoc, List.append_assoc, extentFrom_pad hg, hpiece _ hline, hrest u hclose]
    · congr 1
      · simp only [List.length_append]
        omega
      · simp only [lastOr_append]
    · intro hlast
      refine hu ?_
      cases ps with
      | nil => simp at hlast
      | cons q qs => simpa using hlast

/-! ## Pieces of regions -/

theorem Token.IsPad.isAsciiBlank {g : Text} (hg : IsPad g) : ∀ c ∈ g, isAsciiBlank c = true := by
  intro c hc
  rcases hg c hc with rfl | rfl <;> decide

/-- The rest of a line and what follows it. -/
theorem span_line {c r : Text} (hc : '\n' ∉ c) (hr : AtLineEnd r) :
    (c ++ r).takeWhile (· != '\n') = c ∧ (c ++ r).dropWhile (· != '\n') = r := by
  have hall : ∀ d ∈ c, (d != '\n') = true := by
    intro d hd
    rw [bne_iff_ne]
    rintro rfl
    exact hc hd
  rw [List.takeWhile_append_of_pos hall, List.dropWhile_append_of_pos hall]
  obtain rfl | ⟨v, rfl⟩ := hr.cases <;> simp

/-- No comment follows on the line. -/
theorem trailer?_eq_none {r : Text} (hr : AtLineEnd r) : trailer? r = none := by
  obtain rfl | ⟨v, rfl⟩ := hr.cases <;> rfl

/-- A comment follows on the line. -/
theorem trailer?_eq_some {g x r : Text} (hg : ∀ c ∈ g, c ≠ '\n' ∧ isBlank c = true) (hx : '\n' ∉ x)
    (hr : AtLineEnd r) : trailer? (g ++ '-' :: '-' :: (x ++ r)) = some (trimEnd x, r) := by
  have hblank : (g ++ '-' :: '-' :: (x ++ r)).dropWhile (fun c => c != '\n' && isBlank c)
      = '-' :: '-' :: (x ++ r) := by
    rw [List.dropWhile_append_of_pos fun c hc => by simp [hg c hc],
      List.dropWhile_cons_of_neg (by decide)]
  have hlead : dropLead? "--".toList ('-' :: '-' :: (x ++ r)) = some (x ++ r) := by
    simp [dropLead?]
  obtain ⟨htake, hdrop⟩ := span_line hx hr
  rw [trailer?, hblank, hlead, Option.map_some, htake, hdrop]

theorem trailer?_comment {c r : Text} (hc : IsCommentText c) (hr : AtLineEnd r) :
    trailer? (' ' :: '-' :: '-' :: (c ++ r)) = some (c, r) := by
  have h := trailer?_eq_some (g := [' ']) (by decide) hc.newline_not_mem hr
  rwa [hc.trimEnd_eq] at h

/-- The comment behind a statement, up to the end of its line. -/
theorem exists_of_trailer? {t comment r : Text} (h : trailer? t = some (comment, r)) :
    ∃ g x, t = g ++ '-' :: '-' :: (x ++ r) ∧ (∀ c ∈ g, c ≠ '\n' ∧ isBlank c = true) ∧ '\n' ∉ x
      ∧ AtLineEnd r ∧ comment = trimEnd x := by
  obtain ⟨u, hu, heq⟩ := Option.map_eq_some_iff.1 h
  obtain ⟨rfl, rfl⟩ := Prod.mk.inj heq
  obtain ⟨hlead, hu⟩ := Option.ite_none_right_eq_some.1 hu
  obtain ⟨v, hv⟩ := List.isPrefixOf_iff_prefix.1 hlead
  obtain rfl : v = u := by
    rw [← Option.some.inj hu, ← hv, List.drop_left]
  obtain ⟨x, r, rfl, -, hx, hr⟩ := lineLength_split 0 v
  obtain ⟨htake, hdrop⟩ := span_line hx hr
  refine ⟨t.takeWhile fun c => c != '\n' && isBlank c, x, ?_, ?_, hx, ?_, ?_⟩
  · rw [hdrop]
    conv_lhs => rw [← List.takeWhile_append_dropWhile (p := fun c => c != '\n' && isBlank c) (l := t),
      ← hv]
    rfl
  · intro c hc
    simpa using List.all_eq_true.1 List.all_takeWhile c hc
  · rwa [hdrop]
  · rw [htake]

/-- The search for pieces reaches the end of a statement. -/
theorem piecesFrom?_statement {x r t : Text} (hx : IsStatement free x) (found : List Piece)
    (fuel : Nat) (ht : t.dropWhile isAsciiBlank = x ++ r) :
    piecesFrom? found (fuel + 1) t = match trailer? r with
      | some (comment, after) => piecesFrom? (.code x (some comment) :: found) fuel after
      | none => piecesFrom? (.code x none :: found) fuel r := by
  obtain ⟨c, v, hcons, hc⟩ := hx.exists_cons
  have hextent := hx.extent? r
  rw [piecesFrom?, ht]
  split
  · rename_i hnil
    simp [hcons] at hnil
  · rename_i hhyphen
    rw [hcons, List.cons_append] at hhyphen
    obtain ⟨rfl, -⟩ := List.cons.inj hhyphen
    exact absurd hc (by decide)
  · rw [hextent]
    cases htrailer : trailer? r with
    | none => simp only [List.take_left, List.drop_left, htrailer]
    | some found => simp only [List.take_left, List.drop_left, htrailer]

/-- A region is cut into its pieces. -/
theorem Region.piecesFrom? {ps : List Piece} {t : Text} (h : Region free ps t) (found : List Piece)
    {fuel : Nat} (hfuel : t.length < fuel) :
    Text.piecesFrom? found fuel t = some (found.reverse ++ ps) := by
  induction h generalizing found fuel with
  | @nil g hg =>
    obtain ⟨fuel, rfl⟩ := Nat.exists_eq_add_of_lt hfuel
    have hdrop : g.dropWhile isAsciiBlank = [] := by
      have : (g ++ []).dropWhile isAsciiBlank = [] := List.dropWhile_append_of_pos hg.isAsciiBlank
      rwa [List.append_nil] at this
    rw [Text.piecesFrom?, hdrop]
    simp
  | @cons g x r p ps hg hp hr _ ih =>
    obtain ⟨fuel, rfl⟩ : ∃ n, fuel = n + 1 := ⟨fuel - 1, by omega⟩
    have hdrop : (g ++ (x ++ r)).dropWhile isAsciiBlank = x ++ r := by
      obtain ⟨c, v, rfl, hc⟩ := hp.exists_cons
      rw [List.dropWhile_append_of_pos hg.isAsciiBlank, List.cons_append,
        List.dropWhile_cons_of_neg (by simp [hc])]
    simp only [List.length_append] at hfuel
    cases hp with
    | @comment c hc =>
      obtain ⟨htake, hrest⟩ := span_line hc.newline_not_mem hr
      simp only [List.length_cons] at hfuel
      rw [Text.piecesFrom?, hdrop]
      simp only [List.cons_append, htake, hrest, hc.trimEnd_eq]
      rw [ih _ (by omega)]
      simp
    | code hx =>
      rw [piecesFrom?_statement hx found fuel hdrop, trailer?_eq_none hr]
      obtain ⟨c, v, rfl, -⟩ := hx.exists_cons
      simp only [List.length_cons] at hfuel
      rw [ih _ (by omega)]
      simp
    | @trailed x c hx hc =>
      simp only [List.append_assoc] at hdrop ⊢
      rw [piecesFrom?_statement hx found fuel hdrop, List.cons_append, List.cons_append,
        List.cons_append, trailer?_comment hc hr]
      simp only [List.length_append, List.length_cons] at hfuel
      simp only []
      rw [ih _ (by omega)]
      simp

/-- **A region is cut into its pieces.** -/
theorem Region.pieces? {ps : List Piece} {t : Text} (h : Region free ps t) :
    Text.pieces? t = some ps := by
  rw [Text.pieces?, h.piecesFrom? [] (Nat.lt_succ_self _)]
  rfl

/-! ## Clauses after regions -/

theorem triviaEnd_pad {g : Text} (hg : IsPad g) (passed : Nat) (before : Option Char) (u : Text) :
    triviaEnd false passed before (g ++ u)
      = triviaEnd false (passed + g.length) (lastOr before g) u := by
  induction g generalizing passed before with
  | nil => rfl
  | cons c g ih =>
    have hc := hg.isAsciiBlank c List.mem_cons_self
    rw [List.cons_append, triviaEnd, if_neg (by decide), if_pos hc,
      ih fun d hd => hg d (List.mem_cons_of_mem c hd), lastOr_cons, List.length_cons]
    congr 1
    omega

theorem skipTrivia_pad {g : Text} (hg : IsPad g) (passed : Nat) (before : Option Char) (u : Text) :
    skipTrivia ⟨passed, before, g ++ u⟩ = skipTrivia ⟨passed + g.length, lastOr before g, u⟩ :=
  triviaEnd_pad hg passed before u

/-- A text that starts with a letter starts with neither blanks nor a comment. -/
theorem skipTrivia_alpha {c : Char} (hc : c.isAlpha = true) (passed : Nat) (before : Option Char)
    (u : Text) : skipTrivia ⟨passed, before, c :: u⟩ = ⟨passed, before, c :: u⟩ := by
  have hhyphen : (c == '-') = false := by
    rw [beq_eq_false_iff_ne]
    rintro rfl
    exact absurd hc (by decide)
  rw [skipTrivia, triviaEnd, if_neg (by decide),
    if_neg (by simp [isAsciiBlank_eq_false_of_isIdentChar (isIdentChar_of_isAlpha hc)]), hhyphen]
  rfl

/-- The search for a clause goes on from where blanks and comments end. -/
theorem clauseFrom?_congr {words : List Text} {p q : Place} (h : skipTrivia p = skipTrivia q)
    (fuel : Nat) : clauseFrom? words fuel p = clauseFrom? words fuel q := by
  cases fuel with
  | zero => rfl
  | succ fuel => rw [clauseFrom?, clauseFrom?, h]

theorem fold_dividingWords : ∀ w ∈ dividingWords, fold w = w := by decide

theorem isRun_dividingWords : ∀ w ∈ dividingWords, IsRun w := by
  have : ∀ w ∈ dividingWords, w ≠ [] ∧ w.all isIdentChar = true := by decide
  exact fun w hw => ⟨(this w hw).1, (this w hw).2⟩

/-- A statement starts with no dividing word. -/
theorem IsStatement.startsWith {x : Text} (h : IsStatement free x) {w : Text}
    (hw : w ∈ dividingWords) (u : Text) : Text.startsWith w (x ++ u) = false := by
  obtain ⟨v, r, rfl, hv, hr, hdiv⟩ := h.first
  have hhead : (r ++ u).head?.any isIdentChar = false := by
    cases r with
    | nil =>
      -- Then the statement is its first word, which cannot end with a semicolon.
      have hlast := h.last
      rw [List.append_nil] at hlast
      have := List.all_eq_true.1 hv.ident _ (List.mem_of_getLast? hlast)
      exact absurd this (by decide)
    | cons c r => simpa using hr
  have := startsWith_run (g := []) rfl (isRun_dividingWords w hw) hv.isRun hhead
  rw [List.nil_append] at this
  rw [List.append_assoc, this, sameWord_comm]
  exact sameWord_eq_false_of_not_mem fold_dividingWords hdiv hw

/-- The search for a clause steps over a statement. -/
theorem clauseFrom?_statement {words : List Text} (hwords : ∀ w ∈ words, w ∈ dividingWords)
    {x : Text} (hx : IsStatement free x) (fuel passed : Nat) (before : Option Char) (u : Text) :
    clauseFrom? words (fuel + 1) ⟨passed, before, x ++ u⟩
      = clauseFrom? words fuel ⟨passed + x.length, lastOr before x, u⟩ := by
  have hskip : skipTrivia ⟨passed, before, x ++ u⟩ = ⟨passed, before, x ++ u⟩ := by
    obtain ⟨c, r, rfl, hc⟩ := hx.exists_cons
    exact skipTrivia_alpha hc passed before (r ++ u)
  have hfind : (words.findIdx? fun w => startsWith w (x ++ u)) = none := by
    rw [List.findIdx?_eq_none_iff]
    exact fun w hw => hx.startsWith (hwords w hw) u
  have hne : (x ++ u).isEmpty = false := by
    obtain ⟨c, r, rfl, -⟩ := hx.exists_cons
    rfl
  have hadvance : advance x.length ⟨passed, before, x ++ u⟩
      = ⟨passed + x.length, lastOr before x, u⟩ := by
    simp only [advance, List.take_left, List.drop_left]
    rfl
  rw [clauseFrom?, hskip]
  simp only [hne, hfind, hx.extent? u, Option.bind_some, hadvance]
  rfl

/-- The search for a clause goes over a region. -/
theorem Region.clauseFrom? {words : List Text} (hwords : ∀ w ∈ words, w ∈ dividingWords)
    {ps : List Piece} {t : Text} (h : Region free ps t) {u : Text}
    (hu : ps.getLast?.any Piece.endsLine = true → AtLineEnd u) :
    ∀ (fuel passed : Nat) (before : Option Char), (t ++ u).length < fuel →
      ∃ fuel', u.length < fuel' ∧ Text.clauseFrom? words fuel ⟨passed, before, t ++ u⟩
        = Text.clauseFrom? words fuel' ⟨passed + t.length, lastOr before t, u⟩ := by
  have hpad : ∀ {g : Text} (fuel passed : Nat) (before : Option Char) (r : Text), IsPad g →
      Text.clauseFrom? words fuel ⟨passed, before, g ++ r⟩
        = Text.clauseFrom? words fuel ⟨passed + g.length, lastOr before g, r⟩ :=
    fun {g} fuel passed before r hg =>
      clauseFrom?_congr (skipTrivia_pad hg passed before r) fuel
  have hcomment : ∀ {c : Text} (fuel passed : Nat) (before : Option Char) (r : Text), '\n' ∉ c →
      AtLineEnd r → Text.clauseFrom? words fuel ⟨passed, before, '-' :: '-' :: (c ++ r)⟩
        = Text.clauseFrom? words fuel
            ⟨passed + (c.length + 2), lastOr before ('-' :: '-' :: c), r⟩ :=
    fun {c} fuel passed before r hc hr =>
      clauseFrom?_congr (skipTrivia_comment hc hr passed before) fuel
  induction h with
  | @nil g hg =>
    intro fuel passed before hfuel
    rw [List.length_append] at hfuel
    exact ⟨fuel, by omega, hpad fuel passed before u hg⟩
  | @cons g x r p ps hg hp hr hps ih =>
    intro fuel passed before hfuel
    have hrest : ps.getLast?.any Piece.endsLine = true → AtLineEnd u := by
      intro hlast
      refine hu ?_
      cases ps with
      | nil => simp at hlast
      | cons q qs => simpa using hlast
    have hline : p.endsLine = true → AtLineEnd (r ++ u) := by
      intro hp
      obtain rfl | ⟨v, rfl⟩ := hr.cases
      · cases ps with
        | nil => exact hu (by simpa using hp)
        | cons q qs => exact absurd rfl hps.ne_nil
      · exact atLineEnd_newline _
    simp only [List.length_append] at hfuel
    rw [List.append_assoc, List.append_assoc, hpad fuel passed before _ hg]
    cases hp with
    | @comment c hc =>
      simp only [List.length_cons] at hfuel
      obtain ⟨fuel', hlt, hfound⟩ := ih hrest fuel (passed + g.length + (c.length + 2))
        (lastOr (lastOr before g) ('-' :: '-' :: c))
        (by rw [List.length_append]; omega)
      refine ⟨fuel', hlt, ?_⟩
      rw [List.cons_append, List.cons_append, hcomment fuel _ _ _ hc.newline_not_mem (hline rfl),
        hfound]
      congr 2
      · simp only [List.length_append, List.length_cons]
        omega
      · simp only [lastOr_append]
    | code hx =>
      obtain ⟨fuel, rfl⟩ : ∃ n, fuel = n + 1 := ⟨fuel - 1, by omega⟩
      have hne : x ≠ [] := by
        obtain ⟨c, v, rfl, -⟩ := hx.exists_cons
        exact List.cons_ne_nil c v
      have hlen := List.length_pos_iff.2 hne
      obtain ⟨fuel', hlt, hfound⟩ := ih hrest fuel (passed + g.length + x.length)
        (lastOr (lastOr before g) x) (by rw [List.length_append]; omega)
      refine ⟨fuel', hlt, ?_⟩
      rw [clauseFrom?_statement hwords hx, hfound]
      congr 2
      · simp only [List.length_append]
        omega
      · simp only [lastOr_append]
    | @trailed x c hx hc =>
      obtain ⟨fuel, rfl⟩ : ∃ n, fuel = n + 1 := ⟨fuel - 1, by omega⟩
      have hblank := hpad (g := [' ']) fuel (passed + g.length + x.length)
        (lastOr (lastOr before g) x) ('-' :: '-' :: (c ++ (r ++ u))) isPad_blank
      simp only [List.length_append, List.length_cons] at hfuel
      obtain ⟨fuel', hlt, hfound⟩ := ih hrest fuel
        (passed + g.length + x.length + [' '].length + (c.length + 2))
        (lastOr (lastOr (lastOr (lastOr before g) x) [' ']) ('-' :: '-' :: c))
        (by rw [List.length_append]; omega)
      refine ⟨fuel', hlt, ?_⟩
      rw [List.append_assoc, clauseFrom?_statement hwords hx, List.cons_append, List.cons_append,
        List.cons_append, ← List.singleton_append, hblank,
        hcomment fuel _ _ _ hc.newline_not_mem (hline rfl), hfound]
      congr 2
      · simp only [List.length_append, List.length_cons, List.length_nil]
        omega
      · simp only [lastOr_append, lastOr_cons, lastOr_nil]

/-- Tests that agree on a list find the same place. -/
theorem findIdx?_congr {α : Type} {p q : α → Bool} {as : List α} (h : ∀ a ∈ as, p a = q a) :
    as.findIdx? p = as.findIdx? q := by
  induction as with
  | nil => rfl
  | cons a as ih =>
    rw [List.findIdx?_cons, List.findIdx?_cons, h a List.mem_cons_self,
      ih fun b hb => h b (List.mem_cons_of_mem a hb)]

/-- The search for a clause ends at one of its words. -/
theorem clauseFrom?_word {words : List Text} (hwords : ∀ w ∈ words, IsRun w) {k u : Text} {i : Nat}
    (hk : IsName k) (hu : u.head?.any isIdentChar = false)
    (hfind : (words.findIdx? fun w => sameWord w k) = some i) (fuel passed : Nat)
    (before : Option Char) :
    Text.clauseFrom? words (fuel + 1) ⟨passed, before, k ++ u⟩ = some (passed, i) := by
  have hstarts : (words.findIdx? fun w => startsWith w (k ++ u)) = some i := by
    rw [← hfind]
    refine findIdx?_congr fun w hw => ?_
    have := startsWith_run (g := []) rfl (hwords w hw) hk.isRun hu
    rwa [List.nil_append] at this
  obtain ⟨c, v, rfl⟩ := List.exists_cons_of_ne_nil hk.isRun.ne_nil
  have hc : c.isAlpha = true := by simpa using hk.head
  rw [Text.clauseFrom?, List.cons_append, skipTrivia_alpha hc, ← List.cons_append]
  simp only [hstarts]
  rfl

/-- A region holds no clause. -/
theorem Region.clause?_eq_none {words : List Text} (hwords : ∀ w ∈ words, w ∈ dividingWords)
    {ps : List Piece} {t : Text} (h : Region free ps t) : clause? words t = none := by
  obtain ⟨fuel, -, hfound⟩ := h.clauseFrom? hwords (u := []) (fun _ => atLineEnd_nil) (t.length + 1)
    0 none (by simp)
  rw [List.append_nil] at hfound
  rw [clause?, hfound]
  cases fuel <;> rfl

/-- **A dividing word after a region is found behind it.** -/
theorem Region.clause?_append {words : List Text} (hwords : ∀ w ∈ words, w ∈ dividingWords)
    {ps : List Piece} {t : Text} (h : Region free ps t) {g k u : Text} {i : Nat} (hg : IsPad g)
    (hline : AtLineEnd g) (hne : g ≠ []) (hk : IsName k) (hu : u.head?.any isIdentChar = false)
    (hfind : (words.findIdx? fun w => sameWord w k) = some i) :
    clause? words (t ++ (g ++ (k ++ u))) = some ((t ++ g).length, i) := by
  have hgline : AtLineEnd (g ++ (k ++ u)) := by
    obtain hnil | ⟨v, rfl⟩ := hline.cases
    · exact absurd hnil hne
    · exact atLineEnd_newline _
  obtain ⟨fuel, hlt, hfound⟩ := h.clauseFrom? hwords (u := g ++ (k ++ u)) (fun _ => hgline)
    ((t ++ (g ++ (k ++ u))).length + 1) 0 none (Nat.lt_succ_self _)
  obtain ⟨fuel, rfl⟩ : ∃ n, fuel = n + 1 := ⟨fuel - 1, by omega⟩
  have hruns : ∀ w ∈ words, IsRun w := fun w hw => isRun_dividingWords w (hwords w hw)
  rw [clause?, hfound, clauseFrom?_congr (skipTrivia_pad hg _ _ _),
    clauseFrom?_word hruns hk hu hfind, Nat.zero_add, List.length_append]

/-! ## Layout of regions -/

/-- Texts on lines of their own, with `k` steps of indentation before each. -/
def stack (k : Nat) (xs : List Text) : Text :=
  xs.flatMap (lineBreak k ++ ·)

@[simp] theorem stack_nil (k : Nat) : stack k [] = [] := rfl

@[simp] theorem stack_cons (k : Nat) (x : Text) (xs : List Text) :
    stack k (x :: xs) = lineBreak k ++ (x ++ stack k xs) := by
  simp [stack]

theorem length_le_stack (k : Nat) (xs : List Text) : xs.length ≤ (stack k xs).length := by
  induction xs with
  | nil => exact Nat.zero_le _
  | cons x xs ih =>
    rw [stack_cons, lineBreak]
    simp only [List.length_cons, List.length_append]
    omega

theorem isPad_lineBreak (k : Nat) : IsPad (lineBreak k) := by
  intro c hc
  rcases List.mem_cons.1 hc with rfl | hc
  · exact .inr rfl
  · exact .inl (List.eq_of_mem_replicate hc)

theorem atLineEnd_lineBreak (k : Nat) (u : Text) : AtLineEnd (lineBreak k ++ u) :=
  atLineEnd_newline _

theorem atLineEnd_stack (k : Nat) (xs : List Text) {u : Text} (hu : AtLineEnd u) :
    AtLineEnd (stack k xs ++ u) := by
  cases xs with
  | nil => exact hu
  | cons x xs =>
    rw [stack_cons, List.append_assoc]
    exact atLineEnd_lineBreak k _

/-- Pieces on lines of their own are a region. -/
theorem region_stack {ps : List Piece} {xs : List Text} (h : List.Forall₂ (Shows free) ps xs)
    (k : Nat) {g : Text} (hg : IsPad g) (hline : AtLineEnd g) : Region free ps (stack k xs ++ g) := by
  induction h with
  | nil => exact .nil hg
  | cons hp _ ih =>
    rw [stack_cons, List.append_assoc, List.append_assoc]
    exact .cons (isPad_lineBreak k) hp (atLineEnd_stack k _ hline) ih

/-- Joined texts are the first one and a stack of the others. -/
theorem join_eq_stack (x : Text) (xs : List Text) : join ['\n'] (x :: xs) = x ++ stack 0 xs := by
  induction xs generalizing x with
  | nil => simp [join]
  | cons y ys ih => rw [join_cons_of_ne_nil x (List.cons_ne_nil y ys), ih, stack_cons]; rfl

/-- A text of a stack is a part of it. -/
theorem isInfix_stack {x : Text} {xs : List Text} (h : x ∈ xs) (k : Nat) (g : Text) :
    x <:+: stack k xs ++ g := by
  obtain ⟨as, bs, rfl⟩ := List.append_of_mem h
  refine ⟨stack k as ++ lineBreak k, stack k bs ++ g, ?_⟩
  simp [stack]

theorem isInfix_join {x : Text} {xs : List Text} (h : x ∈ xs) : x <:+: join ['\n'] xs := by
  obtain ⟨y, ys, rfl⟩ := List.exists_cons_of_ne_nil (List.ne_nil_of_mem h)
  rw [join_eq_stack]
  rcases List.mem_cons.1 h with rfl | h
  · exact ⟨[], stack 0 ys, rfl⟩
  · have := isInfix_stack h 0 []
    rw [List.append_nil] at this
    exact this.trans (List.suffix_append y _).isInfix

/-- Pieces joined by line ends are a region. -/
theorem region_join {ps : List Piece} {xs : List Text} (h : List.Forall₂ (Shows free) ps xs) :
    Region free ps (join ['\n'] xs) := by
  cases h with
  | nil => exact .nil isPad_nil
  | @cons p x ps xs hp hps =>
    have hrest := region_stack hps 0 isPad_nil atLineEnd_nil
    have hline := atLineEnd_stack 0 xs atLineEnd_nil
    rw [List.append_nil] at hrest hline
    rw [join_eq_stack]
    exact .cons isPad_nil hp hline hrest

/-- Moving texts that stand on lines of their own. -/
theorem lineBreak_join {xs : List Text} (hne : xs ≠ []) (k : Nat) :
    lineBreak k ++ shift k (join ['\n'] xs) = stack k (xs.map (shift k)) := by
  induction xs with
  | nil => exact absurd rfl hne
  | cons x xs ih =>
    by_cases hnil : xs = []
    · subst hnil
      simp [join]
    · have hbreak : shift k ['\n'] = lineBreak k := by simp [shift]
      rw [join_cons_of_ne_nil x hnil, List.map_cons, stack_cons, ← ih hnil, shift_append,
        ← List.singleton_append, shift_append, hbreak]

/-- A nested region, moved to the right. -/
theorem shift_nested {xs : List Text} (h : ∀ x ∈ xs, IsLined x) (k : Nat) :
    shift k (nested (join ['\n'] xs)) = stack (k + 1) (xs.map (shift (k + 1))) := by
  by_cases hnil : xs = []
  · subst hnil
    rfl
  · rw [nested_eq (isLined_join hnil h), shift_append, shift_lineBreak, shift_shift,
      lineBreak_join hnil]

end CanonicalVhdl
