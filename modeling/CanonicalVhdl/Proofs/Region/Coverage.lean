import CanonicalVhdl.Proofs.Region.Cuts

/-!
# What the pieces of a region account for

Cutting a region into pieces loses nothing and invents nothing.  Every statement and every
comment of a piece stands in the text, one behind the other, and what is left between them is
blank.

## Main definitions

* `Part` — a statement or a comment of a piece.
* `Part.StandsAt t i p` — the part `p` stands in the text `t` behind `i` characters.
* `Accounts t n ps` — parts in their places, and blanks between them, from position `n` on.

## Main statements

* `Piece.Cuts.exists_accounts` — the parts of the pieces that a text is cut into account for it.
* `Piece.accounts_of_pieces?` — the same for the pieces of a region.
-/

namespace CanonicalVhdl

open Text

/-! ## The line of a position -/

namespace Text

/-- What follows the last line feed. -/
def lastLine (t : Text) : Text :=
  (t.reverse.takeWhile (· != '\n')).reverse

theorem lastLine_append (a : Text) {b : Text} (hb : '\n' ∉ b) : lastLine (a ++ b) = lastLine a ++ b := by
  have hall : ∀ c ∈ b.reverse, (c != '\n') = true := by
    intro c hc
    rw [bne_iff_ne]
    rintro rfl
    exact hb (List.mem_reverse.1 hc)
  rw [lastLine, List.reverse_append, List.takeWhile_append_of_pos hall, List.reverse_append,
    List.reverse_reverse, lastLine]

theorem lastLine_append_of_mem (a : Text) {b : Text} (hb : '\n' ∈ b) : lastLine (a ++ b) = lastLine b := by
  have hstop : (b.reverse.takeWhile (· != '\n')).length ≠ b.reverse.length := by
    intro hlength
    have hself := (List.takeWhile_prefix (p := (· != '\n')) (l := b.reverse)).eq_of_length hlength
    have := List.mem_takeWhile_imp (hself ▸ List.mem_reverse.2 hb)
    exact absurd this (by decide)
  rw [lastLine, List.reverse_append, List.takeWhile_append, if_neg hstop, lastLine]

theorem all_lastLine {t : Text} {p : Char → Bool} (h : t.all p = true) : (lastLine t).all p = true := by
  rw [lastLine, List.all_reverse]
  rw [← List.all_reverse, List.all_eq_true] at h
  exact List.all_eq_true.2 fun c hc => h c (List.takeWhile_subset _ hc)

theorem take_add_length {t g u : Text} {n : Nat} (h : t.drop n = g ++ u) :
    t.take (n + g.length) = t.take n ++ g := by
  rw [List.take_add, h, List.take_left]

theorem drop_add_length {t g u : Text} {n : Nat} (h : t.drop n = g ++ u) :
    t.drop (n + g.length) = u := by
  rw [← List.drop_drop, h, List.drop_left]

end Text

/-! ## Parts and their places -/

/-- What a piece of a region is made of. -/
inductive Part where
  /-- A statement with its semicolon. -/
  | statement (code : Text)
  /-- A comment on a line of its own, by the text after its two hyphens. -/
  | ownLine (comment : Text)
  /-- The comment behind a statement. -/
  | trailer (comment : Text)
deriving DecidableEq, Repr

/-- The parts of a piece in order. -/
def Piece.parts : Piece → List Part
  | .code v trailer => .statement v :: trailer.toList.map .trailer
  | .comment c => [.ownLine c]

namespace Part

/-- A part as it is written. -/
def source : Part → Text
  | statement code => code
  | ownLine comment | trailer comment => '-' :: '-' :: comment

/-- Whether the text of a comment is the rest of the line after two hyphens, blanks at its end
aside. -/
def IsCommentAt (t : Text) (i : Nat) (comment : Text) : Prop :=
  ∃ r, (t.drop i).takeWhile (· != '\n') = '-' :: '-' :: r ∧ comment = trimEnd r

/-- Whether a part stands in a text behind `i` characters.  A statement ends with a semicolon; a
comment is the rest of its line, before which stand only blanks or a statement and blanks. -/
def StandsAt (t : Text) (i : Nat) : Part → Prop
  | statement code => code <+: t.drop i ∧ code.getLast? = some ';'
  | ownLine comment => IsCommentAt t i comment ∧ (lastLine (t.take i)).all isBlank = true
  | trailer comment => IsCommentAt t i comment ∧
      ∃ s g, lastLine (t.take i) = s ++ ';' :: g ∧ g.all isBlank = true

end Part

/-- A part and the number of characters before it. -/
structure Placement where
  /-- The number of characters before the part. -/
  start : Nat
  /-- The part. -/
  part : Part

/-- The number of characters up to the end of a part. -/
def Placement.stop (p : Placement) : Nat := p.start + p.part.source.length

/-- Whether parts account for a text from position `n` on: they stand there in their places, one
behind the other, and all other characters are blanks. -/
structure Accounts (t : Text) (n : Nat) (ps : List Placement) : Prop where
  /-- Every part stands in its place. -/
  stands : ∀ p ∈ ps, p.part.StandsAt t p.start
  /-- No part stands before position `n`. -/
  le_start : ∀ p ∈ ps, n ≤ p.start
  /-- No two parts share a character, and they are in order. -/
  ordered : ps.Pairwise fun p q => p.stop ≤ q.start
  /-- A character outside of all parts is a blank. -/
  blank : ∀ i c, n ≤ i → t[i]? = some c → (∀ p ∈ ps, i < p.start ∨ p.stop ≤ i) → isBlank c = true

namespace Accounts

variable {t g u : Text} {n : Nat} {ps : List Placement}

theorem nil (h : (t.drop n).all isBlank = true) : Accounts t n [] where
  stands := by simp
  le_start := by simp
  ordered := List.Pairwise.nil
  blank i c hi hc _ := by
    have hmem : c ∈ t.drop n := by
      rw [List.mem_iff_getElem?]
      exact ⟨i - n, by rw [List.getElem?_drop, Nat.add_sub_cancel' hi, hc]⟩
    exact List.all_eq_true.1 h c hmem

/-- Blanks before the first part. -/
theorem gap (hsplit : t.drop n = g ++ u) (hg : g.all isBlank = true)
    (h : Accounts t (n + g.length) ps) : Accounts t n ps where
  stands := h.stands
  le_start p hp := Nat.le_trans (Nat.le_add_right _ _) (h.le_start p hp)
  ordered := h.ordered
  blank i c hi hc hout := by
    by_cases hlt : i < n + g.length
    · have hmem : c ∈ g := by
        have hin : (t.drop n)[i - n]? = some c := by
          rw [List.getElem?_drop, Nat.add_sub_cancel' hi, hc]
        rw [hsplit, List.getElem?_append_left (by omega)] at hin
        exact List.mem_of_getElem? hin
      exact List.all_eq_true.1 hg c hmem
    · exact h.blank i c (Nat.le_of_not_lt hlt) hc hout

/-- A part, and those behind it. -/
theorem cons {p : Part} (hp : p.StandsAt t n) (h : Accounts t (n + p.source.length) ps) :
    Accounts t n (⟨n, p⟩ :: ps) where
  stands := List.forall_mem_cons.2 ⟨hp, h.stands⟩
  le_start := List.forall_mem_cons.2
    ⟨Nat.le_refl n, fun q hq => Nat.le_trans (Nat.le_add_right _ _) (h.le_start q hq)⟩
  ordered := List.pairwise_cons.2 ⟨h.le_start, h.ordered⟩
  blank i c hi hc hout := by
    obtain ⟨hhead, htail⟩ := List.forall_mem_cons.1 hout
    refine h.blank i c ?_ hc htail
    exact hhead.resolve_left (Nat.not_lt.2 hi)

end Accounts

/-! ## Pieces account for their text -/

section Comments

variable {t x r : Text} {n : Nat}

/-- The rest of a line that starts with two hyphens is a comment. -/
theorem Part.isCommentAt (hsplit : t.drop n = '-' :: '-' :: (x ++ r)) (hx : '\n' ∉ x)
    (hr : AtLineEnd r) : IsCommentAt t n (trimEnd x) := by
  refine ⟨x, ?_, rfl⟩
  have hmem : '\n' ∉ '-' :: '-' :: x := by simp [hx]
  rw [hsplit]
  exact (span_line hmem hr).1

/-- A comment, the blanks at its end and what follows its line. -/
theorem Accounts.comment {p : Part} {ps : List Placement} (hp : p.StandsAt t n)
    (hsource : p.source = '-' :: '-' :: trimEnd x) (hsplit : t.drop n = '-' :: '-' :: (x ++ r))
    (h : Accounts t (n + (x.length + 2)) ps) : Accounts t n (⟨n, p⟩ :: ps) := by
  obtain ⟨g, hg, hpad⟩ := exists_pad_trimEnd x
  have hlength : x.length = (trimEnd x).length + g.length := by
    rw [← List.length_append, ← hpad]
  refine .cons hp (.gap (g := g) (u := r) ?_ hg ?_)
  · rw [← List.drop_drop, hsplit, hpad, hsource, List.append_assoc, ← List.cons_append,
      ← List.cons_append, List.drop_left]
  · have hstop : n + p.source.length + g.length = n + (x.length + 2) := by
      rw [hsource, List.length_cons, List.length_cons, hlength]
      omega
    rwa [hstop]

end Comments

namespace Piece

/-- Whether a comment behind the blanks at a position stands on a line of its own: only blanks
precede the position, or a line feed is among those that follow it. -/
def IsFresh (t : Text) (n : Nat) : Prop :=
  ∀ g x, t.drop n = g ++ '-' :: '-' :: x → g.all isAsciiBlank = true →
    (lastLine (t.take (n + g.length))).all isBlank = true

variable {t r : Text} {n : Nat}

theorem isFresh_zero (t : Text) : IsFresh t 0 := by
  intro g x hsplit hg
  rw [take_add_length hsplit]
  exact all_lastLine (all_isBlank_of_ascii hg)

/-- A line feed among the blanks makes a line of its own. -/
theorem isFresh_of_newline (h : ∀ g x, t.drop n = g ++ '-' :: '-' :: x → g.all isAsciiBlank = true →
    '\n' ∈ g) : IsFresh t n := by
  intro g x hsplit hg
  rw [take_add_length hsplit, lastLine_append_of_mem _ (h g x hsplit hg)]
  exact all_lastLine (all_isBlank_of_ascii hg)

/-- Behind a comment the line ends. -/
theorem isFresh_of_atLineEnd (hsplit : t.drop n = r) (hr : AtLineEnd r) : IsFresh t n := by
  refine isFresh_of_newline fun g x hgap _ => ?_
  rw [hsplit] at hgap
  obtain rfl | ⟨v, rfl⟩ := hr.cases
  · simp at hgap
  · rcases g with _ | ⟨c, g⟩
    · simp at hgap
    · rw [(List.cons.inj hgap).1]
      exact List.mem_cons_self

/-- Behind a statement without a comment on its line the next comment stands on another line. -/
theorem isFresh_of_trailer? (hsplit : t.drop n = r) (hnone : trailer? r = none) : IsFresh t n := by
  refine isFresh_of_newline fun g x hgap hg => ?_
  by_contra hmem
  obtain ⟨y, s, rfl, -, hy, hs⟩ := lineLength_split 0 x
  have hblank : ∀ c ∈ g, c ≠ '\n' ∧ isBlank c = true := fun c hc =>
    ⟨fun h => hmem (h ▸ hc), List.all_eq_true.1 (all_isBlank_of_ascii hg) c hc⟩
  rw [← hsplit, hgap, trailer?_eq_some hblank hy hs] at hnone
  cases hnone

/-- What stands on the line of a statement with only blanks between. -/
theorem exists_lastLine {v g u : Text} (hsplit : t.drop n = v ++ (g ++ u)) (hv : v.getLast? = some ';')
    (hg : ∀ c ∈ g, c ≠ '\n' ∧ isBlank c = true) :
    ∃ s b, lastLine (t.take (n + v.length + g.length)) = s ++ ';' :: b ∧ b.all isBlank = true := by
  obtain ⟨w, rfl⟩ := List.getLast?_eq_some_iff.1 hv
  refine ⟨lastLine (t.take n ++ w), g, ?_, List.all_eq_true.2 fun c hc => (hg c hc).2⟩
  have hline : '\n' ∉ ';' :: g := by
    simp only [List.mem_cons, not_or]
    exact ⟨by decide, fun h => (hg _ h).1 rfl⟩
  rw [take_add_length (drop_add_length hsplit), take_add_length hsplit, List.append_assoc, List.append_assoc,
    List.singleton_append, ← List.append_assoc, lastLine_append _ hline]

/-- **The parts of the pieces that a text is cut into account for it**, wherever the text stands. -/
theorem Cuts.exists_accounts {ps : List Piece} (h : Cuts ps r) :
    ∀ (t : Text) (n : Nat), t.drop n = r → IsFresh t n →
      ∃ placements, placements.map Placement.part = ps.flatMap Piece.parts ∧
        Accounts t n placements := by
  have hgap : ∀ {r u : Text}, r.dropWhile isAsciiBlank = u →
      ∃ g, r = g ++ u ∧ g.all isAsciiBlank = true := fun {r u} hr =>
    ⟨r.takeWhile isAsciiBlank, by rw [← hr, List.takeWhile_append_dropWhile], List.all_takeWhile⟩
  induction h with
  | nil hr =>
    intro t n hsplit _
    obtain ⟨g, rfl, hg⟩ := hgap hr
    rw [List.append_nil] at hsplit
    exact ⟨[], rfl, .nil (hsplit ▸ all_isBlank_of_ascii hg)⟩
  | comment hr hx hs _ ih =>
    intro t n hsplit hfresh
    obtain ⟨g, rfl, hg⟩ := hgap hr
    have hcomment := drop_add_length hsplit
    have hrest := drop_add_length (t := t) (n := n + g.length) (g := '-' :: '-' :: _) hcomment
    obtain ⟨placements, hparts, haccounts⟩ := ih t _ hrest (isFresh_of_atLineEnd hrest hs)
    refine ⟨⟨n + g.length, .ownLine _⟩ :: placements, by rw [List.map_cons, hparts]; rfl, ?_⟩
    refine .gap hsplit (all_isBlank_of_ascii hg) (.comment ?_ rfl hcomment haccounts)
    exact ⟨Part.isCommentAt hcomment hx hs, hfresh _ _ hsplit hg⟩
  | @code r v s ps hr hcode hend _ ih =>
    intro t n hsplit hfresh
    obtain ⟨g, rfl, hg⟩ := hgap hr
    have hstatement := drop_add_length hsplit
    have hrest := drop_add_length hstatement
    have hlast := getLast?_take_of_extent? hend
    rw [List.take_left] at hlast
    have hstands : (Part.statement v).StandsAt t (n + g.length) := by
      refine ⟨?_, hlast⟩
      rw [hstatement]
      exact List.prefix_append v s
    cases htrailer : trailer? s with
    | none =>
      have hbehind : behind s = (none, s) := by rw [behind, htrailer]; rfl
      rw [hbehind] at ih ⊢
      obtain ⟨placements, hparts, haccounts⟩ := ih t _ hrest (isFresh_of_trailer? hrest htrailer)
      refine ⟨⟨n + g.length, .statement v⟩ :: placements, by rw [List.map_cons, hparts]; rfl, ?_⟩
      exact .gap hsplit (all_isBlank_of_ascii hg) (.cons hstands haccounts)
    | some found =>
      obtain ⟨comment, w⟩ := found
      have hbehind : behind s = (some comment, w) := by rw [behind, htrailer]; rfl
      obtain ⟨b, x, rfl, hb, hx, hw, rfl⟩ := exists_of_trailer? htrailer
      have hblank : b.all isBlank = true := List.all_eq_true.2 fun c hc => (hb c hc).2
      have hcomment := drop_add_length hrest
      have hafter := drop_add_length (t := t) (n := n + g.length + v.length + b.length)
        (g := '-' :: '-' :: x) hcomment
      rw [hbehind] at ih ⊢
      obtain ⟨placements, hparts, haccounts⟩ := ih t _ hafter (isFresh_of_atLineEnd hafter hw)
      refine ⟨⟨n + g.length, .statement v⟩ ::
        ⟨n + g.length + v.length + b.length, .trailer (trimEnd x)⟩ :: placements, ?_, ?_⟩
      · rw [List.map_cons, List.map_cons, hparts]
        rfl
      · refine .gap hsplit (all_isBlank_of_ascii hg) (.cons hstands (.gap hrest hblank ?_))
        refine .comment ?_ rfl hcomment haccounts
        exact ⟨Part.isCommentAt hcomment hx hw, exists_lastLine hstatement hlast hb⟩

/-- **The pieces of a region lose nothing and invent nothing.**  Their statements and comments
stand in the text in order and share no character: each statement ends with a semicolon, each
comment is the rest of its line without the blanks at its end, and without all of them only
blanks are left. -/
theorem accounts_of_pieces? {t : Text} {ps : List Piece} (h : pieces? t = some ps) :
    ∃ placements, placements.map Placement.part = ps.flatMap Piece.parts ∧
      Accounts t 0 placements :=
  (cuts_of_pieces? h).exists_accounts t 0 rfl (isFresh_zero t)

/-- A comment line, a statement with a comment behind it and two statements on one line. -/
theorem accounts_of_pieces?_commented :
    pieces? "-- a;\nb <= ';'; -- c \r\n  d <= e; f;".toList
        = some [.comment " a;".toList, .code "b <= ';';".toList (some " c".toList),
          .code "d <= e;".toList none, .code "f;".toList none] ∧
      ∃ placements, placements.map Placement.part
          = [.ownLine " a;".toList, .statement "b <= ';';".toList, .trailer " c".toList,
            .statement "d <= e;".toList, .statement "f;".toList] ∧
        Accounts "-- a;\nb <= ';'; -- c \r\n  d <= e; f;".toList 0 placements := by
  have hpieces : pieces? "-- a;\nb <= ';'; -- c \r\n  d <= e; f;".toList
      = some [.comment " a;".toList, .code "b <= ';';".toList (some " c".toList),
        .code "d <= e;".toList none, .code "f;".toList none] := by decide +kernel
  exact ⟨hpieces, accounts_of_pieces? hpieces⟩

end Piece
end CanonicalVhdl
