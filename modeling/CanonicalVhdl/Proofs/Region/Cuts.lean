import CanonicalVhdl.Proofs.Comment.Search
import CanonicalVhdl.Proofs.Settled.Sequel

/-!
# Cutting a region into pieces

A piece of a region ends where a scan says, a comment belongs to the piece on whose line it
stands, and both look at what follows the piece.  Still, what follows never changes a piece that
is settled: what stands behind it starts afresh, and a line end ends its comment.

## Main definitions

* `Text.behind r` — the comment behind a statement, and what follows the two.
* `Piece.Cuts ps t` — a text and the pieces that it is cut into.
* `Piece.StandsAlone p` — a comment line, or a settled statement that starts afresh.

## Main statements

* `Piece.Cuts.isSequel` — a region carries nothing on.
* `Piece.Cuts.append` — the pieces of a text, and those of what follows it.
* `Piece.pieces?_append` — the same for what is read from the pieces.
-/

namespace CanonicalVhdl

open Text Token

namespace Text

/-- The comment behind a statement, and what follows the statement and the comment. -/
def behind (r : Text) : Option Text × Text :=
  (trailer? r).elim (none, r) fun found => (some found.1, found.2)

/-- The comment behind a statement is on its line, so a line end changes nothing. -/
theorem behind_append {w : Text} (hw : AtLineEnd w) (r : Text) :
    behind (r ++ w) = ((behind r).1, (behind r).2 ++ w) := by
  cases h : trailer? r with
  | some found =>
    obtain ⟨comment, after⟩ := found
    obtain ⟨g, x, rfl, hg, hx, hr, rfl⟩ := exists_of_trailer? h
    have happend : trailer? (g ++ '-' :: '-' :: (x ++ after) ++ w) = some (trimEnd x, after ++ w) := by
      rw [List.append_assoc, List.cons_append, List.cons_append, List.append_assoc]
      exact trailer?_eq_some hg hx (hr.append hw)
    rw [behind, behind, h, happend]
    rfl
  | none =>
    have happend : trailer? (r ++ w) = none := by
      rw [Option.eq_none_iff_forall_ne_some]
      rintro ⟨comment, after⟩ hsome
      obtain ⟨g, x, hsplit, hg, -, -, -⟩ := exists_of_trailer? hsome
      -- the hyphens stand before the line end
      have hhyphens : ∀ v, r ≠ g ++ '-' :: '-' :: v := by
        rintro v rfl
        obtain ⟨y, z, rfl, -, hy, hz⟩ := lineLength_split 0 v
        rw [trailer?_eq_some hg hy hz] at h
        cases h
      rw [show g ++ '-' :: '-' :: (x ++ after) = (g ++ ['-', '-']) ++ (x ++ after) by simp] at hsplit
      rcases List.append_eq_append_iff.1 hsplit with ⟨v, hv, rfl⟩ | ⟨v, rfl, -⟩
      · rcases v with _ | ⟨c, v⟩
        · exact hhyphens [] (by rw [← List.append_nil r, ← hv])
        · obtain rfl : c = '\n' := hw c rfl
          have hmem : '\n' ∈ g ++ ['-', '-'] := by simp [hv]
          rcases List.mem_append.1 hmem with hmem | hmem
          · exact (hg _ hmem).1 rfl
          · exact absurd hmem (by decide)
      · exact hhyphens v (by simp)
    rw [behind, behind, h, happend]
    rfl

/-- Blanks and a comment between a statement and what follows carry nothing on. -/
theorem IsSequel.of_behind {r : Text} (h : IsSequel (behind r).2) : IsSequel r := by
  rw [behind] at h
  cases htrailer : trailer? r with
  | none =>
    rw [htrailer] at h
    exact h
  | some found =>
    rw [htrailer] at h
    obtain ⟨g, x, rfl, hg, hx, hline, -⟩ := exists_of_trailer? htrailer
    exact (h.comment hx hline).blank_append (List.all_eq_true.2 fun c hc => (hg c hc).2)

theorem length_behind_le (r : Text) : (behind r).2.length ≤ r.length := by
  rw [behind]
  cases htrailer : trailer? r with
  | none => exact Nat.le_refl _
  | some found =>
    obtain ⟨g, x, rfl, -⟩ := exists_of_trailer? htrailer
    simp only [Option.elim_some, List.length_append, List.length_cons]
    omega

end Text

namespace Piece

/-! ## Cutting a text -/

/-- A text and the pieces that it is cut into. -/
inductive Cuts : List Piece → Text → Prop
  /-- Nothing but ASCII blanks. -/
  | nil {t : Text} (ht : t.dropWhile isAsciiBlank = []) : Cuts [] t
  /-- A comment line after ASCII blanks, and what follows it. -/
  | comment {t x r : Text} {ps : List Piece} (ht : t.dropWhile isAsciiBlank = '-' :: '-' :: (x ++ r))
      (hx : '\n' ∉ x) (hr : AtLineEnd r) (hps : Cuts ps r) : Cuts (.comment (trimEnd x) :: ps) t
  /-- A statement after ASCII blanks, with the comment on its line, and what follows it. -/
  | code {t v r : Text} {ps : List Piece} (ht : t.dropWhile isAsciiBlank = v ++ r)
      (hcode : ∀ s, v ≠ '-' :: '-' :: s) (hend : extent? (v ++ r) = some v.length)
      (hps : Cuts ps (behind r).2) : Cuts (.code v (behind r).1 :: ps) t

/-- Blanks before the first piece do not matter. -/
theorem Cuts.congr {ps : List Piece} {t u : Text} (h : Cuts ps t)
    (hu : u.dropWhile isAsciiBlank = t.dropWhile isAsciiBlank) : Cuts ps u := by
  cases h with
  | nil ht => exact .nil (hu.trans ht)
  | comment ht hx hr hps => exact .comment (hu.trans ht) hx hr hps
  | code ht hcode hend hps => exact .code (hu.trans ht) hcode hend hps

/-- The search for pieces goes from a statement to what is behind it. -/
theorem piecesFrom?_of_extent? (found : List Piece) (fuel : Nat) {t v r : Text}
    (ht : t.dropWhile isAsciiBlank = v ++ r) (hcode : ∀ s, v ≠ '-' :: '-' :: s)
    (hend : extent? (v ++ r) = some v.length) :
    piecesFrom? found (fuel + 1) t
      = piecesFrom? (.code v (behind r).1 :: found) fuel (behind r).2 := by
  have hlast := getLast?_take_of_extent? hend
  rw [List.take_left] at hlast
  rcases v with _ | ⟨c, v⟩
  · cases hlast
  · have hhyphens : ∀ s, c :: (v ++ r) ≠ '-' :: '-' :: s := by
      intro s hs
      obtain ⟨rfl, htail⟩ := List.cons.inj hs
      rcases v with _ | ⟨d, v⟩
      · cases hlast
      · obtain rfl : d = '-' := (List.cons.inj htail).1
        exact hcode v rfl
    have hstep := piecesFrom?_code found fuel (show t.dropWhile isAsciiBlank = c :: (v ++ r) from ht)
      hhyphens
    rw [← List.cons_append, hend, Option.bind_some, List.take_left, List.drop_left] at hstep
    rw [hstep, behind]
    cases trailer? r <;> rfl

theorem Cuts.piecesFrom? {ps : List Piece} {t : Text} (h : Cuts ps t) :
    ∀ (found : List Piece) (fuel : Nat), t.length < fuel →
      Text.piecesFrom? found fuel t = some (found.reverse ++ ps) := by
  have hshort : ∀ t : Text, (t.dropWhile isAsciiBlank).length ≤ t.length := fun t =>
    (List.dropWhile_sublist isAsciiBlank).length_le
  induction h with
  | nil ht =>
    intro found fuel hfuel
    obtain ⟨fuel, rfl⟩ := Nat.exists_eq_add_one_of_ne_zero (Nat.ne_zero_of_lt hfuel)
    rw [Text.piecesFrom?, ht, List.append_nil]
  | @comment t x r ps ht hx hr hps ih =>
    intro found fuel hfuel
    obtain ⟨fuel, rfl⟩ := Nat.exists_eq_add_one_of_ne_zero (Nat.ne_zero_of_lt hfuel)
    obtain ⟨htake, hdrop⟩ := span_line hx hr
    have hlength := hshort t
    rw [ht] at hlength
    simp only [List.length_cons, List.length_append] at hlength
    rw [Text.piecesFrom?, ht]
    simp only [htake, hdrop]
    rw [ih _ _ (by omega), List.reverse_cons, List.append_assoc, List.singleton_append]
  | @code t v r ps ht hcode hend hps ih =>
    intro found fuel hfuel
    obtain ⟨fuel, rfl⟩ := Nat.exists_eq_add_one_of_ne_zero (Nat.ne_zero_of_lt hfuel)
    have hpos := (extentFrom_bounds hend).1
    have hbehind := length_behind_le r
    have hlength := hshort t
    rw [ht, List.length_append] at hlength
    rw [piecesFrom?_of_extent? found fuel ht hcode hend, ih _ _ (by omega), List.reverse_cons,
      List.append_assoc, List.singleton_append]

theorem Cuts.pieces? {ps : List Piece} {t : Text} (h : Cuts ps t) : Text.pieces? t = some ps :=
  h.piecesFrom? [] (t.length + 1) (Nat.lt_succ_self _)

theorem cuts_of_piecesFrom? {fuel : Nat} :
    ∀ {found ps : List Piece} {t : Text}, Text.piecesFrom? found fuel t = some ps →
      ∃ qs, ps = found.reverse ++ qs ∧ Cuts qs t := by
  induction fuel with
  | zero => exact fun h => nomatch h
  | succ fuel ih =>
    intro found ps t h
    -- a piece goes to the end of those found, and is the first of those to come
    have hnext : ∀ {p : Piece} {u : Text}, Text.piecesFrom? (p :: found) fuel u = some ps →
        ∃ qs, ps = found.reverse ++ p :: qs ∧ Cuts qs u := by
      intro p u h
      obtain ⟨qs, rfl, hqs⟩ := ih h
      exact ⟨qs, by simp, hqs⟩
    by_cases hcomment : ∃ s, t.dropWhile isAsciiBlank = '-' :: '-' :: s
    · obtain ⟨s, ht⟩ := hcomment
      obtain ⟨x, r, rfl, -, hx, hr⟩ := lineLength_split 0 s
      obtain ⟨htake, hdrop⟩ := span_line hx hr
      rw [Text.piecesFrom?, ht] at h
      simp only [htake, hdrop] at h
      obtain ⟨qs, rfl, hqs⟩ := hnext h
      exact ⟨_, rfl, .comment ht hx hr hqs⟩
    · cases hsplit : t.dropWhile isAsciiBlank with
      | nil =>
        rw [Text.piecesFrom?, hsplit] at h
        obtain rfl := Option.some.inj h
        exact ⟨[], (List.append_nil _).symm, .nil hsplit⟩
      | cons c u =>
        have hcode : ∀ s, c :: u ≠ '-' :: '-' :: s := fun s hs => hcomment ⟨s, hsplit.trans hs⟩
        obtain ⟨n, hend, -⟩ :=
          Option.bind_eq_some_iff.1 ((piecesFrom?_code found fuel hsplit hcode).symm.trans h)
        obtain ⟨v, r, hu, hend⟩ : ∃ v r, c :: u = v ++ r ∧ extent? (v ++ r) = some v.length := by
          obtain ⟨x, r, hx, hn, -⟩ := exists_of_extentFrom hend
          have hlength : (x ++ [';']).length = n := by
            rw [hn, Nat.zero_add, List.length_append]
            rfl
          refine ⟨x ++ [';'], r, by simp [hx], ?_⟩
          rw [hlength, ← hend, hx]
          simp
        rw [hu] at hsplit hcode
        have hv : ∀ s, v ≠ '-' :: '-' :: s := fun s hs => hcode (s ++ r) (by rw [hs]; rfl)
        rw [piecesFrom?_of_extent? found fuel hsplit hv hend] at h
        obtain ⟨qs, rfl, hqs⟩ := hnext h
        exact ⟨_, rfl, .code hsplit hv hend hqs⟩

theorem cuts_of_pieces? {ps : List Piece} {t : Text} (h : Text.pieces? t = some ps) : Cuts ps t := by
  obtain ⟨qs, rfl, hqs⟩ := cuts_of_piecesFrom? h
  exact hqs

/-! ## Pieces that stand alone -/

/-- A piece that does not depend on what follows it and carries nothing on: a comment line, or a
settled statement that starts afresh. -/
def StandsAlone : Piece → Prop
  | .comment _ => True
  | .code v _ => StartsAfresh v ∧ Settled v

/-- A statement that stands alone carries nothing on and ends where it ends, whatever follows. -/
theorem isSequel_code {v r u : Text} (hv : StartsAfresh v ∧ Settled v)
    (hblank : (v ++ r).head?.any isAsciiBlank = false) (hcode : ∀ s, v ≠ '-' :: '-' :: s)
    (hend : extent? (v ++ r) = some v.length) (hr : IsSequel r) (hu : IsSequel u) :
    IsSequel (v ++ u) ∧ extent? (v ++ u) = some v.length := by
  have hown := extent?_of_append hv.2 hr hend
  refine ⟨?_, extent?_append hv.2 hu hown⟩
  cases v with
  | nil => cases hown
  | cons c v =>
    refine hv.1.isSequel (by simpa using hblank) ?_ hown hu
    rintro rfl hhead
    obtain ⟨v, rfl⟩ := List.head?_eq_some_iff.1 hhead
    exact hcode _ rfl

theorem isSequel_of_dropWhile {t : Text} (h : IsSequel (t.dropWhile isAsciiBlank)) : IsSequel t := by
  rw [← List.takeWhile_append_dropWhile (p := isAsciiBlank) (l := t)]
  exact h.blank_append (all_isBlank_of_ascii List.all_takeWhile)

/-- **A region of pieces that stand alone carries nothing on.** -/
theorem Cuts.isSequel {ps : List Piece} {t : Text} (h : Cuts ps t)
    (hps : ∀ p ∈ ps, p.StandsAlone) : IsSequel t := by
  induction h with
  | nil ht =>
    apply isSequel_of_dropWhile
    rw [ht]
    exact isSequel_nil
  | comment ht hx hr _ ih =>
    apply isSequel_of_dropWhile
    rw [ht]
    exact (ih (List.forall_mem_cons.1 hps).2).comment hx hr
  | @code t v r ps ht hcode hend _ ih =>
    obtain ⟨hv, hps⟩ := List.forall_mem_cons.1 hps
    have hr := (ih hps).of_behind
    have hblank := any_head?_dropWhile isAsciiBlank t
    apply isSequel_of_dropWhile
    rw [ht] at hblank ⊢
    exact (isSequel_code hv hblank hcode hend hr hr).1

/-- **The pieces of a text, and those of what follows it**, if all of them stand alone. -/
theorem Cuts.append {ps qs : List Piece} {t w : Text} (h : Cuts ps t)
    (hps : ∀ p ∈ ps, p.StandsAlone) (hline : AtLineEnd w) (hw : Cuts qs w)
    (hqs : ∀ p ∈ qs, p.StandsAlone) : Cuts (ps ++ qs) (t ++ w) := by
  have hdrop : ∀ {t : Text}, t.dropWhile isAsciiBlank ≠ [] →
      (t ++ w).dropWhile isAsciiBlank = t.dropWhile isAsciiBlank ++ w := by
    intro t hne
    rw [List.dropWhile_append, if_neg (by simpa using hne)]
  induction h with
  | nil ht =>
    apply hw.congr
    rw [List.dropWhile_append, ht]
    rfl
  | comment ht hx hr _ ih =>
    have hrest := ih (List.forall_mem_cons.1 hps).2
    refine .comment ?_ hx (hr.append hline) hrest
    rw [hdrop (by rw [ht]; exact List.cons_ne_nil _ _), ht, List.cons_append, List.cons_append,
      List.append_assoc]
  | @code t v r ps ht hcode hend hcuts ih =>
    obtain ⟨hv, hps⟩ := List.forall_mem_cons.1 hps
    have hrest := ih hps
    have hbehind := behind_append hline r
    -- what follows the statement carries nothing on, neither before nor after the joining
    have hr := (hcuts.isSequel hps).of_behind
    have hsequel : IsSequel (r ++ w) := by
      apply IsSequel.of_behind
      rw [hbehind]
      exact hrest.isSequel (List.forall_mem_append.2 ⟨hps, hqs⟩)
    have hblank := any_head?_dropWhile isAsciiBlank t
    rw [ht] at hblank
    have hjoined := (isSequel_code hv hblank hcode hend hr hsequel).2
    have hne : t.dropWhile isAsciiBlank ≠ [] := by
      intro hnil
      rw [← ht, hnil] at hend
      cases hend
    have hcut : Cuts (.code v (behind (r ++ w)).1 :: (ps ++ qs)) (t ++ w) := by
      refine .code ?_ hcode hjoined ?_
      · rw [hdrop hne, ht, List.append_assoc]
      · rwa [hbehind]
    rwa [hbehind] at hcut

/-- **Texts joined by a line end have the pieces of the first and then those of the second**, if
what is read as a piece stands alone. -/
theorem pieces?_append {α : Type} {read : Piece → Option α}
    (hread : ∀ p e, read p = some e → p.StandsAlone) {t u : Text} {ps qs : List Piece}
    {es fs : List α} (hps : pieces? t = some ps) (hes : ps.mapM read = some es)
    (hqs : pieces? u = some qs) (hfs : qs.mapM read = some fs) :
    pieces? (t ++ '\n' :: u) = some (ps ++ qs) ∧ (ps ++ qs).mapM read = some (es ++ fs) := by
  have halone : ∀ {ps : List Piece} {es : List α}, ps.mapM read = some es →
      ∀ p ∈ ps, p.StandsAlone := by
    intro ps es h p hp
    obtain ⟨e, he⟩ := (mem_mapM h).1 p hp
    exact hread p e he
  have hline : Cuts qs ('\n' :: u) := (cuts_of_pieces? hqs).congr rfl
  have hcuts := (cuts_of_pieces? hps).append (halone hes) (atLineEnd_newline u) hline (halone hfs)
  refine ⟨hcuts.pieces?, ?_⟩
  rw [List.mapM_append, hes, hfs]
  rfl

end Piece

end CanonicalVhdl
