import CanonicalVhdl.Proofs.Expr.Keyword
import CanonicalVhdl.Proofs.Room.Shape

/-!
# What stands outside the parentheses of no expression

Outside the parentheses of a text that is read as an expression stands no arrow, and of the
reserved words only those of operators, unless a word is the designator of an attribute.  A
designator stands behind a tick that ends no literal, and no expression ends with such a tick.

## Main definitions

* `Text.IsBarred pattern` — an arrow, or a reserved word that belongs to no operator.
* `Text.Dangles s` — the text ends with a tick that ends no literal.

## Main statements

* `Expr.Shaped.hit` — where a barred word stands, the text before it dangles.
* `Expr.Shaped.not_dangles` — no expression dangles.
-/

namespace CanonicalVhdl

open Text Token

namespace Text

/-! ## Barred patterns -/

/-- An arrow, or a reserved word that belongs to no operator. -/
def IsBarred (pattern : Text) : Prop :=
  pattern = "=>".toList ∨ pattern.head?.any Char.isAlpha = true ∧ isForeign pattern = true

instance (pattern : Text) : Decidable (IsBarred pattern) :=
  inferInstanceAs (Decidable (_ ∨ _))

section Barred

variable {pattern : Text} {before : Option Char} {t s u v x z : Text}

theorem IsBarred.cases (h : IsBarred pattern) : pattern = "=>".toList
    ∨ IsRun pattern ∧ pattern.head?.any Char.isAlpha = true ∧ isReserved pattern = true
      ∧ expressionWords.contains (fold pattern) = false := by
  rcases h with h | ⟨halpha, hforeign⟩
  · exact .inl h
  · rw [isForeign, if_pos halpha, Bool.and_eq_true, Bool.not_eq_true'] at hforeign
    exact .inr ⟨(isName_of_isReserved hforeign.1).isRun, halpha, hforeign⟩

theorem IsBarred.isPattern (h : IsBarred pattern) : IsPattern pattern := by
  rcases h.cases with rfl | ⟨hrun, halpha, -⟩
  · exact .inr (by decide)
  · exact .inl ⟨hrun, halpha⟩

theorem IsBarred.word (h : IsBarred pattern) (halpha : pattern.head?.any Char.isAlpha = true) :
    IsRun pattern ∧ isReserved pattern = true := by
  rcases h.cases with rfl | ⟨hrun, -, hreserved, -⟩
  · cases halpha
  · exact ⟨hrun, hreserved⟩

theorem IsRun.of_sameWord (h : IsRun pattern) (hx : sameWord pattern x = true) : IsRun x := by
  refine ⟨?_, ?_⟩
  · rintro rfl
    exact h.ne_nil (List.eq_nil_of_length_eq_zero (length_eq_of_sameWord hx))
  · rw [← all_isIdentChar_fold, ← sameWord_iff.1 hx, all_isIdentChar_fold, h.ident]

/-- A barred word stands by itself. -/
theorem exists_of_standsAt (halpha : pattern.head?.any Char.isAlpha = true)
    (h : standsAt pattern before t = true) :
    ∃ x v, t = x ++ v ∧ sameWord pattern x = true ∧ v.head?.any isIdentChar = false
      ∧ before.any isIdentChar = false := by
  rw [standsAt_alpha halpha] at h
  obtain ⟨r, hr⟩ := Option.isSome_iff_exists.1 h
  rw [wholeWord?] at hr
  obtain ⟨hbefore, hr⟩ := Option.ite_none_left_eq_some.1 hr
  obtain ⟨v, hv, hr⟩ := Option.bind_eq_some_iff.1 hr
  obtain ⟨hrest, -⟩ := Option.ite_none_left_eq_some.1 hr
  obtain ⟨x, rfl, hx⟩ := dropWord?_eq_some_iff.1 (show dropWord? pattern t = some v from hv)
  rw [Bool.or_eq_true, not_or] at hbefore
  exact ⟨x, v, rfl, hx, by simpa using hrest, by simpa using hbefore.2⟩

theorem standsAt_of_word (hrun : IsRun pattern) (halpha : pattern.head?.any Char.isAlpha = true)
    (hx : sameWord pattern x = true) (hrest : u.head?.any isIdentChar = false)
    (hbefore : before.any isIdentChar = false) : standsAt pattern before (x ++ u) = true := by
  rw [standsAt_run (.inl ⟨hrun, halpha⟩) (hrun.of_sameWord hx) hbefore hrest, halpha, hx]
  rfl

/-- Every reserved word has at least two characters. -/
theorem two_le_of_isReserved {w : Text} (h : isReserved w = true) : 2 ≤ w.length := by
  have key : ∀ v ∈ reservedWords, 2 ≤ v.length := by decide +kernel
  rw [isReserved, List.contains_eq_mem, decide_eq_true_eq] at h
  rw [← length_fold]
  exact key _ h

/-- A barred pattern starts with two characters of plain code. -/
theorem IsBarred.isPlainStart (h : IsBarred pattern) (hstands : standsAt pattern before u = true) :
    IsPlainStart u := by
  have htwo : ∀ {x v : Text}, u = x ++ v → x.all isPlain = true → 2 ≤ x.length → IsPlainStart u := by
    rintro x v rfl hplain hlen
    rcases x with _ | ⟨a, _ | ⟨b, x⟩⟩
    · simp at hlen
    · simp at hlen
    · simp only [List.all_cons, Bool.and_eq_true] at hplain
      exact ⟨a, b, x ++ v, rfl, hplain.1, hplain.2.1⟩
  rcases h.cases with rfl | ⟨hrun, halpha, hreserved, -⟩
  · rw [standsAt_symbol (by decide)] at hstands
    obtain ⟨v, rfl⟩ := List.isPrefixOf_iff_prefix.1 hstands
    exact htwo rfl (by decide) (by decide)
  · obtain ⟨x, v, rfl, hx, -⟩ := exists_of_standsAt halpha hstands
    refine htwo rfl (all_isPlain_of_sameWord (all_isPlain_of_ident hrun.ident) hx) ?_
    rw [← length_eq_of_sameWord hx]
    exact two_le_of_isReserved hreserved

/-- What precedes a pattern matters only when it is a word that ends there. -/
theorem IsBarred.standsAt_congr {b : Option Char} (h : IsBarred pattern)
    (hb : b.any isIdentChar = true → before.any isIdentChar = true)
    (hstands : standsAt pattern before u = true) : standsAt pattern b u = true := by
  rcases h.cases with rfl | ⟨hrun, halpha, -⟩
  · exact hstands
  · obtain ⟨x, v, rfl, hx, hv, hbefore⟩ := exists_of_standsAt halpha hstands
    refine standsAt_of_word hrun halpha hx hv ?_
    by_contra hident
    rw [hb (by simpa using hident)] at hbefore
    cases hbefore

theorem isIdentChar_eq_false_of_isBlank {c : Char} (h : isBlank c = true) : isIdentChar c = false := by
  by_contra hident
  rw [isBlank_eq_false_of_isIdentChar (by simpa using hident)] at h
  cases h

/-- No pattern starts with a blank. -/
theorem standsAt_blank {pattern : Text} (hp : IsPattern pattern) {c : Char} (hc : isBlank c = true) :
    standsAt pattern before (c :: u) = false := by
  have key : ∀ d ∈ ['=', '<', ':', ',', '|', ';'], isBlank d = false := by decide
  refine standsAt_other hp _ (isIdentChar_eq_false_of_isBlank hc) fun hmem => ?_
  rw [key c hmem] at hc
  cases hc

/-! ## Passing over parts of a text -/

/-- The pattern starts nowhere in `x`, when `z` follows. -/
def Silent (pattern : Text) (before : Option Char) (x z : Text) : Prop :=
  ∀ a b, x = a ++ b → b ≠ [] → standsAt pattern (lastOr before a) (b ++ z) = false

/-- A part of the text in which the pattern does not start is passed. -/
theorem Hit.pass (h : Hit pattern before (x ++ z) s u) (hx : Reaches before 0 x z 0)
    (hsilent : Silent pattern before x z) :
    ∃ m, s = x ++ m ∧ Hit pattern (lastOr before x) z m u := by
  rcases Nat.lt_or_ge s.length x.length with hlt | hle
  · obtain ⟨m, rfl, rfl, -⟩ := h.reaches.split hx h.split.symm hlt.le
    have hne : m ≠ [] := by
      rintro rfl
      simp at hlt
    have hstands := h.stands
    rw [hsilent s m rfl hne] at hstands
    cases hstands
  · obtain ⟨m, rfl, rfl, hm⟩ := hx.split h.reaches h.split hle
    exact ⟨m, rfl, rfl, hm, lastOr_append before x m ▸ h.stands⟩

theorem silent_other {pattern : Text} (hp : IsPattern pattern)
    (hx : ∀ c ∈ x, isIdentChar c = false ∧ c ∉ ['=', '<', ':', ',', '|', ';']) :
    Silent pattern before x z := by
  rintro a (_ | ⟨c, b⟩) rfl hne
  · exact absurd rfl hne
  · obtain ⟨hident, hc⟩ := hx c (by simp)
    exact standsAt_other hp _ hident hc

theorem silent_blank {pattern : Text} (hp : IsPattern pattern) (hx : x.all isBlank = true) :
    Silent pattern before x z := by
  rintro a (_ | ⟨c, b⟩) rfl hne
  · exact absurd rfl hne
  · exact standsAt_blank hp (List.all_eq_true.1 hx c (by simp))

/-- In a word no other pattern starts. -/
theorem silent_run {pattern : Text} (hp : IsPattern pattern) (hx : IsRun x)
    (hne : sameWord pattern x = false) (hz : z.head?.any isIdentChar = false) :
    Silent pattern before x z := by
  rintro a (_ | ⟨c, b⟩) rfl hb
  · exact absurd rfl hb
  · have hident := hx.ident
    rw [List.all_append, Bool.and_eq_true, List.all_cons, Bool.and_eq_true] at hident
    cases hbefore : (lastOr before a).any isIdentChar with
    | true =>
      obtain ⟨e, he, hlast⟩ := (Option.any_eq_true _ _).1 hbefore
      rw [he]
      exact standsAt_inside hp hlast hident.2.1
    | false =>
      rcases List.eq_nil_or_concat a with rfl | ⟨a, e, rfl⟩
      · have := standsAt_run hp hx hbefore hz
        rwa [hne, Bool.and_false] at this
      · rw [List.concat_eq_append, lastOr_of_ne_nil (by simp), List.getLast?_concat] at hbefore
        have := List.all_eq_true.1 hident.1 e (by simp)
        simp [this] at hbefore

/-- A word that is not reserved, or belongs to an operator, is not barred. -/
theorem IsBarred.sameWord_eq_false (h : IsBarred pattern) (hx : IsRun x)
    (hfree : isReserved x = false ∨ expressionWords.contains (fold x) = true) :
    sameWord pattern x = false := by
  cases hsame : sameWord pattern x with
  | false => rfl
  | true =>
    rcases h.cases with rfl | ⟨-, -, hreserved, hforeign⟩
    · have hall := hx.ident
      rw [← all_isIdentChar_fold, ← sameWord_iff.1 hsame] at hall
      exact absurd hall (by decide)
    · rcases hfree with hfree | hfree
      · rw [isReserved_congr hsame, hfree] at hreserved
        cases hreserved
      · rw [sameWord_iff.1 hsame, hfree] at hforeign
        cases hforeign

theorem IsBarred.silent_run (h : IsBarred pattern) (hx : IsRun x)
    (hfree : isReserved x = false ∨ expressionWords.contains (fold x) = true)
    (hz : z.head?.any isIdentChar = false) : Silent pattern before x z :=
  Text.silent_run h.isPattern hx (h.sameWord_eq_false hx hfree) hz

/-! ## Texts without hits -/

theorem IsBarred.standsAt_cut (h : IsBarred pattern) (hstands : standsAt pattern before (v ++ z) = true)
    (hne : v ≠ []) (hedge : v.getLast? = some '=' → z.head? ≠ some '>')
    (hident : v.getLast?.any isIdentChar = true → z.head?.any isIdentChar = false) :
    standsAt pattern before v = true := by
  rcases h.cases with rfl | ⟨hrun, halpha, -⟩
  · rw [standsAt_symbol (by decide)] at hstands ⊢
    rcases v with _ | ⟨a, _ | ⟨b, v⟩⟩
    · exact absurd rfl hne
    · obtain ⟨rfl, y, hy⟩ : '=' = a ∧ ['>'] <+: z := by simpa using hstands
      exact absurd (by rw [← hy]; rfl) (hedge rfl)
    · simpa using hstands
  · obtain ⟨x, y, heq, hx, hy, hbefore⟩ := exists_of_standsAt halpha hstands
    rcases List.append_eq_append_iff.1 heq with ⟨m, rfl, rfl⟩ | ⟨m, rfl, rfl⟩
    · rcases m with _ | ⟨c, m⟩
      · rw [List.append_nil] at hx
        have := standsAt_of_word (u := []) hrun halpha hx rfl hbefore
        rwa [List.append_nil] at this
      · have hxident := (hrun.of_sameWord hx).ident
        rw [List.all_append, Bool.and_eq_true, List.all_cons, Bool.and_eq_true] at hxident
        have hlast : v.getLast?.any isIdentChar = true := by
          rw [List.getLast?_eq_some_getLast hne]
          exact List.all_eq_true.1 hxident.1 _ (List.getLast_mem hne)
        have := hident hlast
        simp [hxident.2.1] at this
    · refine standsAt_of_word hrun halpha hx ?_ hbefore
      cases m with
      | nil => rfl
      | cons c m => exact hy

/-- A word stands in front of whatever does not go on with it. -/
theorem standsAt_word_cut {w : Text} (halpha : w.head?.any Char.isAlpha = true) (hrun : IsRun w)
    (hstands : standsAt w before (v ++ z) = true) (hz : z.head?.any isIdentChar = false) :
    standsAt w before v = true := by
  obtain ⟨x, y, heq, hx, hy, hbefore⟩ := exists_of_standsAt halpha hstands
  have hxrun := hrun.of_sameWord hx
  obtain ⟨m, rfl, rfl⟩ : ∃ m, v = x ++ m ∧ y = m ++ z := by
    rcases List.append_eq_append_iff.1 heq with ⟨a, rfl, rfl⟩ | h
    · cases a with
      | nil => exact ⟨[], by simp, rfl⟩
      | cons c a =>
        have hc : isIdentChar c = true := List.all_eq_true.1 hxrun.ident c (by simp)
        simp [hc] at hz
    · exact h
  refine standsAt_of_word hrun halpha hx ?_ hbefore
  cases m with
  | nil => rfl
  | cons c m => exact hy

/-- Whatever follows a barred word, it stands there. -/
theorem IsBarred.standsAt_extend (h : IsBarred pattern) (hstands : standsAt pattern before v = true)
    (hz : z.head?.any isIdentChar = false) : standsAt pattern before (v ++ z) = true := by
  rcases h.cases with rfl | ⟨hrun, halpha, -⟩
  · rw [standsAt_symbol (by decide), List.isPrefixOf_iff_prefix] at hstands ⊢
    exact hstands.trans (List.prefix_append v z)
  · obtain ⟨x, y, rfl, hx, hy, hbefore⟩ := exists_of_standsAt halpha hstands
    rw [List.append_assoc]
    refine standsAt_of_word hrun halpha hx ?_ hbefore
    cases y with
    | nil => exact hz
    | cons c y => exact hy

/-- A barred pattern starts with a character that is no blank. -/
theorem IsBarred.head_not_blank (h : IsBarred pattern) (hstands : standsAt pattern before u = true) :
    u.head?.any isBlank = false := by
  cases u with
  | nil => rfl
  | cons c u =>
    cases hblank : isBlank c with
    | false => simpa using hblank
    | true =>
      rw [standsAt_blank h.isPattern hblank] at hstands
      cases hstands

theorem IsBarred.no_hit_of_silent (h : IsBarred pattern) (hsilent : Silent pattern before t [])
    (hhit : Hit pattern before t s u) : False := by
  have hne : u ≠ [] := by
    rintro rfl
    obtain ⟨a, b, v, heq, -⟩ := h.isPlainStart hhit.stands
    cases heq
  have hstands := hhit.stands
  have := hsilent s u hhit.split hne
  rw [List.append_nil, hstands] at this
  cases this

/-- What stands between blanks stands in the text between them. -/
theorem Hit.of_pad {g g' : Text} (h : Hit pattern none (g ++ (t ++ g')) s u) (hp : IsBarred pattern)
    (hg : g.all isBlank = true) (hg' : g'.all isBlank = true) :
    ∃ m v, s = g ++ m ∧ u = v ++ g' ∧ Hit pattern none t m v := by
  obtain ⟨m, rfl, hm⟩ := h.pass (reaches_blank hg _) (silent_blank hp.isPattern hg)
  have hb : (lastOr none g).any isIdentChar = false := by
    rw [lastOr, Option.or_none]
    cases hlast : g.getLast? with
    | none => rfl
    | some c => simpa using isIdentChar_eq_false_of_isBlank (List.all_eq_true.1 hg c (List.mem_of_getLast? hlast))
  have hnone : ∀ {b : Option Char} {v : Text}, v.all isBlank = true → standsAt pattern b v = true → False :=
    fun hv hstands => hp.no_hit_of_silent (silent_blank hp.isPattern hv) ⟨rfl, .here, hstands⟩
  obtain ⟨v, rfl, rfl⟩ : ∃ v, t = m ++ v ∧ u = v ++ g' := by
    rcases List.append_eq_append_iff.1 hm.split with ⟨m', rfl, rfl⟩ | h
    · rw [List.all_append, Bool.and_eq_true] at hg'
      exact (hnone hg'.2 hm.stands).elim
    · exact h
  have hne : v ≠ [] := by
    rintro rfl
    exact hnone hg' hm.stands
  have hedge : g'.head? ≠ some '>' := fun hhead =>
    not_mem_of_blank hg' (by decide) (List.mem_of_head? hhead)
  have hident : g'.head?.any isIdentChar = false := by
    cases g' with
    | nil => rfl
    | cons c g' => simpa using isIdentChar_eq_false_of_isBlank (List.all_eq_true.1 hg' c (by simp))
  have hstands := hp.standsAt_cut hm.stands hne (fun _ => hedge) fun _ => hident
  refine ⟨m, v, rfl, rfl, rfl, hm.reaches.cut.congr fun _ => bindsTick_lastOr_blank hg,
    hp.standsAt_congr (fun hm => ?_) hstands⟩
  cases m with
  | nil => cases hm
  | cons c m => rwa [lastOr_cons] at hm ⊢

/-- A number holds no reserved word. -/
theorem silent_number (h : IsBarred pattern) (ht : ∀ c ∈ t, Real64.isRealChar c = true) :
    Silent pattern before t [] := by
  rintro a b rfl hne
  rw [List.append_nil, ← Bool.not_eq_true]
  intro hstands
  have hb : ∀ c ∈ b, Real64.isRealChar c = true := fun c hc => ht c (by simp [hc])
  rcases h.cases with rfl | ⟨hrun, halpha, hreserved, -⟩
  · rw [standsAt_symbol (by decide)] at hstands
    obtain ⟨v, rfl⟩ := List.isPrefixOf_iff_prefix.1 hstands
    exact absurd (hb '=' (by simp)) (by decide)
  · obtain ⟨x, v, rfl, hx, -⟩ := exists_of_standsAt halpha hstands
    have key : ∀ w ∈ reservedWords, w.all Real64.isRealChar = false := by decide +kernel
    have hall : (Text.fold x).all Real64.isRealChar = true := by
      rw [all_fold (test_toLower Real64.isRealChar (by decide)), List.all_eq_true]
      exact fun c hc => hb c (by simp [hc])
    rw [isReserved, sameWord_iff.1 hx, List.contains_eq_mem, decide_eq_true_eq] at hreserved
    rw [key _ hreserved] at hall
    cases hall

theorem IsGroup.no_hit (h : IsGroup t) (hp : IsBarred pattern) (hhit : Hit pattern before t s u) :
    False := by
  obtain ⟨hsplit, hreach, hstands⟩ := hhit
  have hne : u ≠ [] := by
    rintro rfl
    obtain ⟨a, b, v, heq, -⟩ := hp.isPlainStart hstands
    cases heq
  cases s with
  | nil =>
    obtain ⟨r, rfl⟩ := List.head?_eq_some_iff.1 h.head
    rw [List.nil_append] at hsplit
    rw [← hsplit, standsAt_other hp.isPattern _ (by decide) (by decide)] at hstands
    cases hstands
  | cons c s =>
    have hnone := hreach.congr (b := none) fun hhead => by
      rw [← hsplit, h.head] at hhead
      cases hhead
    exact absurd (h.inside _ _ _ hsplit (List.cons_ne_nil _ _) hne hnone) (Nat.lt_irrefl _)

/-- A literal holds no hit. -/
theorem no_hit_literal {c : Char} {x : Text} (hp : IsBarred pattern)
    (hat : Lexeme.at before (c :: x) = .literal (x.length + 1)) (hc : c = '\'' ∨ c = '"')
    (hhit : Hit pattern before (c :: x) s u) : False := by
  obtain ⟨hsplit, hreach, hstands⟩ := hhit
  cases s with
  | nil =>
    rw [List.nil_append] at hsplit
    have hother : isIdentChar c = false ∧ c ∉ ['=', '<', ':', ',', '|', ';'] := by
      rcases hc with rfl | rfl <;> decide
    rw [← hsplit, standsAt_other hp.isPattern _ hother.1 hother.2] at hstands
    cases hstands
  | cons d s =>
    have hsplit' : (d :: s) ++ u = c :: (x ++ []) := by rw [List.append_nil, ← hsplit]
    obtain ⟨m, -, hnil, -⟩ := hreach.of_lexeme (r := []) (.inl (by rwa [List.append_nil])) rfl
      hsplit' (List.cons_ne_nil _ _)
    obtain ⟨a, b, v, rfl, -⟩ := hp.isPlainStart hstands
    simp at hnil

end Barred

/-! ## Dangling ticks -/

/-- The text ends with a tick that ends no literal. -/
def Dangles (t : Text) : Prop :=
  ∃ r x, t = r ++ [x, '\''] ∧ (isBlank x = true ∨ isIdentChar x = true ∧ r.getLast? ≠ some '\'')

theorem not_dangles_nil : ¬ Dangles [] := by
  rintro ⟨r, x, h, -⟩
  simp at h

/-- A tick dangles behind whatever ends with no tick. -/
theorem Dangles.append {t : Text} (h : Dangles t) {p : Text} (hp : p.getLast? ≠ some '\'') :
    Dangles (p ++ t) := by
  obtain ⟨r, x, rfl, hx⟩ := h
  refine ⟨p ++ r, x, (List.append_assoc ..).symm, hx.imp_right fun ⟨hident, hr⟩ => ⟨hident, ?_⟩⟩
  rw [List.getLast?_append]
  cases hlast : r.getLast? with
  | none => exact hp
  | some c => rwa [hlast] at hr

end Text

namespace Expr

/-! ## Ends of expressions -/

/-- The characters that expressions start and end with. -/
def isEdge (c : Char) : Bool :=
  isBlank c || isIdentChar c || ['\'', '"', '(', ')', '.', '+', '-'].contains c

theorem isEdge_of_blank {c : Char} (h : isBlank c = true) : isEdge c = true := by
  simp [isEdge, h]

theorem isEdge_of_ident {c : Char} (h : isIdentChar c = true) : isEdge c = true := by
  simp [isEdge, h]

/-- The text starts and ends with characters of expressions. -/
structure HasEdges (t : Text) : Prop where
  /-- There is a character. -/
  ne_nil : t ≠ []
  /-- The first character. -/
  head : t.head?.all isEdge = true
  /-- The last character. -/
  last : t.getLast?.all isEdge = true

theorem HasEdges.head_ne {t : Text} (h : HasEdges t) : t.head? ≠ some '>' := fun hc => by
  have := h.head
  rw [hc] at this
  exact absurd this (by decide)

theorem HasEdges.last_ne {t : Text} (h : HasEdges t) : t.getLast? ≠ some '=' := fun hc => by
  have := h.last
  rw [hc] at this
  exact absurd this (by decide)

theorem hasEdges_of_all {t : Text} (hne : t ≠ []) (h : ∀ c ∈ t, isEdge c = true) : HasEdges t := by
  refine ⟨hne, ?_, ?_⟩
  · rw [Option.all_eq_true]
    exact fun c hc => h c (List.mem_of_head? hc)
  · rw [Option.all_eq_true]
    exact fun c hc => h c (List.mem_of_getLast? hc)

theorem hasEdges_of_run {w : Text} (hw : IsRun w) : HasEdges w :=
  hasEdges_of_all hw.ne_nil fun c hc => isEdge_of_ident (List.all_eq_true.1 hw.ident c hc)

/-- Whatever stands between a text with edges and another one. -/
theorem HasEdges.between {a b : Text} (ha : HasEdges a) (hb : HasEdges b) (m : Text) :
    HasEdges (a ++ (m ++ b)) := by
  refine ⟨by simp [ha.ne_nil], ?_, ?_⟩
  · rw [List.head?_append_of_ne_nil _ ha.ne_nil]
    exact ha.head
  · rw [← List.append_assoc, List.getLast?_append_of_ne_nil _ hb.ne_nil]
    exact hb.last

theorem hasEdges_group {t : Text} (h : IsGroup t) : HasEdges t := by
  obtain ⟨u, rfl⟩ := List.head?_eq_some_iff.1 h.head
  exact ⟨by simp, by rw [h.head]; decide, by rw [h.last]; decide⟩

theorem HasEdges.pad {g t g' : Text} (hg : g.all isBlank = true) (hg' : g'.all isBlank = true)
    (h : HasEdges t) : HasEdges (g ++ (t ++ g')) := by
  refine ⟨by simp [h.ne_nil], ?_, ?_⟩
  · cases g with
    | nil =>
      rw [List.nil_append, List.head?_append_of_ne_nil _ h.ne_nil]
      exact h.head
    | cons c g => exact isEdge_of_blank (List.all_eq_true.1 hg c List.mem_cons_self)
  · rw [← List.append_assoc]
    rcases List.eq_nil_or_concat g' with rfl | ⟨g', c, rfl⟩
    · rw [List.append_nil, List.getLast?_append_of_ne_nil _ h.ne_nil]
      exact h.last
    · rw [List.concat_eq_append, ← List.append_assoc, List.getLast?_concat]
      exact isEdge_of_blank (List.all_eq_true.1 hg' c (by simp))

theorem isEdge_of_realChar {c : Char} (h : Real64.isRealChar c = true) : isEdge c = true := by
  simp only [Real64.isRealChar, Bool.or_eq_true, beq_iff_eq] at h
  rcases h with (((((h | rfl) | rfl) | rfl) | rfl) | rfl) | rfl
  · exact isEdge_of_ident (isIdentChar_of_isDigit h)
  all_goals decide

theorem Shaped.hasEdges {t : Text} (h : Shaped t) : HasEdges t := by
  induction h with
  | pad hg hg' _ ih => exact ih.pad hg hg'
  | word hw _ => exact hasEdges_of_run hw
  | number hne h => exact hasEdges_of_all hne fun c hc => isEdge_of_realChar (h c hc)
  | ticked hc => exact ⟨by simp, rfl, rfl⟩
  | @quoted p x hp _ hlast =>
    refine ⟨by simp, ?_, ?_⟩
    · rcases hp with rfl | ⟨base, rfl, hbase⟩
      · rfl
      · exact isEdge_of_ident (isIdentChar_of_isAlpha hbase)
    · rw [List.getLast?_append, List.getLast?_cons, hlast]
      rfl
  | member ha _ _ _ hb _ =>
    have := (hasEdges_of_run ha).between (hasEdges_of_run hb)
    simpa using this (_ ++ '.' :: _)
  | designated ha _ _ hd =>
    have := (hasEdges_of_run ha).between (hasEdges_of_run hd)
    simpa using this (_ ++ ['\''])
  | group h => exact hasEdges_group h
  | call ha _ _ h => exact (hasEdges_of_run ha).between (hasEdges_group h) _
  | negation hw _ _ _ ih =>
    exact (hasEdges_of_run (IsRun.of_sameWord (by decide) hw)).between ih _
  | binary _ _ _ _ _ ih ih' => exact ih.between ih' _

/-- If the last character is a tick, it ends a literal. -/
def EndsTicked (t : Text) : Prop :=
  t.getLast? = some '\'' → ∃ r c, t = r ++ ['\'', c, '\''] ∧ (isIdentChar c = true ∨ c = '-')

theorem EndsTicked.append {t : Text} (h : EndsTicked t) (hne : t ≠ []) (p : Text) :
    EndsTicked (p ++ t) := by
  intro hlast
  rw [List.getLast?_append_of_ne_nil _ hne] at hlast
  obtain ⟨r, c, rfl, hc⟩ := h hlast
  exact ⟨p ++ r, c, (List.append_assoc ..).symm, hc⟩

theorem endsTicked_of_ne {t : Text} (h : t.getLast? ≠ some '\'') : EndsTicked t :=
  fun hlast => absurd hlast h

theorem endsTicked_run {w : Text} (hw : IsRun w) : EndsTicked w :=
  endsTicked_of_ne fun he =>
    absurd (List.all_eq_true.1 hw.ident _ (List.mem_of_getLast? he)) (by decide)

theorem endsTicked_group {t : Text} (h : IsGroup t) : EndsTicked t :=
  endsTicked_of_ne (by rw [h.last]; decide)

/-- **An expression that ends with a tick ends with a literal.** -/
theorem Shaped.endsTicked {t : Text} (h : Shaped t) : EndsTicked t := by
  induction h with
  | @pad g t g' hg hg' h ih =>
    rw [← List.append_assoc]
    rcases List.eq_nil_or_concat g' with rfl | ⟨g', e, rfl⟩
    · rw [List.append_nil]
      exact ih.append h.hasEdges.ne_nil g
    · refine EndsTicked.append (endsTicked_of_ne ?_) (by simp) _
      have he : isBlank e = true := List.all_eq_true.1 hg' e (by simp)
      rw [List.concat_eq_append, List.getLast?_concat]
      rintro ⟨⟩
      cases he
  | word hw _ => exact endsTicked_run hw
  | number hne h =>
    exact endsTicked_of_ne fun hlast => absurd (h _ (List.mem_of_getLast? hlast)) (by decide)
  | @ticked c hc => exact fun _ => ⟨[], c, rfl, hc⟩
  | @quoted p x hp _ hx =>
    refine endsTicked_of_ne ?_
    rw [List.getLast?_append, List.getLast?_cons, hx]
    simp
  | @member a g g' b _ _ _ _ hb _ =>
    have := (endsTicked_run hb).append hb.ne_nil (a ++ (g ++ '.' :: g'))
    simpa using this
  | @designated a g d _ _ _ hd =>
    have := (endsTicked_run hd).append hd.ne_nil (a ++ (g ++ ['\'']))
    simpa using this
  | group h => exact endsTicked_group h
  | @call a g t _ _ _ h =>
    rw [← List.append_assoc]
    exact (endsTicked_group h).append (hasEdges_group h).ne_nil _
  | negation _ _ _ h ih =>
    rw [← List.append_assoc]
    exact ih.append h.hasEdges.ne_nil _
  | binary _ _ _ _ h' _ ih =>
    rw [← List.append_assoc]
    exact ih.append h'.hasEdges.ne_nil _

theorem Shaped.not_dangles {t : Text} (h : Shaped t) : ¬ Dangles t := by
  rintro ⟨r, x, rfl, hx⟩
  obtain ⟨r', c, heq, hc⟩ := h.endsTicked (by simp)
  have hsame : r ++ [x, '\''] = (r' ++ ['\'']) ++ [c, '\''] := by simpa using heq
  obtain ⟨rfl, hend⟩ := List.append_inj' hsame rfl
  obtain ⟨rfl, -⟩ := List.cons.inj hend
  rcases hx with hx | ⟨-, hr⟩
  · rcases hc with hc | rfl
    · rw [isBlank_eq_false_of_isIdentChar hc] at hx
      cases hx
    · cases hx
  · exact hr List.getLast?_concat

/-! ## Ticks at the start -/

/-- If the text starts with a tick, it starts with a literal, and behind the literal a search
reaches the places of the rest of the text whether or not it has seen the literal. -/
def StartsTicked (t : Text) : Prop :=
  t.head? = some '\'' → ∃ c y, t = '\'' :: c :: '\'' :: y ∧ (isIdentChar c = true ∨ c = '-')
    ∧ ∀ z, Resumes z → z.head? ≠ some '\'' → Resumes (y ++ z)

theorem startsTicked_of_ne {t : Text} (h : t.head? ≠ some '\'') : StartsTicked t :=
  fun hhead => absurd hhead h

theorem resumes_of_second {t : Text} (h : t.tail.head? ≠ some '\'') : Resumes t :=
  resumes_of_free fun htail => absurd htail h

theorem head?_append_ne {g z : Text} (hg : '\'' ∉ g) (hz : z.head? ≠ some '\'') :
    (g ++ z).head? ≠ some '\'' := by
  cases g with
  | nil => exact hz
  | cons c g =>
    rintro ⟨⟩
    exact hg List.mem_cons_self

theorem resumes_blank {g z : Text} (hg : '\'' ∉ g) (hz : Resumes z)
    (hhead : z.head? ≠ some '\'') : Resumes (g ++ z) := by
  cases g with
  | nil => exact hz
  | cons a g => exact resumes_of_second (head?_append_ne (fun h => hg (List.mem_cons_of_mem a h)) hhead)

end Expr

/-- A word that is an operator. -/
theorem BinaryOp.contains_of_ofWord? {w : Text} (h : (BinaryOp.ofWord? w).isSome = true) :
    expressionWords.contains (fold w) = true ∧ isReserved w = true := by
  have key : ∀ p ∈ BinaryOp.words, fold p.1.toList = p.1.toList
      ∧ expressionWords.contains p.1.toList = true ∧ reservedWords.contains p.1.toList = true := by
    decide +kernel
  rw [BinaryOp.ofWord?, Option.isSome_map, List.find?_isSome] at h
  obtain ⟨p, hp, hsame⟩ := h
  obtain ⟨hfold, hwords, hreserved⟩ := key p hp
  rw [sameWord_iff, hfold] at hsame
  rw [isReserved, hsame]
  exact ⟨hwords, hreserved⟩

namespace Expr

end Expr

/-- Behind a word an operator starts with no character of a word. -/
theorem Operator.StandsIn.head_of_ident {before : Option Char} {w r : Text}
    (h : Operator.StandsIn before w r) (hbefore : before.any isIdentChar = true) :
    (w ++ r).head?.any isIdentChar = false := by
  cases h with
  | word _ _ hnone _ =>
    rw [hnone] at hbefore
    cases hbefore
  | @symbol c hc hw _ =>
    have key : ∀ d ∈ ['/', '<', '>', '=', '*', '&', '+', '-'], isIdentChar d = false := by decide
    rcases hw with rfl | rfl <;> simpa using key c hc

namespace Expr

/-- What an operator is written as holds no tick. -/
theorem tick_not_mem {before : Option Char} {w r : Text} (hw : Operator.StandsIn before w r) :
    '\'' ∉ w ∧ w ≠ [] := by
  cases hw with
  | word hrun _ _ _ => exact ⟨hrun.not_mem (by decide), hrun.ne_nil⟩
  | @symbol c hc hw _ =>
    have key : ∀ d ∈ ['/', '<', '>', '=', '*', '&', '+', '-'], '\'' ≠ d := by decide
    rcases hw with rfl | rfl
    · simpa using key c hc
    · simpa using key c hc

/-- An operator may stand between two literals. -/
theorem resumes_operator {before : Option Char} {w r z : Text} (hw : Operator.StandsIn before w r)
    (hr : StartsTicked r) (hne : r ≠ []) (hz : Resumes z) (hhead : z.head? ≠ some '\'') :
    Resumes (w ++ (r ++ z)) := by
  obtain ⟨htick, hwne⟩ := tick_not_mem hw
  rcases w with _ | ⟨a, _ | ⟨b, w⟩⟩
  · exact absurd rfl hwne
  · by_cases hrt : r.head? = some '\''
    · obtain ⟨c, y, rfl, hc, hy⟩ := hr hrt
      have key : ∀ d ∈ ['/', '<', '>', '=', '*', '&', '+', '-'], d ≠ '"' ∧ d ≠ '(' ∧ d ≠ ')' := by
        decide
      obtain ⟨hquote, hopen, hclose⟩ : a ≠ '"' ∧ a ≠ '(' ∧ a ≠ ')' := by
        cases hw with
        | word hrun hop _ _ =>
          have := two_le_of_isReserved (BinaryOp.contains_of_ofWord? hop).2
          simp at this
        | symbol hc hw _ =>
          rcases hw with hw | hw
          · obtain ⟨rfl, -⟩ := List.cons.inj hw
            exact key _ hc
          · simp at hw
      have ha : a ≠ '\'' := fun h => htick (by simp [h])
      exact (hy z hz hhead).next ha hquote hopen hclose hc
    · refine resumes_of_second ?_
      rw [List.cons_append, List.tail_cons, List.nil_append, List.head?_append_of_ne_nil _ hne]
      exact hrt
  · refine resumes_of_second fun h => htick ?_
    obtain rfl : b = '\'' := by simpa using h
    simp

theorem Shaped.startsTicked {t : Text} (h : Shaped t) : StartsTicked t := by
  have run : ∀ {w u : Text}, IsRun w → StartsTicked (w ++ u) := by
    intro w u hw
    refine startsTicked_of_ne fun hhead => ?_
    rw [List.head?_append_of_ne_nil _ hw.ne_nil] at hhead
    exact absurd (List.all_eq_true.1 hw.ident _ (List.mem_of_head? hhead)) (by decide)
  induction h with
  | @pad g t g' hg hg' h ih =>
    intro hhead
    cases g with
    | cons c g =>
      obtain rfl : c = '\'' := by simpa using hhead
      exact absurd (List.all_eq_true.1 hg _ List.mem_cons_self) (by decide)
    | nil =>
      rw [List.nil_append, List.head?_append_of_ne_nil _ h.hasEdges.ne_nil] at hhead
      obtain ⟨c, y, rfl, hc, hy⟩ := ih hhead
      refine ⟨c, y ++ g', rfl, hc, fun z hz hhead => ?_⟩
      rw [List.append_assoc]
      have htick := not_mem_of_blank hg' (c := '\'') (by decide)
      exact hy _ (resumes_blank htick hz hhead) (head?_append_ne htick hhead)
  | @word w hw _ =>
    have := run (u := []) hw
    rwa [List.append_nil] at this
  | number hne h =>
    exact startsTicked_of_ne fun hhead => absurd (h _ (List.mem_of_head? hhead)) (by decide)
  | @ticked c hc => exact fun _ => ⟨c, [], rfl, hc, fun z hz _ => hz⟩
  | @quoted p x hp _ _ =>
    refine startsTicked_of_ne ?_
    rcases hp with rfl | ⟨base, rfl, hbase⟩
    · simp
    · rintro ⟨⟩
      cases hbase
  | member ha _ _ _ _ _ => exact run ha
  | designated ha _ _ _ => exact run ha
  | group h => exact startsTicked_of_ne (by rw [h.head]; decide)
  | call ha _ _ _ => exact run ha
  | negation hw _ _ _ _ => exact run (IsRun.of_sameWord (by decide) hw)
  | binary _ _ hop h h' ih ih' =>
    intro hhead
    rw [List.head?_append_of_ne_nil _ h.hasEdges.ne_nil] at hhead
    obtain ⟨c, y, rfl, hc, hy⟩ := ih hhead
    refine ⟨c, y ++ (_ ++ _), rfl, hc, fun z hz hhead => ?_⟩
    rw [List.append_assoc, List.append_assoc]
    obtain ⟨htick, hne⟩ := tick_not_mem hop
    refine hy _ (resumes_operator hop ih' h'.hasEdges.ne_nil hz hhead) fun hhead => htick ?_
    rw [List.head?_append_of_ne_nil _ hne] at hhead
    exact List.mem_of_head? hhead

/-! ## Hits in expressions -/

section Hits

variable {pattern : Text} {before : Option Char} {t s u v z : Text}

theorem Shaped.unbound {depth d : Nat} (h : Shaped t) (hs : s ++ u = t) (hu : IsPlainStart u)
    (hr : Reaches before depth s u d) : Reaches none depth s u d := by
  by_cases hhead : t.head? = some '\''
  · obtain ⟨c, y, rfl, hc, hy⟩ := h.startsTicked hhead
    have := hy [] (resumes_of_second (by simp)) (by simp)
    rw [List.append_nil] at this
    exact this.unbound hc hs hu hr
  · exact hr.congr fun htick => absurd (hs ▸ htick) hhead

theorem Shaped.hit_unbound (h : Shaped t) (hp : IsBarred pattern) (hhit : Hit pattern before t s u) :
    Hit pattern none t s u := by
  refine ⟨hhit.split, h.unbound hhit.split.symm (hp.isPlainStart hhit.stands) hhit.reaches, ?_⟩
  cases s with
  | nil => exact hp.standsAt_congr (fun h => by cases h) hhit.stands
  | cons c s =>
    rw [lastOr_cons, ← lastOr_cons before]
    exact hhit.stands

theorem silent_operator {w r : Text} (hp : IsBarred pattern)
    (hop : Operator.StandsIn before w r) (hr : r.head? ≠ some '>') : Silent pattern before w r := by
  cases hop with
  | word hw hop _ hrest =>
    exact hp.silent_run hw (.inr (BinaryOp.contains_of_ofWord? hop).1) hrest
  | @symbol c hc hw harrow =>
    have key : ∀ d ∈ ['/', '<', '>', '=', '*', '&', '+', '-'], isIdentChar d = false := by decide
    have one : ∀ {b : Option Char} {d : Char} {y : Text}, isIdentChar d = false →
        "=>".toList.isPrefixOf (d :: y) = false → standsAt pattern b (d :: y) = false := by
      intro b d y hd hy
      rcases hp.cases with rfl | ⟨hrun, halpha, -⟩
      · rw [standsAt_symbol (by decide), hy]
      · rw [standsAt_alpha halpha, wholeWord?_eq_none hrun _ (by simpa using hd)]
        rfl
    have next : "=>".toList.isPrefixOf ('=' :: r) = false := by
      cases r with
      | nil => rfl
      | cons d r =>
        have hne : ('>' == d) = false := by
          rw [beq_eq_false_iff_ne]
          rintro rfl
          exact hr rfl
        simp [List.isPrefixOf, hne]
    rintro (_ | ⟨d, a⟩) b hsplit hne
    · obtain rfl : w = b := hsplit
      rcases hw with rfl | rfl <;> exact one (key c hc) harrow
    · rcases hw with rfl | rfl
      · obtain ⟨-, hnil⟩ : c = d ∧ a = [] ∧ b = [] := by simpa [eq_comm] using hsplit
        exact absurd hnil.2 hne
      · obtain ⟨rfl, hab⟩ : c = d ∧ ['='] = a ++ b := by simpa using hsplit
        rcases a with _ | ⟨e, a⟩
        · obtain rfl : ['='] = b := hab
          exact one (by decide) next
        · obtain ⟨-, hnil⟩ : '=' = e ∧ a = [] ∧ b = [] := by simpa [eq_comm] using hab
          exact absurd hnil.2 hne

theorem head?_gap {g y : Text} (hg : g.all isBlank = true) (hy : y.head?.any isIdentChar = false) :
    (g ++ y).head?.any isIdentChar = false := by
  cases g with
  | nil => exact hy
  | cons c g =>
    simpa using isIdentChar_eq_false_of_isBlank (List.all_eq_true.1 hg c List.mem_cons_self)

/-- Behind a tick only the whole designator may be barred. -/
theorem hit_designator {d : Text} (hp : IsBarred pattern) (hd : IsRun d)
    (hhit : Hit pattern before ('\'' :: d) s u) : s = ['\''] ∧ pattern ≠ "=>".toList := by
  obtain ⟨hsplit, hreach, hstands⟩ := hhit
  have hcode : Lexeme.at before ('\'' :: d) = .code := by
    rw [Lexeme.at_cons]
    simp only [show ('\'' : Char) ≠ '-' by decide, show ('\'' : Char) ≠ '"' by decide, false_and,
      if_false, true_and]
    exact if_neg fun h =>
      hd.not_mem (by decide) (List.mem_of_mem_tail (List.mem_of_head? h.2.1))
  rcases s with _ | ⟨c, m⟩
  · rw [List.nil_append] at hsplit
    rw [← hsplit, standsAt_other hp.isPattern _ (by decide) (by decide)] at hstands
    cases hstands
  · obtain ⟨rfl, rfl⟩ : '\'' = c ∧ d = m ++ u := by simpa using hsplit
    obtain ⟨a, b, v, rfl, -⟩ := hp.isPlainStart hstands
    have hident := hd.ident
    rw [List.all_append, Bool.and_eq_true, List.all_cons, Bool.and_eq_true] at hident
    rcases List.eq_nil_or_concat m with rfl | ⟨m, e, rfl⟩
    · refine ⟨rfl, ?_⟩
      rintro rfl
      rw [standsAt_symbol (by decide)] at hstands
      obtain ⟨rfl, -⟩ : '=' = a ∧ _ := by simpa using hstands
      exact absurd hident.2.1 (by decide)
    · -- inside of the designator no pattern starts
      have he : isIdentChar e = true := List.all_eq_true.1 hident.1 e (by simp)
      rw [lastOr_cons, List.concat_eq_append, lastOr_append, lastOr_cons, lastOr_nil,
        standsAt_inside hp.isPattern he hident.2.1] at hstands
      cases hstands

theorem dangles_designator {a g : Text} (ha : IsRun a) (hg : g.all isBlank = true) :
    Dangles (a ++ (g ++ ['\''])) := by
  have htick : ∀ {b : Text} {e : Char}, IsRun (b ++ [e]) → b.getLast? ≠ some '\'' := fun h he =>
    h.not_mem (c := '\'') (by decide) (by simp [List.mem_of_getLast? he])
  rcases List.eq_nil_or_concat g with rfl | ⟨g, e, rfl⟩
  · obtain rfl | ⟨a, e, rfl⟩ := List.eq_nil_or_concat a
    · exact absurd rfl ha.ne_nil
    · rw [List.concat_eq_append] at ha ⊢
      exact ⟨a, e, by simp, .inr ⟨List.all_eq_true.1 ha.ident e (by simp), htick ha⟩⟩
  · exact ⟨a ++ g, e, by simp, .inl (List.all_eq_true.1 hg e (by simp))⟩

/-- **Where a barred word stands in an expression**, the text before it dangles; no arrow stands
there. -/
theorem Shaped.hit (h : Shaped t) (hp : IsBarred pattern) (hhit : Hit pattern none t s u) :
    pattern ≠ "=>".toList ∧ Dangles s := by
  have last : ∀ {w : Text}, IsRun w → w.getLast? ≠ some '\'' := fun hw he =>
    absurd (List.all_eq_true.1 hw.ident _ (List.mem_of_getLast? he)) (by decide)
  have blank : ∀ {g : Text}, g.all isBlank = true → g.getLast? ≠ some '\'' := fun hg he =>
    not_mem_of_blank hg (by decide) (List.mem_of_getLast? he)
  induction h generalizing s u with
  | pad hg hg' _ ih =>
    obtain ⟨m, v, rfl, -, h₁⟩ := hhit.of_pad hp hg hg'
    obtain ⟨harrow, hdangles⟩ := ih h₁
    exact ⟨harrow, hdangles.append (blank hg)⟩
  | @word w hw hfree =>
    exact (hp.no_hit_of_silent (hp.silent_run hw (.inl hfree) rfl) hhit).elim
  | number _ ht => exact (hp.no_hit_of_silent (silent_number hp ht) hhit).elim
  | @ticked c hc =>
    obtain ⟨hlt, hn⟩ := ascii_of_ticked hc
    exact (no_hit_literal (x := [c, '\'']) hp (by simp [Lexeme.at, hlt, hn, Lexeme.bindsTick])
      (.inl rfl) hhit).elim
  | @quoted p x hbase hx hlast =>
    rcases hbase with rfl | ⟨base, rfl, hbase⟩
    · exact (no_hit_literal hp (hx _) (.inr rfl) hhit).elim
    · have hfree : isReserved [base] = false := by
        by_contra h
        have := two_le_of_isReserved (by simpa using h)
        simp at this
      have hrun : IsRun [base] := ⟨by simp, by simp [isIdentChar_of_isAlpha hbase]⟩
      obtain ⟨m, rfl, h₁⟩ := hhit.pass (reaches_run hrun.ident _)
        (hp.silent_run hrun (.inl hfree) rfl)
      exact (no_hit_literal hp (hx _) (.inr rfl) h₁).elim
  | @member a g g' b ha hfree hg hg' hb hfree' =>
    obtain ⟨m, rfl, h₁⟩ := hhit.pass (reaches_run ha.ident _)
      (hp.silent_run ha (.inl hfree) (head?_gap hg rfl))
    obtain ⟨m, rfl, h₂⟩ := h₁.pass (reaches_blank hg _) (silent_blank hp.isPattern hg)
    rw [← List.singleton_append] at h₂
    obtain ⟨m, rfl, h₃⟩ := h₂.pass (reaches_plain (by decide) (by decide) (by decide) _)
      (silent_other hp.isPattern (by decide))
    obtain ⟨m, rfl, h₄⟩ := h₃.pass (reaches_blank hg' _) (silent_blank hp.isPattern hg')
    exact (hp.no_hit_of_silent (hp.silent_run hb (.inl hfree') rfl) h₄).elim
  | @designated a g d ha hfree hg hd =>
    obtain ⟨m, rfl, h₁⟩ := hhit.pass (reaches_run ha.ident _)
      (hp.silent_run ha (.inl hfree) (head?_gap hg rfl))
    obtain ⟨m, rfl, h₂⟩ := h₁.pass (reaches_blank hg _) (silent_blank hp.isPattern hg)
    obtain ⟨rfl, hpattern⟩ := hit_designator hp hd h₂
    exact ⟨hpattern, dangles_designator ha hg⟩
  | group h => exact (h.no_hit hp hhit).elim
  | @call a g t ha hfree hg h =>
    obtain ⟨m, rfl, h₁⟩ := hhit.pass (reaches_run ha.ident _)
      (hp.silent_run ha (.inl hfree) (head?_gap hg (by rw [h.head]; rfl)))
    obtain ⟨m, rfl, h₂⟩ := h₁.pass (reaches_blank hg _) (silent_blank hp.isPattern hg)
    exact (h.no_hit hp h₂).elim
  | @negation w g t hw hg hgap h ih =>
    have hrun : IsRun w := IsRun.of_sameWord (by decide) hw
    have hwords : expressionWords.contains (Text.fold w) = true := by
      rw [← sameWord_iff.1 hw]
      decide
    obtain ⟨m, rfl, h₁⟩ := hhit.pass (reaches_run hrun.ident _) (hp.silent_run hrun (.inr hwords) hgap)
    obtain ⟨m, rfl, h₂⟩ := h₁.pass (reaches_blank hg _) (silent_blank hp.isPattern hg)
    obtain ⟨harrow, hdangles⟩ := ih (h.hit_unbound hp h₂)
    exact ⟨harrow, (hdangles.append (blank hg)).append (last hrun)⟩
  | @binary l w r hl hw hop h h' ih ih' =>
    rcases Nat.lt_or_ge s.length l.length with hlt | hle
    · obtain ⟨m, rfl, rfl, -⟩ := hhit.reaches.split hl hhit.split.symm hlt.le
      have hne : m ≠ [] := by
        rintro rfl
        simp at hlt
      refine ih ⟨rfl, hhit.reaches.cut,
        hp.standsAt_cut hhit.stands hne (fun hlast => ?_) fun hident => ?_⟩
      · rw [← List.getLast?_append_of_ne_nil s hne] at hlast
        exact absurd hlast h.hasEdges.last_ne
      · rw [← lastOr_of_ne_nil hne (lastOr none s), ← lastOr_append] at hident
        exact hop.head_of_ident hident
    · obtain ⟨m, rfl, hsplit, hm⟩ := hl.split hhit.reaches hhit.split hle
      have h₁ : Hit pattern (lastOr none l) (w ++ r) m u :=
        ⟨hsplit, hm, lastOr_append none l m ▸ hhit.stands⟩
      obtain ⟨m, rfl, h₂⟩ := h₁.pass hw (silent_operator hp hop h'.hasEdges.head_ne)
      obtain ⟨harrow, hdangles⟩ := ih' (h'.hit_unbound hp h₂)
      refine ⟨harrow, ?_⟩
      rw [← List.append_assoc]
      refine hdangles.append fun hlast => (tick_not_mem hop).1 ?_
      rw [List.getLast?_append_of_ne_nil _ (tick_not_mem hop).2] at hlast
      exact List.mem_of_getLast? hlast

end Hits

end Expr
end CanonicalVhdl
