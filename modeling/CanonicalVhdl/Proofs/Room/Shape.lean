import CanonicalVhdl.Proofs.Room.Operators
import CanonicalVhdl.Proofs.Number.Text

/-!
# The shape of what is read as an expression

Whatever room a reader has, a text that it takes for an expression has one of a few shapes: a
name, a number, a literal, a pair of parentheses, perhaps after a name, a name with a field or an
attribute, a negation, or two such texts around an operator that stands outside parentheses.
The shapes say nothing of what is inside parentheses.

## Main definitions

* `Text.IsGroup t` — the text is one pair of parentheses.
* `Expr.Shaped t` — the text has the shape of an expression.

## Main statements

* `Expr.shaped_of_readCode` — what is read as an expression has the shape of one.
-/

namespace CanonicalVhdl

open Text Token

namespace Text

/-! ## Pairs of parentheses -/

/-- A pair of parentheses that takes up the whole text. -/
structure IsGroup (t : Text) : Prop where
  /-- The text starts with the opening parenthesis. -/
  head : t.head? = some '('
  /-- The text ends with a closing parenthesis. -/
  last : t.getLast? = some ')'
  /-- No place inside is outside parentheses. -/
  inside : ∀ s u d, t = s ++ u → s ≠ [] → u ≠ [] → Reaches none 0 s u d → 0 < d

/-- Before the end of a group no place is outside of it. -/
theorem pos_of_closeGroup {start position depth d : Nat} {before : Option Char} {s u : Text}
    (h : Reaches before depth s u d) (hu : u ≠ []) (hdepth : 0 < depth)
    (hclose : closeGroup '(' ')' (some (start, depth)) (codePointsFrom [] 0 position depth before (s ++ u))
      = some (some (start, position + (s ++ u).length))) : 0 < d := by
  induction h generalizing position with
  | here => exact hdepth
  | @code _ depth _ c s u hat _ ih =>
    rw [List.cons_append, codePointsFrom_code _ _ hat, closeGroup] at hclose
    have hlength : position + (c :: (s ++ u)).length = position + 1 + (s ++ u).length := by
      rw [List.length_cons]
      omega
    rw [hlength] at hclose
    by_cases hopen : c = '('
    · subst hopen
      exact ih hu (Nat.succ_pos _) hclose
    by_cases hend : c = ')'
    · subst hend
      simp only [show ((')' : Char) == '(') = false from rfl, Bool.false_eq_true, if_false,
        beq_self_eq_true, if_true, beq_iff_eq] at hclose
      split at hclose
      · -- the group would end before the text does
        have hlen := (Prod.mk.inj (Option.some.inj (Option.some.inj hclose))).2
        have := List.length_pos_of_ne_nil hu
        rw [List.length_append] at hlen
        omega
      · next hne => exact ih hu (by simp [depthAfter]; omega) hclose
    · simp only [beq_iff_eq, hopen, hend, if_false] at hclose
      rw [depthAfter_self hopen hend] at ih
      exact ih hu hdepth hclose
  | @lexeme _ depth _ c x s u hat _ ih =>
    rw [List.cons_append, List.append_assoc] at hclose
    have hlength : position + (c :: (x ++ (s ++ u))).length = position + 1 + x.length + (s ++ u).length := by
      rw [List.length_cons, List.length_append]
      omega
    rw [hlength] at hclose
    rcases hat with hat | hat
    · have hparens : c ≠ '(' ∧ c ≠ ')' := by
        constructor <;>
        · rintro rfl
          cases hat
      rw [codePointsFrom_literal _ _ hat, closeGroup] at hclose
      simp only [beq_iff_eq, hparens.1, hparens.2, if_false] at hclose
      exact ih hu hdepth hclose
    · rw [codePointsFrom_comment _ _ hat] at hclose
      exact ih hu hdepth hclose

/-- A group that is found to close at the end of the text. -/
theorem isGroup_of_closeGroup {t : Text} {start stop position : Nat} {before : Option Char}
    (hhead : t.head? = some '(')
    (hclose : closeGroup '(' ')' none (codePointsFrom [] 0 position 0 before t)
      = some (some (start, stop))) (hstop : stop = position + t.length) : IsGroup t := by
  obtain ⟨r, rfl⟩ := List.head?_eq_some_iff.1 hhead
  rw [codePointsFrom_code _ _ (at_open r), closeGroup] at hclose
  simp only [beq_self_eq_true, if_true] at hclose
  obtain ⟨p, hp, hchar, hgroup⟩ := exists_of_closeGroup hclose
  obtain ⟨-, hend⟩ := Prod.mk.inj (Option.some.inj hgroup)
  obtain ⟨hstart, -⟩ := Prod.mk.inj (Option.some.inj hgroup)
  subst hstart
  refine ⟨rfl, ?_, ?_⟩
  · obtain ⟨s, hsplit, hposition, -⟩ := mem_codePointsFrom hp
    have hlength := congrArg List.length hsplit
    rw [CodePoint.rest, List.length_append, List.length_cons] at hlength
    rw [List.length_cons] at hstop
    have hafter : p.after = [] := List.eq_nil_of_length_eq_zero (by omega)
    rw [hsplit, CodePoint.rest, hafter, hchar, ← List.cons_append, List.getLast?_concat]
  · intro s u d hsplit hs hu hreach
    rcases s with _ | ⟨c, s⟩
    · exact absurd rfl hs
    · obtain ⟨rfl, rfl⟩ : c = '(' ∧ r = s ++ u := by simpa [eq_comm] using hsplit
      have hinner := hreach.of_code (at_open _)
      rw [hstop, List.length_cons,
        show start + ((s ++ u).length + 1) = start + 1 + (s ++ u).length by omega] at hclose
      exact pos_of_closeGroup hinner hu (Nat.succ_pos _) hclose

theorem isGroup_of_parenthesised? {t inner : Text} (h : parenthesised? t = some (inner, [])) :
    IsGroup t := by
  rw [parenthesised?] at h
  obtain ⟨hhead, h⟩ := Option.ite_none_right_eq_some.1 h
  obtain ⟨⟨start, stop⟩, hspan, hcut⟩ := Option.map_eq_some_iff.1 h
  have hdrop := List.drop_eq_nil_iff.1 (Prod.mk.inj hcut).2
  simp only [balancedSpan?, show (('(' : Char).toNat < 128 && (')' : Char).toNat < 128) = true
    from rfl, if_true, Option.map_eq_some_iff] at hspan
  obtain ⟨g, hg, hspan⟩ := hspan
  obtain ⟨r, rfl⟩ := List.head?_eq_some_iff.1 (beq_iff_eq.1 hhead)
  have hinner := hg
  rw [codePoints, codePointsFrom_code _ _ (at_open r), closeGroup] at hinner
  simp only [beq_self_eq_true, if_true] at hinner
  obtain ⟨p, hp, -, rfl⟩ := exists_of_closeGroup hinner
  obtain ⟨rfl, rfl⟩ := Prod.mk.inj hspan
  refine isGroup_of_closeGroup rfl hg (Nat.le_antisymm ?_ (by omega))
  obtain ⟨s, hsplit, hposition, -⟩ := mem_codePointsFrom hp
  have hlength := congrArg List.length hsplit
  rw [CodePoint.rest, List.length_append, List.length_cons] at hlength
  rw [List.length_cons]
  omega

/-- Plain code holds no part of a group. -/
theorem closeGroup_plain {x u : Text} (hx : x.all isPlain = true) (ho : '(' ∉ x) (hc : ')' ∉ x)
    (position : Nat) (before : Option Char) :
    closeGroup '(' ')' none (codePointsFrom [] 0 position 0 before (x ++ u))
      = closeGroup '(' ')' none (codePointsFrom [] 0 (position + x.length) 0 (lastOr before x) u) := by
  induction x generalizing position before with
  | nil => rfl
  | cons c x ih =>
    rw [List.all_cons, Bool.and_eq_true] at hx
    rw [List.mem_cons, not_or] at ho hc
    rw [List.cons_append, codePointsFrom_code _ _ (at_plain _ hx.1 _), closeGroup]
    simp only [beq_iff_eq, Ne.symm ho.1, Ne.symm hc.1, if_false]
    rw [ih hx.2 ho.2 hc.2, lastOr_cons, List.length_cons]
    congr 2
    omega

end Text

/-! ## Shapes -/

namespace Expr

/-- The text has the shape of an expression. -/
inductive Shaped : Text → Prop
  /-- Blanks around the expression. -/
  | pad {g t g' : Text} (hg : g.all isBlank = true) (hg' : g'.all isBlank = true) (h : Shaped t) :
      Shaped (g ++ (t ++ g'))
  /-- A name, or a literal that is a word. -/
  | word {w : Text} (hw : IsRun w) (hfree : isReserved w = false) : Shaped w
  /-- A number. -/
  | number {t : Text} (hne : t ≠ []) (h : ∀ c ∈ t, Real64.isRealChar c = true) : Shaped t
  /-- A literal between ticks. -/
  | ticked {c : Char} (hc : isIdentChar c = true ∨ c = '-') : Shaped ['\'', c, '\'']
  /-- A literal in quotation marks, perhaps behind the letter of a base. -/
  | quoted {p x : Text} (hp : p = [] ∨ ∃ base, p = [base] ∧ base.isAlpha = true)
      (hx : ∀ before, Lexeme.at before ('"' :: x) = .literal (x.length + 1))
      (hlast : x.getLast? = some '"') : Shaped (p ++ '"' :: x)
  /-- A field of a record. -/
  | member {a g g' b : Text} (ha : IsRun a) (hfree : isReserved a = false) (hg : g.all isBlank = true)
      (hg' : g'.all isBlank = true) (hb : IsRun b) (hfree' : isReserved b = false) :
      Shaped (a ++ (g ++ '.' :: (g' ++ b)))
  /-- An attribute of an object. -/
  | designated {a g d : Text} (ha : IsRun a) (hfree : isReserved a = false) (hg : g.all isBlank = true)
      (hd : IsRun d) : Shaped (a ++ (g ++ '\'' :: d))
  /-- A pair of parentheses. -/
  | group {t : Text} (h : IsGroup t) : Shaped t
  /-- A pair of parentheses behind a name. -/
  | call {a g t : Text} (ha : IsRun a) (hfree : isReserved a = false) (hg : g.all isBlank = true)
      (h : IsGroup t) : Shaped (a ++ (g ++ t))
  /-- A negation. -/
  | negation {w g t : Text} (hw : sameWord "not".toList w = true) (hg : g.all isBlank = true)
      (hgap : (g ++ t).head?.any isIdentChar = false) (h : Shaped t) : Shaped (w ++ (g ++ t))
  /-- Two expressions with an operator between them. -/
  | binary {l w r : Text} (hl : Reaches none 0 l (w ++ r) 0) (hw : Reaches (lastOr none l) 0 w r 0)
      (hop : Operator.StandsIn (lastOr none l) w r) (h : Shaped l) (h' : Shaped r) :
      Shaped (l ++ (w ++ r))

theorem Shaped.of_trim {t : Text} (h : Shaped (trim t)) : Shaped t := by
  obtain ⟨g, g', hg, hg', ht⟩ := exists_pad_trim t
  rw [ht, List.append_assoc]
  exact .pad hg hg' h

theorem shaped_of_ofText? {t : Text} {n : Ident} (h : Ident.ofText? t = some n) : Shaped t := by
  rw [← Ident.of_ofText? h]
  exact .word n.isRun n.not_isReserved

/-! ### Literals -/

theorem quoted_of_quotedBody? {x body : Text} (h : VectorLiteral.quotedBody? x = some body) :
    (∀ n, Lexeme.quotedLength n x = n + x.length) ∧ x.getLast? = some '"' := by
  fun_induction VectorLiteral.quotedBody? x generalizing body with
  | case1 => exact ⟨fun n => rfl, rfl⟩
  | case2 rest ih =>
    obtain ⟨body, hbody, -⟩ := Option.map_eq_some_iff.1 h
    obtain ⟨hlen, hlast⟩ := ih hbody
    refine ⟨fun n => ?_, by rw [List.getLast?_cons, List.getLast?_cons, hlast]; rfl⟩
    rw [Lexeme.quotedLength, hlen, List.length_cons, List.length_cons]
    omega
  | case3 => cases h
  | case4 c rest h1 h2 hc ih =>
    obtain ⟨body, hbody, -⟩ := Option.map_eq_some_iff.1 h
    obtain ⟨hlen, hlast⟩ := ih hbody
    rw [Bool.or_eq_true, beq_iff_eq, beq_iff_eq, not_or] at hc
    refine ⟨fun n => ?_, by rw [List.getLast?_cons, hlast]; rfl⟩
    rw [Lexeme.quotedLength, hlen, List.length_cons]
    · omega
    · exact fun r he => absurd he hc.1
    · exact hc.1
    · exact hc.2
  | case5 => cases h

theorem shaped_quoted {p x body : Text} (hp : p = [] ∨ ∃ base, p = [base] ∧ base.isAlpha = true)
    (h : VectorLiteral.quotedBody? x = some body) : Shaped (p ++ '"' :: x) := by
  obtain ⟨hlen, hlast⟩ := quoted_of_quotedBody? h
  refine .quoted hp (fun before => ?_) hlast
  rw [Lexeme.at, hlen, Nat.add_comm]

theorem shaped_of_readVector {expr : Text → Option Expr} {literal : Text → Option Literal} {t : Text}
    {v : VectorLiteral} (h : VectorLiteral.readWith expr literal t = some v) : Shaped t := by
  refine Shaped.of_trim ?_
  simp only [VectorLiteral.readWith] at h
  obtain ⟨-, h⟩ := Option.ite_none_left_eq_some.1 h
  split at h
  · obtain ⟨elements, helements, -⟩ := Option.map_eq_some_iff.1 h
    simp only [VectorLiteral.readAggregate, Option.bind_eq_bind] at helements
    obtain ⟨⟨inner, after⟩, hgroup, helements⟩ := Option.bind_eq_some_iff.1 helements
    obtain ⟨hafter, -⟩ := Option.ite_none_left_eq_some.1 helements
    have hnil : after = [] := by simp_all
    subst hnil
    exact .group (isGroup_of_parenthesised? hgroup)
  · next rest hquote =>
    obtain ⟨body, hbody, -⟩ := Option.bind_eq_some_iff.1 h
    rw [hquote]
    exact shaped_quoted (.inl rfl) hbody
  · rename_i base rest _ _ hquote
    obtain ⟨-, h⟩ := Option.ite_none_right_eq_some.1 h
    obtain ⟨body, hbody, hbase⟩ := Option.bind_eq_some_iff.1 h
    rw [hquote]
    refine shaped_quoted (p := [base]) (.inr ⟨base, rfl, ?_⟩) hbody
    rw [← isAlpha_toLower]
    by_contra hnone
    have hne : ∀ c : Char, c.isAlpha = true → (base.toLower == c) = false := by
      rintro c hc
      rw [beq_eq_false_iff_ne]
      rintro rfl
      exact hnone hc
    simp [VectorLiteral.readBased, hne] at hbase
  · cases h

theorem shaped_of_readNested {expr : Text → Option Expr} {fuel : Nat} {t : Text} {l : Literal}
    (h : Literal.readNested expr fuel t = some l) : Shaped t := by
  cases fuel with
  | zero => cases h
  | succ fuel =>
    refine Shaped.of_trim ?_
    have hne : trim t ≠ [] := by
      intro hnil
      simp [Literal.readNested, hnil] at h
    simp only [Literal.readNested] at h
    obtain ⟨-, h⟩ := Option.ite_none_left_eq_some.1 h
    split at h
    · next c hc =>
      rw [hc]
      exact .ticked (Literal.ticked_of_readTicked h)
    · rw [Literal.readPlain] at h
      have hword : ∀ w : Text, IsRun w → isReserved w = false → sameWord (trim t) w = true →
          Shaped (trim t) := by
        intro w hw hfree hsame
        rw [sameWord_iff] at hsame
        refine .word ⟨hne, ?_⟩ ?_
        · rw [← all_isIdentChar_fold, hsame, all_isIdentChar_fold, hw.ident]
        · rwa [isReserved, hsame]
      split at h
      · next htrue => exact hword _ (by decide) (by decide) htrue
      split at h
      · next hfalse => exact hword _ (by decide) (by decide) hfalse
      split at h
      · next n hn =>
        refine .number hne fun c hc => ?_
        by_contra hreal
        rw [Integer64.read_eq_none hc] at hn
        · cases hn
        · simp only [Real64.isRealChar, Bool.or_eq_true, not_or, Bool.not_eq_true] at hreal
          simp [hreal]
      split at h
      · obtain ⟨x, hx, -⟩ := Option.map_eq_some_iff.1 h
        refine .number hne fun c hc => ?_
        by_contra hreal
        rw [Real64.read_eq_none_of_mem hc (by simpa using hreal)] at hx
        cases hx
      · obtain ⟨v, hv, -⟩ := Option.map_eq_some_iff.1 h
        exact shaped_of_readVector hv

/-! ### References -/

/-- A pair of parentheses that ends a text, behind a name. -/
theorem shaped_of_span {t : Text} {n : Ident} {start : Nat} (hopen : '(' ∈ t)
    (hname : Ident.ofText? (trimEnd (t.takeWhile (· != '('))) = some n)
    (hspan : balancedSpan? '(' ')' t = some (start, t.length)) : Shaped t := by
  obtain ⟨name, rest, hcut⟩ := exists_splitOnce hopen
  obtain ⟨rfl, hprefix⟩ := eq_of_splitOnce hcut
  rw [← hprefix] at hname
  obtain ⟨g, hg, hsplit⟩ := exists_pad_trimEnd name
  rw [← Ident.of_ofText? hname] at hsplit
  subst hsplit
  have hplain : (n.text ++ g).all isPlain = true := by
    rw [List.all_append, all_isPlain_of_ident n.isRun.ident, all_isPlain_of_blank hg]
    rfl
  have hnot : ∀ c, isIdentChar c = false → isBlank c = false → c ∉ n.text ++ g := by
    intro c hident hblank hc
    rcases List.mem_append.1 hc with hc | hc
    · exact not_mem_of_ident n.isRun.ident hident hc
    · exact not_mem_of_blank hg hblank hc
  simp only [balancedSpan?, show (('(' : Char).toNat < 128 && (')' : Char).toNat < 128) = true
    from rfl, if_true, Option.map_eq_some_iff, codePoints] at hspan
  obtain ⟨span, hclose, hspan⟩ := hspan
  rw [closeGroup_plain hplain (hnot _ (by decide) (by decide)) (hnot _ (by decide) (by decide)),
    Nat.zero_add] at hclose
  rw [List.append_assoc]
  refine .call n.isRun n.not_isReserved hg ?_
  have hinner := hclose
  rw [codePointsFrom_code _ _ (at_open rest), closeGroup] at hinner
  simp only [beq_self_eq_true, if_true] at hinner
  obtain ⟨p, -, -, rfl⟩ := exists_of_closeGroup hinner
  refine isGroup_of_closeGroup rfl hclose ?_
  rw [(Prod.mk.inj hspan).2, List.length_append]

theorem shaped_of_reference {expr : Text → Option Expr} {t : Text} {r : Reference}
    (h : Reference.readWith expr t = some r) : Shaped t := by
  refine Shaped.of_trim ?_
  simp only [Reference.readWith] at h
  split at h
  · next n hn => exact shaped_of_ofText? hn
  split at h
  · obtain ⟨hopen, h⟩ := Option.ite_none_right_eq_some.1 h
    simp only [Reference.readIndexed, Option.bind_eq_bind] at h
    obtain ⟨⟨start, stop⟩, hspan, h⟩ := Option.bind_eq_some_iff.1 h
    obtain ⟨hcut, h⟩ := Option.ite_none_left_eq_some.1 h
    obtain ⟨hstart, hstop⟩ : start = ((trim t).takeWhile (· != '(')).length ∧ stop = (trim t).length := by
      simpa using hcut
    obtain ⟨name, hname, -⟩ := Option.bind_eq_some_iff.1 h
    exact shaped_of_span (List.contains_iff_mem.1 hopen) hname (by rw [hspan, hstop])
  split at h
  · next record field hsplit =>
    simp only [Option.bind_eq_bind] at h
    obtain ⟨a, ha, h⟩ := Option.bind_eq_some_iff.1 h
    obtain ⟨b, hb, -⟩ := Option.bind_eq_some_iff.1 h
    obtain ⟨g₁, g₂, hg₁, hg₂, hrecord⟩ := exists_pad_trim record
    obtain ⟨g₃, g₄, hg₃, hg₄, hfield⟩ := exists_pad_trim field
    rw [← Ident.of_ofText? ha] at hrecord
    rw [← Ident.of_ofText? hb] at hfield
    have hmember : Shaped (a.text ++ (g₂ ++ '.' :: (g₃ ++ b.text))) :=
      .member a.isRun a.not_isReserved hg₂ hg₃ b.isRun b.not_isReserved
    have := Shaped.pad hg₁ hg₄ hmember
    rw [(eq_of_splitOnce hsplit).1, hrecord, hfield]
    simpa only [List.append_assoc, List.cons_append] using this
  · simp only [Option.bind_eq_bind] at h
    obtain ⟨⟨object, designator⟩, hsplit, h⟩ := Option.bind_eq_some_iff.1 h
    obtain ⟨a, ha, h⟩ := Option.bind_eq_some_iff.1 h
    obtain ⟨d, hd, -⟩ := Option.bind_eq_some_iff.1 h
    obtain ⟨hident, -⟩ := Option.ite_none_right_eq_some.1 hd
    rw [Bool.and_eq_true] at hident
    obtain ⟨g, hg, hobject⟩ := exists_pad_trimEnd object
    rw [← Ident.of_ofText? ha] at hobject
    rw [(eq_of_splitOnce hsplit).1, hobject, List.append_assoc]
    refine .designated a.isRun a.not_isReserved hg ⟨?_, hident.2⟩
    rintro rfl
    cases hident.1

/-! ### Expressions -/

section Shapes

variable {code expr : Text → Option Expr} {t : Text} {e : Expr}

theorem shaped_of_callShape? {n : Ident} {inner : Text} (h : callShape? t = some (n, inner)) :
    Shaped t := by
  simp only [callShape?, Option.bind_eq_bind] at h
  obtain ⟨-, h⟩ := Option.ite_none_left_eq_some.1 h
  obtain ⟨n, hn, h⟩ := Option.bind_eq_some_iff.1 h
  obtain ⟨⟨inner', after⟩, hgroup, h⟩ := Option.bind_eq_some_iff.1 h
  obtain ⟨hafter, -⟩ := Option.ite_none_right_eq_some.1 h
  obtain rfl := List.isEmpty_iff.1 hafter
  rw [drop_length_takeWhile] at hgroup
  obtain ⟨g, hg, hname⟩ := exists_pad_trimEnd (t.takeWhile (· != '('))
  rw [← List.takeWhile_append_dropWhile (p := (· != '(')) (l := t), hname, ← Ident.of_ofText? hn,
    List.append_assoc]
  exact .call n.isRun n.not_isReserved hg (isGroup_of_parenthesised? hgroup)

variable (hcode : ∀ u e, code u = some e → Shaped u)

include hcode

theorem shaped_of_readOperand (h : readOperand code expr t = some e) : Shaped t := by
  simp only [readOperand, Option.bind_eq_bind] at h
  split at h
  · obtain ⟨⟨inner, after⟩, hgroup, h⟩ := Option.bind_eq_some_iff.1 h
    obtain ⟨hafter, -⟩ := Option.ite_none_right_eq_some.1 h
    obtain rfl := List.isEmpty_iff.1 hafter
    exact .group (isGroup_of_parenthesised? hgroup)
  · split at h
    · next operand hnot =>
      obtain ⟨a, ha, -⟩ := Option.map_eq_some_iff.1 h
      obtain ⟨g, w, g', hg, hw, hg', -, hgap, rfl⟩ := exists_of_afterWord? hnot
      have := Shaped.pad hg (show ([] : Text).all isBlank = true from rfl)
        (.negation hw hg' hgap (hcode _ _ ha))
      rwa [List.append_nil] at this
    · obtain ⟨r, hr, -⟩ := Option.map_eq_some_iff.1 h
      exact shaped_of_reference hr

theorem shaped_of_readShape (h : readShape code expr t = some e) : Shaped t := by
  simp only [readShape] at h
  split at h
  · next l hl => exact shaped_of_readNested hl
  split at h
  · next hshape => exact shaped_of_callShape? hshape
  split at h
  · cases h
  · exact shaped_of_readOperand hcode h
  · next ops _ hscan =>
    obtain ⟨o, ho, h⟩ := Option.bind_eq_some_iff.1 h
    simp only [readBinary, Option.bind_eq_bind] at h
    obtain ⟨lhs, hlhs, h⟩ := Option.bind_eq_some_iff.1 h
    obtain ⟨rhs, hrhs, -⟩ := Option.bind_eq_some_iff.1 h
    obtain ⟨l, w, r, hsplit, hl, hr, hreach, hw, hop⟩ :=
      Operator.exists_of_scan hscan (Operator.mem_of_pivot? ho)
    rw [hl] at hlhs
    rw [hr] at hrhs
    rw [hsplit]
    exact .binary hreach hw hop (hcode _ _ hlhs) (hcode _ _ hrhs)

end Shapes

/-- **An expression that can be read has the shape of one.** -/
theorem shaped_of_readCode {room : Nat} {t : Text} {e : Expr} (h : readCode room t = some e) :
    Shaped t := by
  induction room generalizing t e with
  | zero => cases h
  | succ room ih =>
    simp only [readCode] at h
    obtain ⟨-, h⟩ := Option.ite_none_left_eq_some.1 h
    exact (shaped_of_readShape (fun u e => ih) h).of_trim

end Expr
end CanonicalVhdl
