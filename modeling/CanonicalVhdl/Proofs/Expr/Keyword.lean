import CanonicalVhdl.Proofs.Expr.Literal
import Mathlib.Data.List.Chain
import Mathlib.Data.List.DropRight

/-!
# Keywords and expressions

A reserved word that stands outside parentheses, and belongs to no expression, keeps a
text from being read as one.  Whatever operator the reader cuts the text at, the word
stays whole in one of the two parts, and no operand contains it.  So the ranges and the
choice `others` inside parentheses are never mistaken for arguments.

## Main definitions

* `Token.IsClear` — tokens whose text opens no parenthesis, and groups.
* `Token.Parted` — reserved words keep a blank between themselves and their neighbours.

## Main statements

* `Expr.callShape?_eq_none`, `Reference.readIndexed_eq_none` — what is no call.
* `Expr.readCode_eq_none_of_keyword` — no expression has a keyword outside parentheses.
-/

namespace CanonicalVhdl

open Text Token

/-! ## Words between blanks -/

/-- Two runs that are each the whole of what stands between their neighbours are equal,
if one of them stands between blanks alone. -/
theorem Text.run_eq_of_delimited {a w b g r g' : Text} (h : a ++ (w ++ b) = g ++ (r ++ g'))
    (hw : IsRun w) (hr : IsRun r) (hg : g.all isBlank = true) (hg' : g'.all isBlank = true)
    (ha : a.getLast?.any isIdentChar = false) (hb : b.head?.any isIdentChar = false) : w = r := by
  have hgap : g'.head?.any isIdentChar = false := by
    cases g' with
    | nil => rfl
    | cons c g' =>
      have hc : isBlank c = true := List.all_eq_true.1 hg' c (by simp)
      cases hi : isIdentChar c with
      | false => simp [hi]
      | true => rw [isBlank_eq_false_of_isIdentChar hi] at hc; cases hc
  have hblank : ∀ {c : Char} {t : Text}, c ∈ t → t.all isBlank = true → isIdentChar c = false := by
    intro c t hc ht
    cases hi : isIdentChar c with
    | false => rfl
    | true =>
      have := List.all_eq_true.1 ht c hc
      rw [isBlank_eq_false_of_isIdentChar hi] at this
      cases this
  obtain ⟨d, hd⟩ := List.exists_mem_of_ne_nil w hw.ne_nil
  have hdw : isIdentChar d = true := List.all_eq_true.1 hw.ident d hd
  rcases List.append_eq_append_iff.1 h with ⟨c, rfl, hc⟩ | ⟨c, rfl, hc⟩
  · -- The padding goes on past `a`, so the word would start with a blank.
    cases c with
    | nil => exact (run_unique (by simpa using hc) hw.ident hr.ident hb hgap).1
    | cons e c =>
      cases w with
      | nil => exact absurd rfl hw.ne_nil
      | cons f w =>
        have hef : f = e := by simpa using congrArg List.head? hc
        have := hblank (c := e) (by simp) hg
        rw [← hef, List.all_eq_true.1 hw.ident f (by simp)] at this
        cases this
  · -- The padding ends within `a`; what is left of `a` ends before the run does, or after it.
    cases hcc : c.getLast? with
    | none =>
      rw [List.getLast?_eq_none_iff] at hcc
      subst hcc
      exact (run_unique (by simpa using hc.symm) hw.ident hr.ident hb hgap).1
    | some e =>
      have he : isIdentChar e = false := by
        rw [List.getLast?_append, hcc] at ha
        simpa using ha
      rcases List.append_eq_append_iff.1 hc with ⟨x, rfl, hx⟩ | ⟨x, hx, hx'⟩
      · -- The run ends within `c`, so the word stands in the padding behind it.
        have := hblank (c := d) (t := g') (by rw [hx]; simp [hd]) hg'
        rw [hdw] at this
        cases this
      · exact absurd (hr.not_mem he) (by rw [hx]; simp [List.mem_of_getLast? hcc])

/-- A reserved word between blanks is part of no identifier. -/
theorem Ident.ofText?_eq_none_of_delimited {a w b t : Text} (hw : IsRun w)
    (hres : isReserved w = true) (ha : a.getLast?.any isIdentChar = false)
    (hb : b.head?.any isIdentChar = false) (g g' : Text) (hg : g.all isBlank = true)
    (hg' : g'.all isBlank = true) (h : a ++ (w ++ b) = g ++ (t ++ g')) : Ident.ofText? t = none := by
  cases hi : Ident.ofText? t with
  | none => rfl
  | some i =>
    have hword := run_eq_of_delimited h hw (Ident.of_ofText? hi ▸ i.isRun) hg hg' ha hb
    rw [Ident.ofText?_eq_none_of_isReserved (hword ▸ hres)] at hi
    cases hi

/-- Whether blanks keep a word apart from the texts before and after it. -/
structure Text.Delimits (a b : Text) : Prop where
  /-- What precedes ends with a blank. -/
  before : a = [] ∨ a.getLast? = some ' '
  /-- What follows starts with a blank. -/
  after : b = [] ∨ b.head? = some ' '

theorem Text.Delimits.getLast? {a b : Text} (h : Delimits a b) :
    a.getLast?.any isIdentChar = false := by
  rcases h.before with rfl | h
  · rfl
  · rw [h]; rfl

theorem Text.Delimits.head? {a b : Text} (h : Delimits a b) : b.head?.any isIdentChar = false := by
  rcases h.after with rfl | h
  · rfl
  · rw [h]; rfl

/-- Trimming the end stops at a character that is no blank. -/
theorem Text.mem_trimEnd {s u : Text} {c d : Char} (hc : c ∈ s) (hd : isBlank d = false) :
    c ∈ trimEnd (s ++ d :: u) := by
  obtain ⟨g, hg, ht⟩ := exists_pad_trimEnd (s ++ d :: u)
  rcases List.append_eq_append_iff.1 ht with ⟨x, hx, -⟩ | ⟨x, hx, hx'⟩
  · rw [hx]; simp [hc]
  · have hmem : d ∈ g := by rw [hx']; simp
    rw [List.all_eq_true.1 hg d hmem] at hd
    cases hd

/-! ## Texts that are no calls -/

namespace Token

/-- Whether a token opens no parenthesis in its text, or is a group. -/
def IsClear (token : Token) : Prop :=
  (∀ inner, token ≠ group inner) → '(' ∉ token.text

theorem isClear_of_isCalm {token : Token} {before next : Option Char} (h : token.Fits before next)
    (hc : token.isCalm = true) : token.IsClear := by
  intro hg
  cases token with
  | group inner => exact absurd rfl (hg inner)
  | word w => exact h.1.not_mem (by decide)
  | number digits => exact fun hm => absurd (List.all_eq_true.1 h.2.1 _ hm) (by decide)
  | quoted body => simpa [isCalm] using hc
  | ticked c =>
    have hne : c ≠ '(' := bne_iff_ne.1 hc
    simp [hne.symm]
  | symbol s =>
    have key : ∀ s ∈ symbols, '(' ∉ s := by decide
    exact key s h.1
  | mark c =>
    have key : ∀ c ∈ marks, '(' ∉ [c] := by decide
    exact key c h.1

theorem exists_group (ts : List Token) : (∀ t ∈ ts, ∀ inner, t ≠ group inner) ∨
    ∃ pre inner post, ts = pre ++ group inner :: post ∧ ∀ t ∈ pre, ∀ inner, t ≠ group inner := by
  induction ts with
  | nil => exact .inl (by simp)
  | cons t ts ih =>
    by_cases hg : ∃ inner, t = group inner
    · obtain ⟨inner, rfl⟩ := hg
      exact .inr ⟨[], inner, ts, rfl, by simp⟩
    · have ht : ∀ inner, t ≠ group inner := fun inner h => hg ⟨inner, h⟩
      rcases ih with h | ⟨pre, inner, post, rfl, h⟩
      · exact .inl (by simpa [ht] using h)
      · exact .inr ⟨t :: pre, inner, post, rfl, by simpa [ht] using h⟩

theorem takeWhile_render {ts : List Token} (hc : ∀ t ∈ ts, t.IsClear)
    (hg : ∀ t ∈ ts, ∀ inner, t ≠ group inner) (u : Text) :
    (render ts ++ u).takeWhile (· != '(') = render ts ++ u.takeWhile (· != '(') := by
  induction ts with
  | nil => rfl
  | cons t ts ih =>
    have ht : ∀ c ∈ t.text, (c != '(') = true := by
      intro c hcm
      rw [bne_iff_ne]
      rintro rfl
      exact hc t (by simp) (hg t (by simp)) hcm
    rw [render_cons, List.append_assoc, List.takeWhile_append_of_pos ht,
      ih (fun t hm => hc t (by simp [hm])) fun t hm => hg t (by simp [hm]), List.append_assoc]

end Token

section Calls

variable {l r : List Token} {x : Token} {expr : Text → Option Expr}

/-- The name and the first group of a text with a token outside that belongs to no name:
either the name is no identifier, or something follows the group. -/
theorem Token.name_or_group (hfit : FitAll none (l ++ x :: r) none) (hl : ∀ t ∈ l, t.IsClear)
    (hx : '(' ∉ x.text) (hname : ∀ y, y <+: render r →
      Ident.ofText? (trimEnd (render l ++ (x.text ++ y))) = none) :
    Ident.ofText? (trimEnd ((render (l ++ x :: r)).takeWhile (· != '('))) = none ∨
      ∃ pre inner u, render (l ++ x :: r) = render pre ++ ((group inner).text ++ u) ∧ u ≠ [] ∧
        (render (l ++ x :: r)).takeWhile (· != '(') = render pre ∧
        FitAll none (pre ++ [group inner]) u.head? ∧ ∀ t ∈ pre, ∀ i, t ≠ group i := by
  rcases exists_group l with hg | ⟨pre, inner, post, rfl, hg⟩
  · left
    have htake : (render (l ++ x :: r)).takeWhile (· != '(')
        = render l ++ (x.text ++ (render r).takeWhile (· != '(')) := by
      have hxc : ∀ c ∈ x.text, (c != '(') = true := by
        intro c hc
        rw [bne_iff_ne]
        rintro rfl
        exact hx hc
      rw [render_append, render_cons, takeWhile_render hl hg, List.takeWhile_append_of_pos hxc]
    rw [htake]
    exact hname _ (List.takeWhile_prefix _)
  · right
    have hsplit : (pre ++ group inner :: post) ++ x :: r
        = (pre ++ [group inner]) ++ (post ++ x :: r) := by simp
    rw [hsplit] at hfit ⊢
    obtain ⟨hleft, hright⟩ := fitAll_append.1 hfit
    rw [firstOr, Option.or_none] at hleft
    have hxfit := (fitAll_append.1 hright).2.1
    refine ⟨pre, inner, render (post ++ x :: r), by simp, by simp [hxfit.text_ne_nil], ?_, hleft, hg⟩
    rw [List.append_assoc, render_append,
      takeWhile_render (fun t hm => hl t (by simp [hm])) hg]
    simp

/-- A text with a token outside that belongs to no name is no call. -/
theorem Expr.callShape?_eq_none (hfit : FitAll none (l ++ x :: r) none)
    (hl : ∀ t ∈ l, t.IsClear) (hx : '(' ∉ x.text) (hname : ∀ y, y <+: render r →
      Ident.ofText? (trimEnd (render l ++ (x.text ++ y))) = none) :
    Expr.callShape? (render (l ++ x :: r)) = none := by
  rw [Expr.callShape?]
  split
  · rfl
  · rcases name_or_group hfit hl hx hname with h | ⟨pre, inner, u, ht, hu, htake, hleft, hg⟩
    · simp only [h, Option.bind_eq_bind, Option.bind_none]
    · obtain ⟨-, hgroup, -⟩ := fitAll_append.1 hleft
      have hempty : u.isEmpty = false := by simpa using hu
      have hdrop : (render (l ++ x :: r)).drop (render pre).length
          = (Token.group inner).text ++ u := by
        rw [ht, List.drop_left' rfl]
      simp only [htake, hdrop, parenthesised?_group hgroup, Option.bind_eq_bind, Option.bind_some,
        hempty]
      cases Ident.ofText? (trimEnd (render pre)) with
      | none => rfl
      | some i => rfl

/-- A text with a token outside that belongs to no name is no indexed name. -/
theorem Reference.readIndexed_eq_none (hfit : FitAll none (l ++ x :: r) none)
    (hl : ∀ t ∈ l, t.IsClear) (hx : '(' ∉ x.text) (hname : ∀ y, y <+: render r →
      Ident.ofText? (trimEnd (render l ++ (x.text ++ y))) = none) :
    Reference.readIndexed expr (render (l ++ x :: r)) = none := by
  rcases name_or_group hfit hl hx hname with h | ⟨pre, inner, u, ht, hu, htake, hleft, hg⟩
  · simp only [Reference.readIndexed, Option.bind_eq_bind, h, Option.bind_none]
    rw [Option.bind_eq_none_iff]
    intro span _
    split <;> rfl
  · have hspan := balancedSpan?_group hleft hg
    have hstop : ((render pre).length + (render inner).length + 2
        != (render (l ++ x :: r)).length) = true := by
      have := List.length_pos_iff.2 hu
      rw [ht, bne_iff_ne]
      simp
      omega
    rw [← ht] at hspan
    simp only [Reference.readIndexed, hspan, Option.bind_eq_bind, Option.bind_some, hstop,
      Bool.or_true, if_true]

end Calls

/-! ## Keywords between blanks -/

namespace Token

/-- Whether a token is a reserved word. -/
def isKeyword : Token → Bool
  | word w => isReserved w
  | _ => false

/-- Two neighbours keep a blank between them if either is a reserved word; the designator
`range` needs none before it. -/
def Parted (t u : Token) : Prop :=
  (t.isKeyword = true → u = mark ' ') ∧
    ∀ w, u = word w → isReserved w = true → sameWord w "range".toList = false → t = mark ' '

/-- Whether a token may stand in a text that is cut into operands. -/
def IsMild (t : Token) : Prop :=
  t.isCalm = true ∨ ∃ w, t = word w

theorem isScanned_of_isMild {t : Token} (h : t.IsMild) : t.isScanned = true := by
  rcases h with h | ⟨w, rfl⟩
  · exact isScanned_of_isCalm h
  · rfl

theorem isClear_of_isMild {t : Token} {before next : Option Char} (hf : t.Fits before next)
    (h : t.IsMild) : t.IsClear := by
  rcases h with h | ⟨w, rfl⟩
  · exact isClear_of_isCalm hf h
  · exact fun _ => hf.1.not_mem (by decide)

/-- A word that stands outside the parentheses of no expression is reserved, is no
operator and is not `range`. -/
theorem keyword_of_not_isCalm {w : Text} (h : (word w).isCalm = false) :
    isReserved w = true ∧ sameWord w "range".toList = false ∧
      sameWord w "not".toList = false ∧ ∀ operand, (word w).operator? operand = none := by
  simp only [isCalm, Bool.or_eq_false_iff, Bool.not_eq_false'] at h
  have hne : ∀ v ∈ expressionWords, sameWord w v = false := by
    intro v hv
    cases hs : sameWord w v with
    | false => rfl
    | true =>
      have hfold : ∀ v ∈ expressionWords, fold v = v := by decide
      rw [sameWord_iff, hfold v hv] at hs
      rw [hs] at h
      simp [hv] at h
  refine ⟨h.2, hne _ (by decide), hne _ (by decide), fun operand => ?_⟩
  have key : ∀ p ∈ BinaryOp.words, p.1.toList ∈ expressionWords := by decide
  simp only [operator?, BinaryOp.ofWord?, Option.map_eq_none_iff, List.find?_eq_none]
  intro p hp
  simpa using hne _ (key p hp)

theorem isName_of_isReserved {w : Text} (h : isReserved w = true) : IsName w := by
  have key : ∀ v ∈ reservedWords, fold v = v ∧
      (v.head?.any Char.isAlpha && v.all isIdentChar) = true := by decide +kernel
  rw [isReserved, List.contains_eq_mem, decide_eq_true_eq] at h
  obtain ⟨hfold, hname⟩ := key _ h
  exact IsName.of_sameWord (isName_of_all hname) (sameWord_iff.2 hfold.symm)

/-- What follows an operator may stand at the start of a text. -/
theorem FitAll.of_operator {x : Token} {b : List Token} {before before' next next' : Option Char}
    {operand : Bool} {op : BinaryOp} (h : FitAll before b next) (hx : x.Fits before' next')
    (hop : x.operator? operand = some op) (hchain : List.IsChain Parted (x :: b))
    (hb : before = lastOr before' x.text) : FitAll none b next := by
  cases x with
  | word w =>
    simp only [operator?, BinaryOp.ofWord?, Option.map_eq_some_iff] at hop
    obtain ⟨p, hp, -⟩ := hop
    have hres : isReserved w = true := by
      have hs : sameWord w p.1.toList = true := by simpa using List.find?_some hp
      rw [isReserved_congr hs]
      exact isReserved_operators.1 p (List.mem_of_find?_eq_some hp)
    cases b with
    | nil => trivial
    | cons t b =>
      obtain rfl : t = mark ' ' := (List.isChain_cons_cons.1 hchain).1.1 hres
      exact h.of_blank
  | symbol s =>
    have key : ∀ s ∈ symbols, s ≠ [] ∧ Lexeme.bindsTick s.getLast? = false := by decide
    obtain ⟨hne, hbind⟩ := key s hx.1
    refine h.of_opens ?_
    rw [hb, text_symbol, lastOr_of_ne_nil hne]
    exact hbind
  | mark c =>
    have key : ∀ c ∈ marks, Lexeme.bindsTick (some c) = false := by decide
    refine h.of_opens ?_
    rw [hb]
    exact key c hx.1
  | number | quoted | ticked | group => cases hop

/-- The operators of a sequence are among its tokens. -/
theorem exists_of_mem_operators {ts : List Token} {operand : Bool} {position : Nat} {o : Operator}
    (h : o ∈ operators operand position ts) :
    ∃ a x b operand', ts = a ++ x :: b ∧ o.start = position + (render a).length ∧
      o.stop = o.start + x.text.length ∧ x.operator? operand' = some o.op := by
  induction ts generalizing operand position with
  | nil => cases h
  | cons t ts ih =>
    rw [operators, List.mem_append] at h
    rcases h with h | h
    · simp only [operatorAt, Option.mem_toList, Option.map_eq_some_iff] at h
      obtain ⟨op, hop, rfl⟩ := h
      exact ⟨[], t, ts, operand, rfl, by simp, rfl, hop⟩
    · obtain ⟨a, x, b, operand', rfl, hs, he, hop⟩ := ih h
      exact ⟨t :: a, x, b, operand', rfl, by simp [hs]; omega, he, hop⟩

/-- A sequence with the blanks at its start taken off. -/
theorem exists_stripStart (ts : List Token) : ∃ g us, (∀ c ∈ g, c = ' ') ∧
    ts = pad g ++ us ∧ us.head? ≠ some (mark ' ') := by
  induction ts with
  | nil => exact ⟨[], [], by simp, rfl, by simp⟩
  | cons t ts ih =>
    by_cases h : t = mark ' '
    · obtain ⟨g, us, hg, rfl, hus⟩ := ih
      exact ⟨' ' :: g, us, by simpa using hg, by rw [h]; rfl, hus⟩
    · exact ⟨[], t :: ts, by simp, rfl, by simpa using h⟩

/-- A sequence with the blanks at its ends taken off. -/
theorem exists_strip {ts : List Token} (h : ∃ t ∈ ts, t ≠ mark ' ') :
    ∃ g us g', IsPad g ∧ IsPad g' ∧ ts = pad g ++ (us ++ pad g') ∧ us ≠ [] ∧
      us.head? ≠ some (mark ' ') ∧ us.getLast? ≠ some (mark ' ') := by
  obtain ⟨g, us, hg, rfl, hus⟩ := exists_stripStart ts
  obtain ⟨g', vs, hg', hrev, hvs⟩ := exists_stripStart us.reverse
  have hpad : (pad g').reverse = pad g'.reverse := List.map_reverse.symm
  obtain rfl : us = vs.reverse ++ pad g'.reverse := by
    rw [← hpad, ← List.reverse_append, ← hrev, List.reverse_reverse]
  have hne : vs.reverse ≠ [] := by
    rintro hnil
    obtain ⟨t, ht, hb⟩ := h
    rw [hnil, List.nil_append, List.mem_append] at ht
    rcases ht with ht | ht
    · obtain ⟨c, hc, rfl⟩ := List.mem_map.1 ht
      exact hb (by rw [hg c hc])
    · obtain ⟨c, hc, rfl⟩ := List.mem_map.1 ht
      exact hb (by rw [hg' c (by simpa using hc)])
  refine ⟨g, vs.reverse, g'.reverse, fun c hc => .inl (hg c hc),
    fun c hc => .inl (hg' c (by simpa using hc)), rfl, hne, ?_, by simpa using hvs⟩
  rwa [List.head?_append, List.head?_eq_some_head hne, Option.some_or,
    ← List.head?_eq_some_head hne] at hus

/-- The text of a token that is no blank is solid. -/
theorem solid_of_fits {t : Token} {before next : Option Char} (h : t.Fits before next)
    (hm : t.IsMild) (hb : t ≠ mark ' ') : Solid t.text := by
  cases t with
  | word w => exact h.1.solid
  | number digits =>
    refine solid_of_forall h.text_ne_nil fun c hc => isBlank_of_isNumberChar ?_
    exact List.all_eq_true.1 h.2.1 c hc
  | quoted body => exact solid_enclosed (by decide) (by decide) body
  | ticked c => exact solid_enclosed (by decide) (by decide) [c]
  | symbol s =>
    have key : ∀ s ∈ symbols, s ≠ [] ∧ ∀ c ∈ s, isBlank c = false := by decide
    exact solid_of_forall (key s h.1).1 (key s h.1).2
  | mark c =>
    rcases hm with hm | ⟨w, hw⟩
    · have hc : c ∈ [' ', '.', '\'', '-'] := by simpa [isCalm] using hm
      have key : ∀ c ∈ [' ', '.', '\'', '-'], c = ' ' ∨ isBlank c = false := by decide
      rcases key c hc with rfl | hc
      · exact absurd rfl hb
      · exact solid_singleton hc
    · cases hw
  | group inner => exact solid_enclosed (by decide) (by decide) _

/-- A sequence with no blank at either end is solid. -/
theorem solid_render {us : List Token} {before next : Option Char} (h : FitAll before us next)
    (hm : ∀ t ∈ us, t.IsMild) (hne : us ≠ []) (hh : us.head? ≠ some (mark ' '))
    (hl : us.getLast? ≠ some (mark ' ')) : Solid (render us) := by
  have hlast : ∀ (us : List Token) before, FitAll before us next → (∀ t ∈ us, t.IsMild) → us ≠ [] →
      us.getLast? ≠ some (mark ' ') → (render us).getLast?.any isBlank = false := by
    intro us
    induction us with
    | nil => intro _ _ _ hne; exact absurd rfl hne
    | cons t us ih =>
      intro before h hm _ hl
      cases us with
      | nil =>
        have := (solid_of_fits h.1 (hm t (by simp)) (by simpa using hl)).last
        simpa using this
      | cons u us =>
        have hrec := ih _ h.2 (fun t hmem => hm t (by simp [hmem])) (by simp)
          (by rwa [List.getLast?_cons_cons] at hl)
        have hne' : render (u :: us) ≠ [] := by simp [h.2.1.text_ne_nil]
        rwa [render_cons, List.getLast?_append_of_ne_nil _ hne']
  cases us with
  | nil => exact absurd rfl hne
  | cons t us =>
    have ht := solid_of_fits h.1 (hm t (by simp)) (by simpa using hh)
    refine ⟨⟨?_, hlast _ _ h hm hne hl⟩, by simp [h.1.text_ne_nil]⟩
    rw [render_cons, List.head?_append, List.head?_eq_some_head h.1.text_ne_nil, Option.some_or,
      ← List.head?_eq_some_head h.1.text_ne_nil]
    exact ht.head

/-- A word that parts from its neighbours stands between blanks. -/
theorem delimits_of_parted {l r : List Token} {w : Text}
    (h : List.IsChain Parted (l ++ word w :: r)) (hres : isReserved w = true)
    (hrange : sameWord w "range".toList = false) : Delimits (render l) (render r) := by
  obtain ⟨-, hright, hlink⟩ := List.isChain_append.1 h
  constructor
  · rcases List.eq_nil_or_concat l with rfl | ⟨l, t, rfl⟩
    · exact .inl rfl
    · obtain rfl : t = mark ' ' := (hlink t (by simp) (word w) (by simp)).2 w rfl hres hrange
      exact .inr (by simp)
  · cases r with
    | nil => exact .inl rfl
    | cons t r =>
      obtain rfl : t = mark ' ' := (List.isChain_cons_cons.1 hright).1.1 hres
      exact .inr rfl

end Token

/-! ## Keywords in operands -/

section Operands

variable {expr : Text → Option Expr} {a w b : Text}

/-- A text that a character cuts in two has a word in one of the two parts. -/
theorem Text.mem_part_of_cut {x y : Text} {c : Char} (h : a ++ (w ++ b) = x ++ c :: y) (hc : c ∉ w) :
    (∃ b', x = a ++ (w ++ b') ∧ b = b' ++ c :: y) ∨
      ∃ a', y = a' ++ (w ++ b) ∧ a = x ++ c :: a' := by
  rcases List.append_eq_append_iff.1 h with ⟨d, rfl, hd⟩ | ⟨d, rfl, hd⟩
  · rcases List.append_eq_append_iff.1 hd with ⟨e, rfl, he⟩ | ⟨e, rfl, he⟩
    · exact .inl ⟨e, rfl, he⟩
    · cases e with
      | nil => exact .inl ⟨[], by simp, by simpa using he.symm⟩
      | cons f e =>
        obtain ⟨rfl, -⟩ := List.cons_eq_cons.1 he
        exact absurd (by simp) hc
  · cases d with
    | nil =>
      cases w with
      | nil => exact .inl ⟨[], by simp, by simpa using hd.symm⟩
      | cons f w =>
        obtain ⟨rfl, -⟩ := List.cons_eq_cons.1 hd
        exact absurd (by simp) hc
    | cons f d =>
      obtain ⟨rfl, rfl⟩ := List.cons_eq_cons.1 hd
      exact .inr ⟨d, rfl, rfl⟩

section Delimits

variable {x y a' b' : Text} {c : Char}

theorem Text.Delimits.left (h : Delimits a (b' ++ c :: y)) : Delimits a b' := by
  refine ⟨h.before, ?_⟩
  cases b' with
  | nil => exact .inl rfl
  | cons d b' => simpa using h.after

theorem Text.Delimits.right (h : Delimits (x ++ c :: a') b) (hc : c ≠ ' ') :
    Delimits a' b ∧ a' ≠ [] := by
  have hlast := h.before
  rw [List.getLast?_append_of_ne_nil _ (by simp)] at hlast
  cases a' with
  | nil => simp [hc] at hlast
  | cons d a' =>
    refine ⟨⟨.inr ?_, h.after⟩, by simp⟩
    simpa [List.getLast?_cons_cons] using hlast

theorem Text.Delimits.of_isPrefix (h : Delimits a b) (hy : y <+: b) : Delimits a y := by
  refine ⟨h.before, ?_⟩
  obtain ⟨u, rfl⟩ := hy
  cases y with
  | nil => exact .inl rfl
  | cons d y => simpa using h.after

theorem Text.Delimits.ofText?_trim (h : Delimits a b) (hw : IsRun w) (hres : isReserved w = true) :
    Ident.ofText? (trim (a ++ (w ++ b))) = none := by
  obtain ⟨g, g', hg, hg', ht⟩ := exists_pad_trim (a ++ (w ++ b))
  rw [List.append_assoc] at ht
  exact Ident.ofText?_eq_none_of_delimited hw hres h.getLast? h.head? g g' hg hg' ht

theorem Text.Delimits.ofText?_trimEnd (h : Delimits a b) (hw : IsRun w) (hres : isReserved w = true) :
    Ident.ofText? (trimEnd (a ++ (w ++ b))) = none := by
  obtain ⟨g', hg', ht⟩ := exists_pad_trimEnd (a ++ (w ++ b))
  exact Ident.ofText?_eq_none_of_delimited hw hres h.getLast? h.head? [] g' rfl hg' ht

/-- A designator has no blank before its last word. -/
theorem Text.Delimits.readDesignator (h : Delimits a b) (ha : a ≠ []) :
    Reference.readDesignator (a ++ (w ++ b)) = none := by
  have hmem : ' ' ∈ a := List.mem_of_getLast? (h.before.resolve_left ha)
  have hall : (a ++ (w ++ b)).all isIdentChar = false := by
    rw [List.all_eq_false]
    exact ⟨' ', by simp [hmem], by decide⟩
  simp [Reference.readDesignator, hall]

end Delimits

/-- A reserved word between blanks stands in no reference. -/
theorem Reference.readWith_eq_none (ht : Trimmed (a ++ (w ++ b))) (hw : IsName w)
    (hres : isReserved w = true) (hab : Delimits a b)
    (hindexed : Reference.readIndexed expr (a ++ (w ++ b)) = none) :
    Reference.readWith expr (a ++ (w ++ b)) = none := by
  have hnone : Ident.ofText? (a ++ (w ++ b)) = none :=
    Ident.ofText?_eq_none_of_delimited hw.isRun hres hab.getLast? hab.head? [] [] rfl rfl
      (by simp)
  simp only [Reference.readWith, trim_eq_self ht, hnone]
  split
  · split
    · exact hindexed
    · rfl
  · cases hpoint : splitOnce '.' (a ++ (w ++ b)) with
    | some parts =>
      obtain ⟨x, y⟩ := parts
      obtain ⟨hcut, -⟩ := eq_of_splitOnce hpoint
      rcases mem_part_of_cut hcut (hw.isRun.not_mem (by decide)) with ⟨b', rfl, rfl⟩ | ⟨a', rfl, rfl⟩
      · simp only [hab.left.ofText?_trim hw.isRun hres, Option.bind_eq_bind,
          Option.bind_none]
      · simp only [(hab.right (by decide)).1.ofText?_trim hw.isRun hres, Option.bind_eq_bind,
          Option.bind_none, Option.bind_fun_none]
    | none =>
      cases htick : splitOnce '\'' (a ++ (w ++ b)) with
      | none => rfl
      | some parts =>
        obtain ⟨x, y⟩ := parts
        obtain ⟨hcut, -⟩ := eq_of_splitOnce htick
        rcases mem_part_of_cut hcut (hw.isRun.not_mem (by decide)) with
          ⟨b', rfl, rfl⟩ | ⟨a', rfl, rfl⟩
        · simp only [hab.left.ofText?_trimEnd hw.isRun hres, Option.bind_eq_bind,
            Option.bind_some, Option.bind_none]
        · have hnone : Reference.readDesignator (a' ++ (w ++ b)) = none :=
            (hab.right (by decide)).1.readDesignator (hab.right (by decide)).2
          simp only [hnone, Option.bind_eq_bind, Option.bind_some, Option.bind_none,
            Option.bind_fun_none]

end Operands

/-! ## Keywords in expressions -/

/-- Only words start with a letter. -/
theorem Token.word_of_head {t : Token} {before next : Option Char} (h : t.Fits before next)
    (ha : t.text.head?.any Char.isAlpha = true) : ∃ w, t = word w := by
  cases t with
  | word w => exact ⟨w, rfl⟩
  | quoted | group | ticked => cases ha
  | number | symbol | mark =>
    have := h.head_plain (by simp) (by simp) (by simp)
    cases ht : (Token.text _).head? with
    | none => rw [ht] at ha; cases ha
    | some c =>
      rw [ht] at ha this
      rw [Option.any_some] at ha
      simp [ha] at this

/-- The word that is cut off a sequence is its first token. -/
theorem Token.FitAll.word_of_afterWord? {first : Token} {rest : List Token} {w operand : Text}
    (h : FitAll none (first :: rest) none) (ht : Trimmed (render (first :: rest))) (hn : IsName w)
    (hw : afterWord? w (render (first :: rest)) = some operand) :
    ∃ v, first = word v ∧ sameWord w v = true ∧ operand = trimStart (render rest) := by
  have hfirst := h.1
  rw [firstOr, Option.or_none] at hfirst
  have hne : w.isEmpty = false := by simpa using hn.isRun.ne_nil
  simp only [afterWord?, trimStart_eq_self ht.head, wholeWord?, hne, Option.any_none, Bool.or_false,
    Bool.false_eq_true, if_false, dropWordWith, if_true, Option.map_eq_some_iff,
    Option.bind_eq_some_iff] at hw
  obtain ⟨u, ⟨after, hdrop, hident⟩, rfl⟩ := hw
  obtain ⟨x, htext, hx⟩ := dropWord?_eq_some_iff.1 hdrop
  split at hident
  · cases hident
  · rename_i hafter
    obtain rfl := Option.some.inj hident
    have hxn : IsName x := hn.of_sameWord (by rw [sameWord_comm]; exact hx)
    have hhead : first.text.head? = x.head? := by
      have := congrArg List.head? htext
      rwa [render_cons, List.head?_append, List.head?_eq_some_head hfirst.text_ne_nil,
        List.head?_append, List.head?_eq_some_head hxn.isRun.ne_nil, Option.some_or, Option.some_or,
        ← List.head?_eq_some_head, ← List.head?_eq_some_head] at this
    obtain ⟨v, rfl⟩ := word_of_head hfirst (by rw [hhead]; exact hxn.head)
    obtain ⟨rfl, rfl⟩ := run_unique (x := v) htext hfirst.1.ident hxn.ident hfirst.2.2.1 (by simpa using hafter)
    exact ⟨v, rfl, hx, rfl⟩

namespace Expr

variable {expr : Text → Option Expr} {w : Text} {l r : List Token}

/-- A text with a keyword outside parentheses is no literal. -/
theorem readLiteral_eq_none_of_keyword (hfit : FitAll none (l ++ word w :: r) none)
    (hsolid : Solid (render (l ++ word w :: r)))
    (hparted : List.IsChain Parted (l ++ word w :: r)) (hw : (word w).isCalm = false)
    (hname : IsName w) : Literal.readWith expr (render (l ++ word w :: r)) = none := by
  obtain ⟨hres, hrange, -⟩ := keyword_of_not_isCalm hw
  have hsplit := List.isChain_append.1 hparted
  cases l with
  | nil =>
    cases r with
    | nil =>
      -- The word alone is no truth value, since those are not reserved.
      have htext : render ([] ++ [word w]) = w := by simp
      have hbool : ∀ b : Bool, sameWord w (if b then "true" else "false").toList = false := by
        intro b
        cases hs : sameWord w (if b then "true" else "false").toList with
        | false => rfl
        | true =>
          rw [isReserved_congr hs, isReserved_names.2.2 _ (by cases b <;> simp)] at hres
          cases hres
      rw [htext] at hsolid ⊢
      refine Literal.readWith_eq_none_of_alpha hsolid hname.head (fun hq => ?_) hbool
      exact hname.isRun.not_mem (by decide) (List.mem_of_mem_tail (List.mem_of_head? hq))
    | cons t r =>
      obtain rfl : t = mark ' ' := (List.isChain_cons_cons.1 hsplit.2.1).1.1 hres
      exact Literal.readWith_eq_none_of_blank hfit hsolid (by simp)
  | cons first l =>
    rcases List.eq_nil_or_concat l with rfl | ⟨l, t, rfl⟩
    · -- Only a blank may stand before the word, but no text that is trimmed starts with one.
      obtain rfl : first = mark ' ' :=
        (hsplit.2.2 first (by simp) (word w) (by simp)).2 w rfl hres hrange
      exact absurd hsolid.head (by simp; decide)
    · have hlast : t ∈ (first :: l.concat t).getLast? := by
        rw [List.concat_eq_append, ← List.cons_append, List.getLast?_concat]
        rfl
      obtain rfl : t = mark ' ' := (hsplit.2.2 t hlast (word w) (by simp)).2 w rfl hres hrange
      exact Literal.readWith_eq_none_of_blank hfit hsolid (by simp)

theorem readReference_eq_none_of_keyword (hsolid : Solid (render (l ++ word w :: r)))
    (hname : IsName w) (hres : isReserved w = true) (hab : Delimits (render l) (render r))
    (hindexed : Reference.readIndexed expr (render (l ++ word w :: r)) = none) :
    Reference.readWith expr (render (l ++ word w :: r)) = none := by
  have htext : render (l ++ word w :: r) = render l ++ (w ++ render r) := by simp
  rw [htext] at hsolid hindexed ⊢
  exact Reference.readWith_eq_none hsolid.toTrimmed hname hres hab hindexed

/-- Blanks before a text make no difference. -/
theorem readCode_trimStart (n : Nat) (t : Text) : readCode n (trimStart t) = readCode n t := by
  have h : trim (trimStart t) = trim t := by
    rw [trim, trim, trimStart, trimStart, List.dropWhile_idempotent]
  cases n with
  | zero => rfl
  | succ n => simp only [readCode, h]

/-- A text with a keyword outside parentheses is no operand. -/
theorem readOperand_eq_none_of_keyword {n : Nat} {first : Token} {rest : List Token}
    (hfit : FitAll none (first :: rest) none) (hsolid : Solid (render (first :: rest)))
    (hparted : List.IsChain Parted (first :: rest)) (hmild : ∀ t ∈ first :: rest, t.IsMild)
    (hmem : word w ∈ first :: rest) (hw : (word w).isCalm = false)
    (hreference : Reference.readWith expr (render (first :: rest)) = none)
    (ih : FitAll none rest none → word w ∈ rest → readCode n (render rest) = none) :
    readOperand (readCode n) expr (render (first :: rest)) = none := by
  obtain ⟨hres, hrange, hnot, -⟩ := keyword_of_not_isCalm hw
  have hhead : (render (first :: rest)).head? = first.text.head? := by
    rw [render_cons, List.head?_append, List.head?_eq_some_head hfit.1.text_ne_nil]
    rfl
  rw [readOperand]
  split
  · -- A group takes up the whole text, so nothing is left for the word.
    rename_i hopen
    rw [hhead, beq_iff_eq] at hopen
    obtain ⟨inner, rfl⟩ : ∃ inner, first = Token.group inner := by
      by_contra hne
      have hclear := isClear_of_isMild hfit.1 (hmild first (by simp))
      exact hclear (fun inner h => hne ⟨inner, h⟩) (List.mem_of_head? hopen)
    have hrest : word w ∈ rest := by simpa using hmem
    have hempty : (render rest).isEmpty = false := by simpa using hfit.2.render_ne_nil hrest
    have hspan := @parenthesised?_group inner (render rest) hfit.1
    rw [← render_cons] at hspan
    simp only [hspan, Option.bind_eq_bind, Option.bind_some, hempty, Bool.false_eq_true, if_false]
  · cases hafter : afterWord? "not".toList (render (first :: rest)) with
    | none => simp only [hreference, Option.map_none]
    | some operand =>
      obtain ⟨v, rfl, hv, rfl⟩ := hfit.word_of_afterWord? hsolid.toTrimmed
        (isName_of_all (by decide)) hafter
      have hrest : word w ∈ rest := by
        rcases List.mem_cons.1 hmem with h | h
        · obtain rfl : w = v := by simpa using h
          rw [sameWord_comm, hnot] at hv
          cases hv
        · exact h
      have hkey : isReserved v = true := by
        rw [← isReserved_congr hv]; exact isReserved_operators.2
      cases rest with
      | nil => cases hrest
      | cons t rest =>
        obtain rfl : t = mark ' ' := (List.isChain_cons_cons.1 hparted).1.1 hkey
        simp only [readCode_trimStart, ih hfit.2.of_blank hrest, Option.map_none]

/-- **No expression has a keyword outside its parentheses.** -/
theorem readCode_eq_none_of_keyword : ∀ (n : Nat) (ts : List Token) (w : Text),
    word w ∈ ts → (word w).isCalm = false → FitAll none ts none → List.IsChain Parted ts →
    (∀ t ∈ ts, t.IsMild) → readCode n (render ts) = none := by
  intro n
  induction n with
  | zero => intros; rfl
  | succ n ih =>
    intro ts w hmem hw hfit hparted hmild
    obtain ⟨hres, hrange, -, hop⟩ := keyword_of_not_isCalm hw
    have hname := isName_of_isReserved hres
    obtain ⟨g, us, g', hg, hg', rfl, hne, hhead, hlast⟩ :=
      exists_strip ⟨word w, hmem, by simp⟩
    have hmem : word w ∈ us := by simpa [Token.pad] using hmem
    have hmild : ∀ t ∈ us, t.IsMild := fun t ht => hmild t (by simp [ht])
    have hparted : List.IsChain Parted us := hparted.infix ⟨_, _, by rw [List.append_assoc]⟩
    have hfit : FitAll none us none := by
      obtain ⟨-, hrest⟩ := fitAll_append.1 hfit
      refine (FitAll.of_opens ?_ (fitAll_append.1 hrest).1).of_next
      rw [render_pad]
      exact hg.opens rfl
    have hsolid := solid_render hfit hmild hne hhead hlast
    have htrim : trim (render (pad g ++ (us ++ pad g'))) = render us := by
      simpa using hsolid.trim_pad hg hg'
    obtain ⟨l, r, rfl⟩ := List.append_of_mem hmem
    have hab := delimits_of_parted hparted hres hrange
    have hclear : ∀ t ∈ l, t.IsClear := fun t ht => by
      obtain ⟨a, b, rfl⟩ := List.append_of_mem ht
      exact isClear_of_isMild (fitAll_append.1 (fitAll_append.1 hfit).1).2.1 (hmild t (by simp))
    have hident : ∀ y, y <+: render r →
        Ident.ofText? (trimEnd (render l ++ ((word w).text ++ y))) = none := fun y hy =>
      (hab.of_isPrefix hy).ofText?_trimEnd hname.isRun hres
    have hopen : '(' ∉ (word w).text := hname.isRun.not_mem (by decide)
    simp only [readCode, htrim]
    split
    · rfl
    · rw [readShape, readLiteral_eq_none_of_keyword hfit hsolid hparted hw hname,
        callShape?_eq_none hfit hclear hopen hident,
        scan_render (fun t ht => isScanned_of_isMild (hmild t ht)) hfit]
      simp only
      cases hops : operators false 0 (l ++ word w :: r) with
      | nil =>
        simp only
        have hindexed := @Reference.readIndexed_eq_none _ _ _
          (fun u => readCode n (withoutComments u)) hfit hclear hopen hident
        have hreference := readReference_eq_none_of_keyword hsolid hname hres hab hindexed
        cases hus : l ++ word w :: r with
        | nil => simp at hus
        | cons first rest =>
          rw [hus] at hfit hsolid hparted hmild hmem hreference
          refine readOperand_eq_none_of_keyword hfit hsolid hparted hmild hmem hw hreference ?_
          intro hrest hmem
          exact ih rest w hmem hw hrest hparted.tail fun t ht => hmild t (by simp [ht])
      | cons o ops =>
        simp only
        cases hpivot : Operator.pivot? (o :: ops) with
        | none => rfl
        | some o' =>
          obtain ⟨a, x, b, operand, hsplit, hstart, hstop, hx⟩ :=
            exists_of_mem_operators (hops ▸ Operator.mem_of_pivot? hpivot)
          have htake : (render (l ++ word w :: r)).take o'.start = render a := by
            rw [hsplit, hstart, render_append, List.take_left' (by simp)]
          have hdrop : (render (l ++ word w :: r)).drop o'.stop = render b := by
            rw [hsplit, hstop, hstart, render_append, render_cons, ← List.append_assoc,
              List.drop_left' (by simp)]
          have hne : x ≠ word w := by
            rintro rfl
            rw [hop] at hx
            cases hx
          rw [hsplit] at hfit hparted hmild hmem
          obtain ⟨hleft, hright⟩ := fitAll_append.1 hfit
          simp only [Option.bind_some, readBinary, htake, hdrop]
          rcases List.mem_append.1 hmem with ha | hb
          · rw [ih a w ha hw hleft.of_next hparted.left_of_append fun t ht => hmild t (by simp [ht])]
            rfl
          · have hb : word w ∈ b := (List.mem_cons.1 hb).resolve_left (Ne.symm hne)
            have hchain := hparted.right_of_append
            have hfitb := hright.2.of_operator hright.1 hx hchain rfl
            rw [ih b w hb hw hfitb hchain.tail fun t ht => hmild t (by simp [ht])]
            cases readCode n (render a) with
            | none => rfl
            | some e => rfl

end Expr

end CanonicalVhdl
