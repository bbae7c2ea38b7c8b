import CanonicalVhdl.Proofs.Case.Expr
import CanonicalVhdl.Proofs.Comment.Search

/-!
# Expressions right after a word

In `if'1'='0' then` the word binds the tick, so that a scan of the whole text sees code where a
scan of the condition alone sees a literal.  Both scans meet again behind the literal, unless
its character is a hyphen: then the whole text may hold a literal made of the second tick, an
operator and the first tick of the next literal, and so on.  In an expression that is read the
two agree at the latest where the expression ends, for none of its literals between ticks is a
tick or a quotation mark.

## Main definitions

* `Text.Calm t` — after a literal, a scan that has missed the literal's end sees no other comments
  in `t`.
* `Text.Steady t` — a scan sees the same comments in `t` whether or not it binds the first tick.
* `Text.EndsSteady t` — followed by a calm text, `t` is steady.

## Main statements

* `Steady.commentFree` — a steady text without comments after a word holds none on its own.
* `Expr.endsSteady_of_read`, `Range.endsSteady_of_read` — what is read ends steady.
-/

namespace CanonicalVhdl

open Text

namespace Text

/-! ## Texts after a literal -/

/-- The text after a literal between ticks: a single character stands before the next such
literal, or none does. -/
inductive Calm : Text → Prop where
  /-- No literal starts at the second character. -/
  | free {t : Text} (htick : t.head? ≠ some '\'')
      (hnext : t.tail.head? = some '\'' → t.head? = some '\n') : Calm t
  /-- A literal follows after one character. -/
  | next {x c : Char} {t : Text} (htick : x ≠ '\'') (hquote : x ≠ '"')
      (hc : isIdentChar c = true ∨ c = '-') (h : Calm t) : Calm (x :: '\'' :: c :: '\'' :: t)

/-- A text that starts with no tick, or with a literal between ticks and a calm text. -/
def Steady (t : Text) : Prop :=
  t.head? ≠ some '\'' ∨
    ∃ c u, t = '\'' :: c :: '\'' :: u ∧ (isIdentChar c = true ∨ c = '-') ∧ Calm u

/-- What is put together of the text and a calm text is steady. -/
def EndsSteady (t : Text) : Prop :=
  ∀ r, Calm r → Steady (t ++ r)

theorem Calm.head {t : Text} (h : Calm t) : t.head? ≠ some '\'' := by
  cases h with
  | free htick _ => exact htick
  | next htick _ _ _ => exact fun hx => htick (Option.some.inj hx)

theorem Calm.nil : Calm [] := .free (by simp) (by simp)

theorem Calm.cons {x : Char} {t : Text} (hx : x ≠ '\'') (ht : t.head? ≠ some '\'') :
    Calm (x :: t) :=
  .free (fun h => hx (Option.some.inj h)) fun h => absurd h ht

/-- A character other than a tick or a quotation mark may stand between two literals. -/
theorem Steady.calm {x : Char} {t : Text} (hx : x ≠ '\'') (hquote : x ≠ '"') (h : Steady t) :
    Calm (x :: t) := by
  obtain h | ⟨c, u, rfl, hc, hu⟩ := h
  · exact .cons hx h
  · exact .next hx hquote hc hu

/-- Only a text that starts with a tick may be unsteady. -/
theorem endsSteady_of_tick {t : Text}
    (h : t.head? = some '\'' → ∀ r, Calm r → Steady (t ++ r)) : EndsSteady t := by
  intro r hr
  by_cases ht : t.head? = some '\''
  · exact h ht r hr
  · refine .inl ?_
    cases t with
    | nil => exact hr.head
    | cons c t => exact ht

/-- Blanks may stand before a calm text. -/
theorem Calm.blanks {g t : Text} (hg : g.all isBlank = true) (h : Calm t) : Calm (g ++ t) := by
  cases g with
  | nil => exact h
  | cons c g =>
    have hne : ∀ d ∈ c :: g, d ≠ '\'' := fun d hd heq =>
      absurd (List.all_eq_true.1 hg d hd) (by rw [heq]; decide)
    refine .cons (hne c List.mem_cons_self) ?_
    cases g with
    | nil => exact h.head
    | cons d g => exact fun hd => hne d (by simp) (Option.some.inj hd)

theorem commentFree_bound {before : Option Char} (hb : Lexeme.bindsTick before = true) {t : Text} :
    CommentFree before ('\'' :: t) ↔ CommentFree (some '\'') t := by
  apply commentFree_cons_code
  rw [Lexeme.at_cons]
  simp [hb]

theorem commentFree_ticked {before : Option Char} (hb : Lexeme.bindsTick before = false) {c : Char}
    (hc : c.toNat < 128) (hn : c ≠ '\n') {t : Text} :
    CommentFree before ('\'' :: c :: '\'' :: t) ↔ CommentFree (some '\'') t :=
  commentFree_cons_literal (x := [c, '\'']) (by simp [Lexeme.at, hb, hc, hn])

theorem bindsTick_of_isIdentChar {c : Char} (h : isIdentChar c = true) :
    Lexeme.bindsTick (some c) = true := by
  simp [Lexeme.bindsTick, h]

theorem ascii_of_ticked {c : Char} (h : isIdentChar c = true ∨ c = '-') :
    c.toNat < 128 ∧ c ≠ '\n' := by
  rcases h with h | rfl
  · refine ⟨Nat.lt_of_le_of_lt (toNat_of_isIdentChar h).2 (by decide), ?_⟩
    rintro rfl
    exact absurd h (by decide)
  · decide

/-- Behind a literal whose start was missed, a calm text is seen as it is. -/
theorem Calm.resume {t : Text} (h : Calm t) {c : Char} (hc : isIdentChar c = true ∨ c = '-')
    (hfree : CommentFree (some '\'') (c :: '\'' :: t)) : CommentFree (some '\'') t := by
  induction h generalizing c with
  | @free t htick hnext =>
    rcases hc with hc | rfl
    · rw [commentFree_cons_code (at_plain _ (isPlain_of_isIdentChar hc) _),
        commentFree_bound (bindsTick_of_isIdentChar hc)] at hfree
      exact hfree
    · rw [commentFree_cons_code (by simp [Lexeme.at])] at hfree
      -- the tick opens no literal, for the one after the next character does not close it
      have hcode : Lexeme.at (some '-') ('\'' :: t) = .code := by
        rw [Lexeme.at_cons]
        have hclosed : ¬ (t.head?.any (fun d => decide (d.toNat < 128) && d != '\n') = true
            ∧ t.tail.head? = some '\'') := by
          rintro ⟨hany, htail⟩
          rw [hnext htail] at hany
          simp at hany
        simp only [show ('\'' : Char) ≠ '-' by decide, show ('\'' : Char) ≠ '"' by decide, false_and,
          if_false, true_and]
        rw [if_neg fun h => hclosed ⟨h.1, h.2.1⟩]
      exact (commentFree_cons_code hcode).1 hfree
  | @next x d t htick hquote hd ht ih =>
    rcases hc with hc | rfl
    · rw [commentFree_cons_code (at_plain _ (isPlain_of_isIdentChar hc) _),
        commentFree_bound (bindsTick_of_isIdentChar hc)] at hfree
      exact hfree
    · rw [commentFree_cons_code (by simp [Lexeme.at])] at hfree
      by_cases hx : x.toNat < 128 ∧ x ≠ '\n'
      · rw [commentFree_ticked (by decide) hx.1 hx.2] at hfree
        have hcode : Lexeme.at (some '\'') (x :: '\'' :: d :: '\'' :: t) = .code := by
          rw [Lexeme.at_cons]
          simp [htick, hquote]
        rw [commentFree_cons_code hcode]
        have hascii := ascii_of_ticked hd
        cases hb : Lexeme.bindsTick (some x) with
        | true => exact (commentFree_bound hb).2 hfree
        | false => exact (commentFree_ticked hb hascii.1 hascii.2).2 (ih hd hfree)
      · have hcode : Lexeme.at (some '-') ('\'' :: x :: '\'' :: d :: '\'' :: t) = .code := by
          rw [Lexeme.at_cons]
          simp [hx]
        exact (commentFree_cons_code hcode).1 hfree

/-- A steady text without comments after some character holds none on its own. -/
theorem Steady.commentFree {t : Text} (h : Steady t) {before : Option Char}
    (hfree : CommentFree before t) : CommentFree none t := by
  obtain h | ⟨c, u, rfl, hc, hu⟩ := h
  · exact hfree.congr fun ht => absurd ht h
  · cases hb : Lexeme.bindsTick before with
    | false => exact hfree.of_unbound hb
    | true =>
      have hascii := ascii_of_ticked hc
      exact (commentFree_ticked rfl hascii.1 hascii.2).2
        (hu.resume hc ((commentFree_bound hb).1 hfree))

/-! ## What follows -/

/-- The end of a line may be replaced by any calm text. -/
theorem Calm.swap {t : Text} (h : Calm t) :
    ∀ {u y z : Text}, t = u ++ y → AtLineEnd y → Calm z → Calm (u ++ z) := by
  induction h with
  | @free t htick hnext =>
    intro u y z ht _ hz
    rcases u with _ | ⟨d, _ | ⟨e, u⟩⟩
    · exact hz
    · exact .cons (fun hd => htick (by rw [ht, hd]; rfl)) hz.head
    · exact .free (fun hd => htick (by rw [ht]; exact hd)) fun he => by
        rw [ht] at hnext
        exact hnext he
  | @next x c t htick hquote hc _ ih =>
    intro u y z ht hy hz
    rcases u with _ | ⟨d, _ | ⟨e, _ | ⟨f, _ | ⟨g, u⟩⟩⟩⟩
    · exact hz
    · obtain ⟨rfl, -⟩ := List.cons.inj ht
      exact .cons htick hz.head
    · -- the line would have to end where the literal's character stands
      obtain ⟨-, -, rfl⟩ : x = d ∧ '\'' = e ∧ c :: '\'' :: t = y := by simpa using ht
      obtain hy | ⟨v, hv⟩ := hy.cases
      · cases hy
      · obtain ⟨rfl, -⟩ := List.cons.inj hv
        exact absurd rfl (ascii_of_ticked hc).2
    · obtain ⟨-, -, -, rfl⟩ : x = d ∧ '\'' = e ∧ c = f ∧ '\'' :: t = y := by simpa using ht
      obtain hy | ⟨v, hv⟩ := hy.cases
      · cases hy
      · exact absurd (List.cons.inj hv).1 (by decide)
    · obtain ⟨rfl, rfl, rfl, rfl, hrest⟩ :
          x = d ∧ '\'' = e ∧ c = f ∧ '\'' = g ∧ t = u ++ y := by simpa using ht
      exact .next htick hquote hc (ih hrest hy hz)

theorem Steady.swap {u y z : Text} (h : Steady (u ++ y)) (hy : AtLineEnd y) (hz : Calm z) :
    Steady (u ++ z) := by
  rcases u with _ | ⟨d, u⟩
  · exact .inl hz.head
  · obtain h | ⟨c, v, heq, hc, hv⟩ := h
    · exact .inl h
    · rcases u with _ | ⟨e, _ | ⟨f, u⟩⟩
      · obtain ⟨-, rfl⟩ : d = '\'' ∧ y = c :: '\'' :: v := by simpa using heq
        obtain hy | ⟨w, hw⟩ := hy.cases
        · cases hy
        · obtain ⟨rfl, -⟩ := List.cons.inj hw
          exact absurd rfl (ascii_of_ticked hc).2
      · obtain ⟨-, -, rfl⟩ : d = '\'' ∧ e = c ∧ y = '\'' :: v := by simpa using heq
        obtain hy | ⟨w, hw⟩ := hy.cases
        · cases hy
        · exact absurd (List.cons.inj hw).1 (by decide)
      · obtain ⟨rfl, rfl, rfl, rfl⟩ : d = '\'' ∧ e = c ∧ f = '\'' ∧ u ++ y = v := by
          simpa using heq
        exact .inr ⟨e, u ++ z, rfl, hc, hv.swap rfl hy hz⟩

end Text

/-! ## Operators -/

/-- Whether a text may be what an operator is written as: it holds neither ticks nor
quotation marks. -/
def IsOperatorText (w : Text) : Prop :=
  w ≠ [] ∧ ∀ c ∈ w, c ≠ '\'' ∧ c ≠ '"'

/-- A binary operator as written. -/
def BinaryOp.text : BinaryOp → Text
  | logic op => op.symbol.toList
  | rel op => op.symbol.toList
  | arith op => op.symbol.toList

theorem BinaryOp.sameWord_of_ofWord? {w : Text} {op : BinaryOp} (h : ofWord? w = some op) :
    sameWord w op.text = true := by
  have htext : ∀ p ∈ words, p.1.toList = p.2.text := by decide
  obtain ⟨p, hp, rfl⟩ := Option.map_eq_some_iff.1 h
  have hsame := List.find?_some hp
  rwa [← htext p (List.mem_of_find?_eq_some hp)]

namespace Operator

theorem isOperatorText_word {c : Char} {t : Text} (hc : isIdentChar c = true) :
    IsOperatorText ((c :: t).takeWhile isIdentChar) := by
  refine ⟨by simp [hc], fun d hd => ?_⟩
  have hident := List.all_eq_true.1 List.all_takeWhile d hd
  constructor <;>
  · rintro rfl
    cases hident

theorem isOperatorText_symbol {operand : Bool} {c : Char} {t : Text} {op : BinaryOp} {n : Nat}
    (h : symbol? operand (c :: t) = some (op, n)) :
    IsOperatorText ((c :: t).take n) ∧ n ≤ t.length + 1 ∧ (c :: t).take n = op.text := by
  have hchars : (n = 1 ∧ [c] = op.text ∨ n = 2 ∧ t.head? = some '=' ∧ [c, '='] = op.text)
      ∧ c ≠ '\'' ∧ c ≠ '"' := by
    rw [symbol?_cons] at h
    split_ifs at h <;> cases h <;> subst c <;>
    exact ⟨by first | exact .inl ⟨rfl, rfl⟩ | exact .inr ⟨rfl, ‹_›, rfl⟩, by decide⟩
  obtain ⟨⟨rfl, htext⟩ | ⟨rfl, ht, htext⟩, hc, hq⟩ := hchars
  · exact ⟨⟨by simp, by simp [hc, hq]⟩, by omega, htext⟩
  · obtain ⟨u, rfl⟩ := List.head?_eq_some_iff.1 ht
    exact ⟨⟨by simp, by simp [hc, hq]⟩, by simp, htext⟩

/-- The operators of a scan stand in the text. -/
theorem mem_of_scanFrom {found ops : List Operator} {depth skip position : Nat} {operand : Bool}
    {before : Option Char} {t : Text}
    (h : scanFrom found depth operand skip position before t = some ops) {o : Operator}
    (ho : o ∈ ops) :
    o ∈ found ∨ ∃ s w v, t = s ++ (w ++ v) ∧ o.start = position + s.length
      ∧ o.stop = o.start + w.length ∧ IsOperatorText w ∧ sameWord w o.op.text = true := by
  induction t generalizing found depth operand skip position before with
  | nil =>
    rw [scanFrom] at h
    split at h
    · obtain rfl := Option.some.inj h
      exact .inl (List.mem_reverse.1 ho)
    · cases h
  | cons c t ih =>
    have later : ∀ {depth' operand' skip'},
        scanFrom found depth' operand' skip' (position + 1) (some c) t = some ops →
        o ∈ found ∨ ∃ s w v, c :: t = s ++ (w ++ v) ∧ o.start = position + s.length
          ∧ o.stop = o.start + w.length ∧ IsOperatorText w ∧ sameWord w o.op.text = true := by
      intro depth' operand' skip' h
      refine (ih h).imp_right ?_
      rintro ⟨s, w, v, rfl, hstart, hstop, hw⟩
      exact ⟨c :: s, w, v, rfl, by rw [hstart, List.length_cons]; omega, hstop, hw⟩
    have here : ∀ {op n depth' operand' skip'}, IsOperatorText ((c :: t).take n) →
        n ≤ t.length + 1 → sameWord ((c :: t).take n) op.text = true →
        scanFrom (⟨position, position + n, op⟩ :: found) depth' operand' skip' (position + 1)
          (some c) t = some ops →
        o ∈ found ∨ ∃ s w v, c :: t = s ++ (w ++ v) ∧ o.start = position + s.length
          ∧ o.stop = o.start + w.length ∧ IsOperatorText w ∧ sameWord w o.op.text = true := by
      intro op n depth' operand' skip' hw hn hop h
      rcases ih h with hmem | ⟨s, w, v, rfl, hstart, hstop, hw⟩
      · rcases List.mem_cons.1 hmem with rfl | hmem
        · exact .inr ⟨[], _, (c :: t).drop n, (List.take_append_drop _ _).symm, rfl,
            by rw [List.length_take, List.length_cons, Nat.min_eq_left hn], hw, hop⟩
        · exact .inl hmem
      · exact .inr ⟨c :: s, w, v, rfl, by rw [hstart, List.length_cons]; omega, hstop, hw⟩
    cases skip with
    | succ skip => exact later h
    | zero =>
      simp only [scanFrom] at h
      split at h
      · exact later h
      · exact later h
      · split at h
        · split at h
          · exact later h
          · split at h
            · exact later h
            · exact later h
        · split at h
          · exact later h
          · split at h
            · cases h
            · split at h
              · exact later h
              · split at h
                · rename_i hident
                  have hrun := List.prefix_iff_eq_take.1
                    (List.takeWhile_prefix isIdentChar (l := c :: t))
                  split at h
                  · rename_i hop
                    refine here ?_ ?_ ?_ h
                    · rw [← hrun]
                      exact isOperatorText_word hident
                    · exact (List.takeWhile_prefix isIdentChar).length_le
                    · rw [← hrun]
                      exact BinaryOp.sameWord_of_ofWord? hop
                  · exact later h
                · split at h
                  · exact later h
                  · split at h
                    · cases h
                    · split at h
                      · rename_i hsymbol
                        obtain ⟨hw, hn, htext⟩ := isOperatorText_symbol hsymbol
                        exact here hw hn (by rw [htext, sameWord_self]) h
                      · exact later h

theorem eq_of_mem_scan {t : Text} {ops : List Operator} (h : scan t = some ops) {o : Operator}
    (ho : o ∈ ops) :
    ∃ w, t = t.take o.start ++ (w ++ t.drop o.stop) ∧ IsOperatorText w
      ∧ sameWord w o.op.text = true := by
  obtain hmem | ⟨s, w, v, rfl, hstart, hstop, hw⟩ := mem_of_scanFrom h ho
  · exact absurd hmem List.not_mem_nil
  · refine ⟨w, ?_, hw⟩
    rw [hstop, hstart, Nat.zero_add, List.take_left, ← List.length_append, ← List.append_assoc,
      List.drop_left, List.append_assoc]

end Operator

/-! ## Expressions that start with a tick -/

theorem Ident.ofText?_of_tick {t : Text} (h : t.head? = some '\'') : Ident.ofText? t = none := by
  obtain ⟨u, rfl⟩ := List.head?_eq_some_iff.1 h
  exact dif_neg (by simp [isIdent])

/-- A text that starts with a tick has blanks at its end only. -/
theorem pad_of_tick {t : Text} (h : t.head? = some '\'') :
    ∃ g, g.all isBlank = true ∧ t = trim t ++ g ∧ (trim t).head? = some '\''
      ∧ trim t = trimEnd t := by
  obtain ⟨g, g', hg, hg', ht⟩ := exists_pad_trim t
  have hblank : ∀ {u : Text}, u.all isBlank = true → u.head? ≠ some '\'' := fun hu hhead =>
    absurd (List.all_eq_true.1 hu _ (List.mem_of_head? hhead)) (by decide)
  cases g with
  | cons c g =>
    rw [ht] at h
    exact absurd h (hblank (u := c :: g) hg)
  | nil =>
    rw [List.nil_append] at ht
    have hstart : t.head?.any isBlank = false := by rw [h]; rfl
    refine ⟨g', hg', ht, ?_, by rw [trim, trimStart_eq_self hstart]⟩
    cases htrim : trim t with
    | nil =>
      rw [htrim, List.nil_append] at ht
      exact absurd h (ht ▸ hblank hg')
    | cons c u =>
      rw [ht, htrim] at h
      exact h

/-- The characters of literals between ticks. -/
theorem Literal.ticked_of_readTicked {c : Char} {l : Literal} (h : Literal.readTicked c = some l) :
    isIdentChar c = true ∨ c = '-' := by
  have hbit : ∀ v, Bit.ofChar? c = some v → isIdentChar c = true := by
    intro v hv
    have := List.find?_some hv
    rw [beq_iff_eq] at this
    rw [← this]
    cases v <;> rfl
  have hlogic : ∀ v, Logic.ofChar? c = some v → isIdentChar c = true ∨ c = '-' := by
    intro v hv
    have hup := List.find?_some hv
    rw [beq_iff_eq] at hup
    rcases toUpper_eq_self_or c with hself | ⟨n, rfl⟩
    · rw [hself] at hup
      rw [← hup]
      cases v <;> decide
    · have key : ∀ n : Fin 26, isIdentChar (Char.ofNat (97 + n)) = true := by decide
      exact .inl (key n)
  rw [readTicked] at h
  split at h
  · rename_i v hv
    exact .inl (hbit v hv)
  · obtain ⟨v, hv, -⟩ := Option.map_eq_some_iff.1 h
    exact hlogic v hv

/-- A literal that starts with a tick is one between two ticks. -/
theorem Literal.eq_ticked_of_readWith {expr : Text → Option Expr} {t : Text} {l : Literal}
    (ht : t.head? = some '\'') (htrim : trim t = t) (h : Literal.readWith expr t = some l) :
    ∃ c, t = ['\'', c, '\''] ∧ (isIdentChar c = true ∨ c = '-') := by
  rw [readWith] at h
  by_cases hc : ∃ c, trim t = ['\'', c, '\'']
  · obtain ⟨c, hc⟩ := hc
    rw [readNested_of_ticked _ hc] at h
    split at h
    · cases h
    · exact ⟨c, htrim ▸ hc, ticked_of_readTicked h⟩
  · rw [readNested_of_ne_ticked _ fun c hc' => hc ⟨c, hc'⟩, htrim] at h
    obtain ⟨u, rfl⟩ := List.head?_eq_some_iff.1 ht
    have hword : ∀ w : String, (w.toList.head?.any Char.isAlpha) = true →
        sameWord ('\'' :: u) w.toList = false := by
      intro w hw
      rw [Bool.eq_false_iff, ne_eq, sameWord_iff]
      intro heq
      cases hl : w.toList with
      | nil => simp [hl] at hw
      | cons d v =>
        rw [hl] at heq hw
        rw [fold_cons, fold_cons] at heq
        have hd : d = '\'' := (toLower_eq_iff (by decide)).1 (List.cons.inj heq).1.symm
        simp [hd] at hw
    have hgroup : ∀ v : Text, digitGroup? ('\'' :: v) = none := fun v => by simp [digitGroup?]
    have hint : Integer64.read ('\'' :: u) = none := by
      simp [Integer64.read, splitSign, hgroup]
    -- the digits before the point would start with the tick
    have hwhole : ∀ whole fraction v, splitOnce '.' ('\'' :: v) = some (whole, fraction) →
        digitGroup? whole = none := by
      intro whole fraction v hsplit
      obtain ⟨heq, -⟩ := eq_of_splitOnce hsplit
      cases whole with
      | nil => simp at heq
      | cons c whole =>
        obtain ⟨rfl, -⟩ : '\'' = c ∧ v = whole ++ '.' :: fraction := by simpa using heq
        exact hgroup whole
    have hreal : Real64.read ('\'' :: u) = none := by
      have hsign : splitSign ('\'' :: u) = (false, '\'' :: u) := rfl
      have htake : ('\'' :: u).takeWhile (fun c => !(c == 'e' || c == 'E'))
          = '\'' :: u.takeWhile fun c => !(c == 'e' || c == 'E') := by simp
      simp only [Real64.read, hsign, htake, Option.bind_eq_bind]
      have hrest : ∀ exponent : Int,
          ((splitOnce '.' ('\'' :: u.takeWhile fun c => !(c == 'e' || c == 'E'))).bind fun parts =>
            (digitGroup? parts.1).bind fun whole => (digitGroup? parts.2).bind fun fraction =>
              Real64.ofDecimal? false (digitsValue (whole ++ fraction))
                (exponent - fraction.length)) = none := by
        intro exponent
        rw [Option.bind_eq_none_iff]
        rintro ⟨whole, fraction⟩ hsplit
        simp [hwhole _ _ _ hsplit]
      split
      · exact hrest _
      · rw [Option.bind_eq_none_iff]
        exact fun exponent _ => hrest exponent
    have hvector : VectorLiteral.readWith expr (readNested expr ('\'' :: u).length) ('\'' :: u)
        = none := by
      rw [VectorLiteral.readWith_of_trim htrim]
      simp [VectorLiteral.readBased]
    have hplain : readPlain expr (readNested expr ('\'' :: u).length) ('\'' :: u) = none := by
      simp only [readPlain, hword "true" (by decide), hword "false" (by decide), hint, hreal,
        hvector, Bool.false_eq_true, if_false, Option.map_none, ite_self]
    rw [hplain, ite_self] at h
    cases h

theorem Reference.readWith_of_tick {expr : Text → Option Expr} {t : Text} (h : t.head? = some '\'') :
    Reference.readWith expr t = none := by
  obtain ⟨g, -, ht, htrim, -⟩ := pad_of_tick h
  obtain ⟨u, hu⟩ := List.head?_eq_some_iff.1 htrim
  have hname : ∀ {c : Char} {v : Text}, c ≠ '\'' →
      Ident.ofText? (trimEnd (('\'' :: v).takeWhile (· != c))) = none := by
    intro c v hc
    have htake : (('\'' :: v).takeWhile (· != c)).head? = some '\'' := by
      simp [Ne.symm hc]
    obtain ⟨-, -, -, hhead, htrim⟩ := pad_of_tick htake
    rw [← htrim]
    exact Ident.ofText?_of_tick hhead
  simp only [readWith, hu, Ident.ofText?_of_tick (t := '\'' :: u) rfl]
  split
  · split
    · simp only [readIndexed, Option.bind_eq_bind, hname (c := '(') (by decide), Option.bind_none]
      cases balancedSpan? '(' ')' ('\'' :: u) with
      | none => rfl
      | some span => simp
    · rfl
  · split
    · rename_i record field hsplit
      obtain ⟨heq, hrecord⟩ := eq_of_splitOnce hsplit
      have hhead : record.head? = some '\'' := by
        rw [hrecord]
        simp
      obtain ⟨-, -, -, htrim, -⟩ := pad_of_tick hhead
      rw [Ident.ofText?_of_tick htrim]
      rfl
    · have hsplit : splitOnce '\'' ('\'' :: u) = some ([], u) := by simp [splitOnce]
      rw [hsplit]
      rfl

namespace Expr

theorem callShape?_of_tick {t : Text} (h : t.head? = some '\'') : callShape? t = none := by
  obtain ⟨u, rfl⟩ := List.head?_eq_some_iff.1 h
  have htake : (('\'' :: u).takeWhile (· != '(')).head? = some '\'' := by simp
  obtain ⟨-, -, -, hhead, htrim⟩ := pad_of_tick htake
  simp only [callShape?, ← htrim, Ident.ofText?_of_tick hhead]
  split <;> rfl

theorem readOperand_of_tick {code expr : Text → Option Expr} {t : Text}
    (h : t.head? = some '\'') : readOperand code expr t = none := by
  have hnot : afterWord? "not".toList t = none := by
    rw [Option.eq_none_iff_forall_ne_some]
    exact fun r hr => head?_ne_tick_of_afterWord? ⟨by decide, by decide⟩ hr h
  rw [readOperand, hnot, Reference.readWith_of_tick h]
  simp [h]

/-- **An expression free of comments ends steady** if it is read. -/
theorem endsSteady_of_readCode {room : Nat} {t : Text} {e : Expr}
    (h : readCode room t = some e) : EndsSteady t := by
  induction room generalizing t e with
  | zero => cases h
  | succ room ih =>
    refine endsSteady_of_tick fun ht r hr => ?_
    obtain ⟨g, hg, hpad, hhead, -⟩ := pad_of_tick ht
    have htrim : trim (trim t) = trim t := trim_eq_self (trimmed_trim t)
    rw [hpad, List.append_assoc]
    replace hr := hr.blanks hg
    revert hr
    generalize g ++ r = r
    intro hr
    simp only [readCode] at h
    split at h
    · cases h
    · simp only [readShape] at h
      split at h
      · rename_i l hl
        obtain ⟨c, hc, hticked⟩ := Literal.eq_ticked_of_readWith hhead htrim hl
        exact .inr ⟨c, r, by rw [hc]; rfl, hticked, hr⟩
      · rw [callShape?_of_tick hhead] at h
        simp only at h
        split at h
        · cases h
        · rw [readOperand_of_tick hhead] at h
          cases h
        · rename_i ops _ hscan
          obtain ⟨o, ho, h⟩ := Option.bind_eq_some_iff.1 h
          obtain ⟨w, hsplit, ⟨hne, hw⟩, -⟩ :=
            Operator.eq_of_mem_scan hscan (Operator.mem_of_pivot? ho)
          obtain ⟨x, u, rfl⟩ := List.exists_cons_of_ne_nil hne
          obtain ⟨⟨hx, hquote⟩, hu⟩ := List.forall_mem_cons.1 hw
          simp only [readBinary, Option.bind_eq_bind] at h
          obtain ⟨lhs, hlhs, h⟩ := Option.bind_eq_some_iff.1 h
          obtain ⟨rhs, hrhs, -⟩ := Option.bind_eq_some_iff.1 h
          -- the operator stands between the operands' literals, if the right one starts with one
          have hnext : Calm (x :: (u ++ ((trim t).drop o.stop ++ r))) := by
            cases u with
            | cons d u => exact .cons hx fun h => (hu d List.mem_cons_self).1 (Option.some.inj h)
            | nil => exact (ih hrhs r hr).calm hx hquote
          have := ih hlhs _ hnext
          rw [hsplit]
          simpa only [List.append_assoc, List.cons_append] using this

end Expr

/-! ## Comments inside the expression -/

namespace Text

theorem eq_of_commentFrom? {t : Text} {skip position i : Nat} {before : Option Char}
    (h : commentFrom? skip position before t = some i) :
    ∃ s u, t = s ++ '-' :: '-' :: u ∧ i = position + s.length := by
  induction t generalizing skip position before with
  | nil => cases h
  | cons c t ih =>
    have later : ∀ {skip'}, commentFrom? skip' (position + 1) (some c) t = some i →
        ∃ s u, c :: t = s ++ '-' :: '-' :: u ∧ i = position + s.length := by
      intro skip' h
      obtain ⟨s, u, rfl, rfl⟩ := ih h
      exact ⟨c :: s, u, rfl, by rw [List.length_cons]; omega⟩
    cases skip with
    | succ skip => exact later h
    | zero =>
      rw [commentFrom?] at h
      split at h
      · rename_i n hat
        obtain rfl := Option.some.inj h
        rw [Lexeme.at_cons] at hat
        split_ifs at hat with hhyphens
        obtain ⟨rfl, hhead⟩ := hhyphens
        obtain ⟨u, rfl⟩ := List.head?_eq_some_iff.1 hhead
        exact ⟨[], u, rfl, rfl⟩
      · exact later h
      · exact later h

/-- A line is its code, blanks, and perhaps a comment. -/
theorem exists_lineCode (l : Text) :
    ∃ g w, l = lineCode l ++ (g ++ w) ∧ g.all isBlank = true ∧ (w = [] ∨ ∃ v, w = '-' :: '-' :: v) := by
  rw [lineCode]
  cases h : commentStart? l with
  | none =>
    obtain ⟨g, hg, hl⟩ := exists_pad_trimEnd l
    exact ⟨g, [], by rw [List.append_nil]; exact hl, hg, .inl rfl⟩
  | some i =>
    obtain ⟨s, u, rfl, hi⟩ := eq_of_commentFrom? h
    rw [Nat.zero_add] at hi
    obtain ⟨g, hg, hs⟩ := exists_pad_trimEnd s
    refine ⟨g, '-' :: '-' :: u, ?_, hg, .inr ⟨u, rfl⟩⟩
    rw [Option.elim_some, hi, List.take_left, ← List.append_assoc, ← hs]

theorem head?_lineCode {l : Text} (h : l.head? = some '\'') : (lineCode l).head? = some '\'' := by
  obtain ⟨g, w, hsplit, hg, hw⟩ := exists_lineCode l
  cases hc : lineCode l with
  | cons c u =>
    rw [hsplit, hc] at h
    exact h
  | nil =>
    have hcalm : Calm (g ++ w) := by
      refine Calm.blanks hg ?_
      obtain rfl | ⟨u, rfl⟩ := hw
      · exact .nil
      · exact .cons (by decide) (by simp)
    rw [hsplit, hc] at h
    exact absurd h hcalm.head

/-- The first line of a text, with its end. -/
theorem exists_firstLine (t : Text) : ∃ l r, t = l ++ r ∧ '\n' ∉ l ∧ AtLineEnd r := by
  refine ⟨t.takeWhile (· != '\n'), t.dropWhile (· != '\n'), List.takeWhile_append_dropWhile.symm, ?_, ?_⟩
  · intro h
    have := List.all_eq_true.1 (List.all_takeWhile (p := (· != '\n')) (l := t)) _ h
    simp at this
  · have := List.head?_dropWhile_not (· != '\n') t
    cases hd : t.dropWhile (· != '\n') with
    | nil => exact atLineEnd_nil
    | cons c u =>
      rw [hd] at this
      obtain rfl : c = '\n' := by simpa using this
      exact atLineEnd_newline u

theorem atLineEnd_join (u : Text) (parts : List Text) :
    ∃ y, join ['\n'] (u :: parts) = u ++ y ∧ AtLineEnd y := by
  cases parts with
  | nil => exact ⟨[], by simp [join], atLineEnd_nil⟩
  | cons p ps => exact ⟨_, join_cons_of_ne_nil u (by simp), atLineEnd_newline _⟩

/-- Without its comments a text starts with the code of its first line. -/
theorem stripComments_firstLine {l r : Text} (hl : '\n' ∉ l) (hr : AtLineEnd r)
    (hcode : lineCode l ≠ []) : ∃ y, stripComments (l ++ r) = lineCode l ++ y ∧ AtLineEnd y := by
  have hkept : (!(lineCode l).isEmpty) = true := by simpa using hcode
  obtain rfl | ⟨v, rfl⟩ := hr.cases
  · have hne : l.isEmpty = false := by
      cases l with
      | nil => exact absurd rfl hcode
      | cons c l => rfl
    refine ⟨[], ?_, atLineEnd_nil⟩
    rw [List.append_nil, List.append_nil, stripComments, lines, splitOn_of_not_mem hl]
    simp [hne, hkept, join]
  · have hsplit : splitOn '\n' (l ++ '\n' :: v) = l :: splitOn '\n' v := splitOn_append hl v
    have hdrop : (l :: splitOn '\n' v).dropLast = l :: (splitOn '\n' v).dropLast :=
      List.dropLast_cons_of_ne_nil (splitOnFrom_ne_nil '\n' [] [] v)
    simp only [stripComments, lines, hsplit, hdrop, List.map_cons, List.cons_append,
      lineCode_withoutReturn, List.filter_cons, hkept, if_true]
    exact atLineEnd_join _ _

end Text

/-- A text that starts with a tick does so without its comments. -/
theorem Text.exists_of_withoutComments {t : Text} (ht : t.head? = some '\'') :
    ∃ u y z, withoutComments t = u ++ y ∧ AtLineEnd y ∧ t = u ++ z ∧ u.head? = some '\''
      ∧ ∀ r, Calm r → Calm (z ++ r) := by
  rw [withoutComments]
  split
  · obtain ⟨l, v, rfl, hl, hv⟩ := exists_firstLine t
    obtain ⟨g, w, hsplit, hg, hw⟩ := exists_lineCode l
    have hcalm : ∀ r, Calm r → Calm (g ++ (w ++ (v ++ r))) := by
      intro r hr
      have hrest : Calm (v ++ r) := by
        obtain rfl | ⟨v, rfl⟩ := hv.cases
        · exact hr
        · exact .free (by simp) fun _ => rfl
      refine Calm.blanks hg ?_
      obtain rfl | ⟨u, rfl⟩ := hw
      · exact hrest
      · exact .cons (by decide) (by simp)
    have hcode : (lineCode l).head? = some '\'' := by
      refine head?_lineCode ?_
      cases l with
      | nil =>
        obtain rfl | ⟨v, rfl⟩ := hv.cases
        · cases ht
        · exact absurd ht (by simp)
      | cons c l => exact ht
    obtain ⟨y, hstrip, hy⟩ := stripComments_firstLine hl hv fun hnil => by simp [hnil] at hcode
    refine ⟨lineCode l, y, g ++ w ++ v, hstrip, hy, ?_, hcode, fun r hr => ?_⟩
    · rw [← List.append_assoc, ← hsplit]
    · simpa only [List.append_assoc] using hcalm r hr
  · exact ⟨t, [], [], (List.append_nil t).symm, atLineEnd_nil, (List.append_nil t).symm, ht,
      fun r hr => hr⟩

theorem Text.head?_withoutComments {t : Text} (ht : t.head? = some '\'') :
    (withoutComments t).head? = some '\'' := by
  obtain ⟨u, y, -, hstrip, -, -, hu, -⟩ := exists_of_withoutComments ht
  rw [hstrip, List.head?_append, hu]
  rfl

/-- **An expression ends steady** if it is read, comments inside it included. -/
theorem Expr.endsSteady_of_read {room : Nat} {t : Text} {e : Expr}
    (h : Expr.read room t = some e) : EndsSteady t := by
  refine endsSteady_of_tick fun ht r hr => ?_
  obtain ⟨u, y, z, hstrip, hy, rfl, -, hcalm⟩ := exists_of_withoutComments ht
  rw [read, hstrip] at h
  have hsteady := endsSteady_of_readCode h [] .nil
  rw [List.append_nil] at hsteady
  rw [List.append_assoc]
  exact hsteady.swap hy (hcalm r hr)

/-! ## Ranges -/

/-- Blanks around a text do not matter. -/
theorem Text.EndsSteady.of_trim {t : Text} (h : EndsSteady (trim t)) : EndsSteady t := by
  refine endsSteady_of_tick fun ht r hr => ?_
  obtain ⟨g, hg, hpad, -⟩ := pad_of_tick ht
  rw [hpad, List.append_assoc]
  exact h _ (hr.blanks hg)

/-- Patterns of at least two characters that are no ticks. -/
def Text.IsLong (pattern : Text) : Prop :=
  2 ≤ pattern.length ∧ pattern.all isPlain = true

instance (pattern : Text) : Decidable (Text.IsLong pattern) :=
  inferInstanceAs (Decidable (_ ∧ _))

theorem Text.IsLong.calm {pattern x : Text} (h : IsLong pattern) (hx : sameWord pattern x = true)
    (u : Text) : Calm (x ++ u) := by
  have hplain := all_isPlain_of_sameWord h.2 hx
  have hlen : 2 ≤ x.length := length_eq_of_sameWord hx ▸ h.1
  have hne : ∀ c ∈ x, c ≠ '\'' := fun c hc heq =>
    absurd (List.all_eq_true.1 hplain c hc) (by rw [heq]; decide)
  rcases x with _ | ⟨c, _ | ⟨d, x⟩⟩
  · simp at hlen
  · simp at hlen
  · exact .cons (hne c (by simp)) fun hd => hne d (by simp) (Option.some.inj hd)

/-- **A range ends steady** if it is read. -/
theorem Range.endsSteady_of_read {room : Nat} {t : Text} {r : Range}
    (h : Range.read room t = some r) : EndsSteady t := by
  have hcut : ∀ {pattern i e}, IsLong pattern → outerMatches pattern (trim t) = [i] →
      Expr.read room ((trim t).take i) = some e → EndsSteady t := by
    intro pattern i e hlong hmatch he
    refine .of_trim fun r hr => ?_
    obtain ⟨s, x, u, ht, rfl, hx, -⟩ := mem_outerMatches (hmatch ▸ List.mem_singleton_self i)
    rw [ht, List.take_left] at he
    rw [ht, List.append_assoc, List.append_assoc]
    exact Expr.endsSteady_of_read he _ (hlong.calm hx _)
  simp only [read, readWith, Option.bind_eq_bind] at h
  split at h
  · cases h
  · split at h
    · rename_i i hmatch
      obtain ⟨high, hhigh, -⟩ := Option.bind_eq_some_iff.1 h
      exact hcut (by decide) hmatch hhigh
    · split at h
      · rename_i i hmatch
        obtain ⟨low, hlow, -⟩ := Option.bind_eq_some_iff.1 h
        exact hcut (by decide) hmatch hlow
      · cases h
    · cases h

/-- What is cut at a pattern holds no comment, if its first part ends steady. -/
theorem Text.CommentFree.of_steady_cut {pattern t a b : Text} {before : Option Char}
    (hlong : IsLong pattern) (hcut : cutOuter? pattern t = some (a, b)) (ha : EndsSteady a)
    (h : CommentFree before t) : CommentFree none t := by
  obtain ⟨x, rfl, hx, -⟩ := eq_of_cutOuter? hcut
  exact (ha _ (hlong.calm hx b)).commentFree h

end CanonicalVhdl
