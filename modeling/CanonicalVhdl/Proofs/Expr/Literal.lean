import CanonicalVhdl.Proofs.Expr.Parts

/-!
# Reading literals

A canonical literal is read from its text, provided that the expressions in its
aggregates are.  What is no literal is not read as one: texts that start with a
letter, groups without an arrow, and everything with a blank outside parentheses.

## Main definitions

* `Expr.ReadsUpTo n expr` — a reader returns every canonical expression of `n` levels.

## Main statements

* `Token.mapM_splitOuter_commaJoin` — the pieces of a list are read one by one.
* `Literal.readWith_text` — the reader of literals inverts the canonical text.
* `Literal.readWith_eq_none_of_alpha`, `Literal.readWith_eq_none_of_blank`,
  `Literal.readWith_eq_none_of_group` — what is not read as a literal.
-/

namespace CanonicalVhdl

open Text Token

/-! ## Lists -/

/-- Pieces with a blank before each are read one by one. -/
theorem Text.Reads.mapM {α : Type} {read : Text → Option α} {text : α → Text} {as : List α}
    (h : ∀ a ∈ as, Reads read (text a) a) : (as.map (' ' :: text ·)).mapM read = some as := by
  induction as with
  | nil => rfl
  | cons a as ih =>
    have ha : read (' ' :: text a) = some a := by
      simpa using h a (by simp) [' '] [] isPad_blank isPad_nil
    rw [List.map_cons, List.mapM_cons, ha, ih fun b hb => h b (by simp [hb])]
    rfl

namespace Token

theorem splitOuter_commaJoin {piece : List Token} {pieces : List (List Token)}
    (hp : ∀ p ∈ piece :: pieces, IsPhrase p) (hl : ∀ p ∈ piece :: pieces, Lacks [','] p) :
    splitOuter ',' (render (commaJoin (piece :: pieces))) =
      render piece :: pieces.map (' ' :: render ·) := by
  have hjoin : commaJoin (piece :: pieces)
      = piece ++ (pieces.map (mark ' ' :: ·)).flatMap (mark ',' :: ·) := by
    rw [commaJoin, List.flatMap_map]
  have hfit := IsPhrase.commaJoin hp none none (by rfl) (by rfl)
  rw [hjoin] at hfit ⊢
  rw [splitOuter_render (.inr (by decide)) (by decide) rfl (by decide) hfit]
  · simp
  · intro p hm
    rw [List.mem_cons, List.mem_map] at hm
    rcases hm with rfl | ⟨q, hq, rfl⟩
    · exact hl p (by simp)
    · exact (@lacks_append [','] [mark ' '] q).2 ⟨by decide, hl q (by simp [hq])⟩

/-- **The pieces of a list with commas are read one by one.** -/
theorem mapM_splitOuter_commaJoin {α : Type} {read : Text → Option α} {tokens : α → List Token}
    {as : List α} (hne : as ≠ []) (hp : ∀ a ∈ as, IsPhrase (tokens a))
    (hl : ∀ a ∈ as, Lacks [','] (tokens a)) (hr : ∀ a ∈ as, Reads read (render (tokens a)) a) :
    (splitOuter ',' (render (commaJoin (as.map tokens)))).mapM read = some as := by
  cases as with
  | nil => exact absurd rfl hne
  | cons a as =>
    rw [List.map_cons, splitOuter_commaJoin, List.map_map, List.mapM_cons, (hr a (by simp)).self]
    · have := @Text.Reads.mapM _ read (fun a => render (tokens a)) as fun b hb => hr b (by simp [hb])
      rw [show (as.map ((fun p => ' ' :: render p) ∘ tokens)).mapM read = some as from this]
      rfl
    · rw [← List.map_cons, List.forall_mem_map]; exact hp
    · rw [← List.map_cons, List.forall_mem_map]; exact hl

/-- Sequences one after the other, with a mark between them. -/
def marked (c : Char) : List (List Token) → List Token
  | [] => []
  | ts :: rest => ts ++ rest.flatMap (mark c :: ·)

theorem marked_cons_cons (c : Char) (ts us : List Token) (rest : List (List Token)) :
    marked c (ts :: us :: rest) = ts ++ mark c :: marked c (us :: rest) := by
  simp [marked]

theorem render_marked (c : Char) (pieces : List (List Token)) :
    render (marked c pieces) = join [c] (pieces.map render) := by
  induction pieces with
  | nil => rfl
  | cons ts rest ih =>
    cases rest with
    | nil => simp [marked, join]
    | cons us rest =>
      rw [marked_cons_cons, render_append, render_cons, text_mark, ih]
      simp [join]

theorem isPhrase_marked {c : Char} (hc : c = ',' ∨ c = ';') {pieces : List (List Token)}
    (h : ∀ ts ∈ pieces, IsPhrase ts) : IsPhrase (marked c pieces) := by
  have hfits : ∀ before next, (mark c).Fits before next := by
    intro before next
    rcases hc with rfl | rfl <;> exact fits_separator (by decide)
  have hclose : Closes (some c) := by rcases hc with rfl | rfl <;> rfl
  have hopen : Opens (some c) := by rcases hc with rfl | rfl <;> rfl
  induction pieces with
  | nil => exact isPhrase_nil
  | cons ts rest ih =>
    have hts := h ts List.mem_cons_self
    cases rest with
    | nil => simpa [marked] using hts
    | cons us rest =>
      have hrest := ih fun ts ht => h ts (List.mem_cons_of_mem _ ht)
      intro before next hb hn
      rw [marked_cons_cons]
      exact fitAll_append.2 ⟨hts _ _ hb hclose, hfits _ _, hrest _ _ hopen hn⟩

/-- Sequences without a mark are cut apart at the marks between them. -/
theorem splitOuter_marked {c : Char} (hc : c = ',' ∨ c = ';') {pieces : List (List Token)}
    (hne : pieces ≠ []) (hphrase : ∀ ts ∈ pieces, IsPhrase ts) (hlacks : ∀ ts ∈ pieces, Lacks [c] ts) :
    splitOuter c (render (marked c pieces)) = pieces.map render := by
  obtain ⟨ts, rest, rfl⟩ := List.exists_cons_of_ne_nil hne
  have hfit : FitAll none (ts ++ rest.flatMap (mark c :: ·)) none :=
    isPhrase_marked hc hphrase none none rfl rfl
  have hpattern : IsPattern [c] := by rcases hc with rfl | rfl <;> exact .inr (by decide)
  have halpha : c.isAlpha = false := by rcases hc with rfl | rfl <;> rfl
  exact splitOuter_render hpattern halpha rfl (by simp [spells]) hfit hlacks

end Token

/-- A part of a list stands in the text of the list. -/
theorem Text.isInfix_join {separator part : Text} {parts : List Text} (h : part ∈ parts) :
    part <:+: join separator parts := by
  induction parts with
  | nil => cases h
  | cons first rest ih =>
    cases rest with
    | nil =>
      obtain rfl := List.mem_singleton.1 h
      simp [join]
    | cons second rest =>
      rw [join, List.intercalate_cons_cons, ← join]
      rcases List.mem_cons.1 h with rfl | h
      · exact ⟨[], separator ++ join separator (second :: rest), by simp⟩
      · obtain ⟨a, b, hab⟩ := ih h
        exact ⟨first ++ separator ++ a, b, by rw [← hab]; simp⟩

/-! ## Bit strings -/

theorem Bit.ofChar?_char (b : Bit) : Bit.ofChar? b.char = some b := by cases b <;> rfl

theorem Logic.ofChar?_char (l : Logic) : Logic.ofChar? l.char = some l := by cases l <;> rfl

theorem Logic.bit_ofChar?_char (l : Logic) : Bit.ofChar? l.char = l.bit? := by cases l <;> rfl

theorem HexDigit.ofChar?_char (d : HexDigit) : HexDigit.ofChar? d.char = some d := by
  have key : ∀ d : Fin 16, HexDigit.ofChar? (digitChar d.val) = some d := by decide
  exact key d

theorem OctalDigit.ofChar?_char (d : OctalDigit) : OctalDigit.ofChar? d.char = some d := by
  have key : ∀ d : Fin 8, OctalDigit.ofChar? (digitChar d.val) = some d := by decide
  exact key d

theorem mapM_map_char {α : Type} {ofChar? : Char → Option α} {char : α → Char}
    (h : ∀ a, ofChar? (char a) = some a) (as : List α) :
    (as.map char).mapM ofChar? = some as := by
  induction as with
  | nil => rfl
  | cons a as ih => rw [List.map_cons, List.mapM_cons, h, ih]; rfl

/-- A string of nine-state values, not all of them two-state, is no string of bits. -/
theorem Logic.mapM_bit_eq_none {values : List Logic} (h : values.any (·.bit?.isNone) = true) :
    (values.map Logic.char).mapM Bit.ofChar? = none := by
  induction values with
  | nil => cases h
  | cons l values ih =>
    rw [List.map_cons, List.mapM_cons, l.bit_ofChar?_char]
    cases hl : l.bit? with
    | none => rfl
    | some b =>
      rw [List.any_cons, hl] at h
      rw [ih (by simpa using h)]
      rfl

namespace VectorLiteral

theorem quotedBody?_append {body : Text} (h : (body.all fun c => c != '"' && c != '\n') = true)
    (u : Text) (hu : u.head? ≠ some '"') :
    quotedBody? (body ++ '"' :: u) = if u.isEmpty then some body else none := by
  induction body with
  | nil =>
    cases u with
    | nil => rfl
    | cons c u =>
      have hc : c ≠ '"' := by simpa using hu
      rw [List.nil_append, quotedBody?.eq_def]
      simp [hc]
  | cons c body ih =>
    simp only [List.all_cons, Bool.and_eq_true, bne_iff_ne, ne_eq] at h
    obtain ⟨⟨hq, hn⟩, h⟩ := h
    have ih := ih (by simpa using h)
    rw [List.cons_append, quotedBody?.eq_def]
    split
    · rename_i heq
      simp at heq
    · rename_i heq
      exact absurd (List.cons_eq_cons.1 heq).1 hq
    · rename_i heq
      obtain ⟨rfl, rfl⟩ := List.cons_eq_cons.1 heq
      rw [ih, if_neg (by simp [hq, hn])]
      split <;> rfl
    · rename_i heq
      cases heq

/-- Digits without underscores are the body of a bit string. -/
theorem digitsWith_map {α : Type} {digit? : Char → Option α} {char : α → Char}
    (hc : ∀ a, isValueChar (char a) = true) (h : ∀ a, digit? (char a) = some a) (as : List α) :
    digitsWith digit? (as.map char) = some as := by
  have hmem := @not_mem_map α char hc as '_' (by decide)
  have hhead : (as.map char).head? ≠ some '_' := fun h => hmem (List.mem_of_head? h)
  have hlast : (as.map char).getLast? ≠ some '_' := fun h => hmem (List.mem_of_getLast? h)
  rw [← beq_eq_false_iff_ne] at hhead hlast
  rw [digitsWith, bitStringDigits?, hhead, hlast, hasDoubleUnderscore_eq_false hmem,
    filter_underscore hmem]
  exact mapM_map_char h as

/-- What starts with a letter is a bit string only if a quotation mark follows. -/
theorem readWith_eq_none_of_second {expr : Text → Option Expr} {literal : Text → Option Literal}
    {t : Text} (ht : Trimmed t) (hp : t.head? ≠ some '(') (hq : t.head? ≠ some '"')
    (hs : t.tail.head? ≠ some '"') : VectorLiteral.readWith expr literal t = none := by
  simp only [VectorLiteral.readWith, trim_eq_self ht]
  split
  · rfl
  · split
    · exact absurd rfl hp
    · exact absurd rfl hq
    · exact absurd rfl hs
    · rfl

/-- What starts with none of a letter, a parenthesis and a quotation mark is no vector. -/
theorem readWith_eq_none_of_head {expr : Text → Option Expr} {literal : Text → Option Literal}
    {t : Text} (ht : Trimmed t)
    (hh : t.head?.any (fun c => c == '(' || c == '"' || c.isAlpha) = false) :
    VectorLiteral.readWith expr literal t = none := by
  simp only [VectorLiteral.readWith, trim_eq_self ht]
  split
  · rfl
  · split
    · exact absurd hh (by simp)
    · exact absurd hh (by simp)
    · rename_i base rest _ _ _
      have hbase : ∀ c : Char, c.isAlpha = true → base.toLower ≠ c := by
        rintro c hc rfl
        rw [isAlpha_toLower] at hc
        simp [hc] at hh
      have hnone : ∀ body, readBased base.toLower body = none := fun body => by
        simp [readBased, hbase 'x' (by decide), hbase 'o' (by decide), hbase 'b' (by decide)]
      split
      · cases quotedBody? rest with
        | none => rfl
        | some body => exact hnone body
      · rfl
    · rfl

/-- A quoted literal with something after it is no vector. -/
theorem readWith_eq_none_of_quoted {expr : Text → Option Expr} {literal : Text → Option Literal}
    {before : Option Char} {body u : Text} (h : (quoted body).Fits before u.head?) (hu : u ≠ [])
    (ht : Trimmed ((quoted body).text ++ u)) :
    VectorLiteral.readWith expr literal ((quoted body).text ++ u) = none := by
  have hnone := quotedBody?_append h.1 u h.2
  rw [if_neg (by simpa using hu)] at hnone
  have htext : (quoted body).text ++ u = '"' :: (body ++ '"' :: u) := by simp
  rw [htext] at ht ⊢
  simp only [VectorLiteral.readWith, trim_eq_self ht, hnone, Option.bind_none, ite_self]

/-- A base specifier and a quoted literal with something after them are no vector. -/
theorem readWith_eq_none_of_based {expr : Text → Option Expr} {literal : Text → Option Literal}
    {before : Option Char} {b : Char} {body u : Text} (hb : isIdentChar b = true)
    (h : (quoted body).Fits before u.head?) (hu : u ≠ [])
    (ht : Trimmed (b :: ((quoted body).text ++ u))) :
    VectorLiteral.readWith expr literal (b :: ((quoted body).text ++ u)) = none := by
  have hnone := quotedBody?_append h.1 u h.2
  rw [if_neg (by simpa using hu)] at hnone
  have htext : (quoted body).text ++ u = '"' :: (body ++ '"' :: u) := by simp
  rw [htext] at ht ⊢
  simp only [VectorLiteral.readWith, trim_eq_self ht]
  split
  · rfl
  · split
    · rename_i heq; rw [(List.cons_eq_cons.1 heq).1] at hb; exact absurd hb (by decide)
    · rename_i heq; rw [(List.cons_eq_cons.1 heq).1] at hb; exact absurd hb (by decide)
    · rename_i heq
      obtain ⟨-, hrest⟩ := List.cons_eq_cons.1 heq
      rw [← (List.cons_eq_cons.1 hrest).2, hnone]
      simp
    · rfl

/-- A group with something after it is no vector. -/
theorem readWith_eq_none_of_group {expr : Text → Option Expr} {literal : Text → Option Literal}
    {inner : List Token} {u : Text} (h : FitAll (some '(') inner (some ')')) (hu : u ≠ [])
    (ht : Trimmed ((group inner).text ++ u)) :
    VectorLiteral.readWith expr literal ((group inner).text ++ u) = none := by
  have hempty : u.isEmpty = false := by simpa using hu
  have hnone : readAggregate expr literal ((group inner).text ++ u) = none := by
    simp only [readAggregate, parenthesised?_group h, Option.bind_eq_bind, Option.bind_some, hempty,
      Bool.not_false, Bool.true_or, if_true]
  rw [text_group, List.cons_append] at hnone ht ⊢
  simp only [VectorLiteral.readWith, trim_eq_self ht, hnone, Option.map_none, ite_self]

end VectorLiteral

/-! ## What is no literal -/

theorem sameWord_eq_false_of_head {w t : Text} (hw : IsName w)
    (ht : t.head?.any Char.isAlpha = false) : sameWord t w = false := by
  by_contra h
  rw [Bool.not_eq_false] at h
  rw [(hw.of_sameWord h).head] at ht
  cases ht

theorem sameWord_eq_false_of_mem {w t : Text} (hw : IsName w) {c : Char} (hc : c ∈ t)
    (hi : isIdentChar c = false) : sameWord t w = false := by
  by_contra h
  rw [Bool.not_eq_false] at h
  exact (hw.of_sameWord h).isRun.not_mem hi hc

theorem Token.FitAll.render_ne_nil {before next : Option Char} {tokens : List Token}
    (h : FitAll before tokens next) {token : Token} (ht : token ∈ tokens) : render tokens ≠ [] := by
  cases tokens with
  | nil => cases ht
  | cons t ts => simp [h.1.text_ne_nil]

/-- What starts a token that is no word, no quoted literal and no group. -/
theorem Token.Fits.head_plain {token : Token} {before next : Option Char}
    (h : token.Fits before next) (hw : ∀ w, token ≠ word w) (hq : ∀ body, token ≠ quoted body)
    (hg : ∀ inner, token ≠ group inner) :
    token.text.head?.any (fun c => c == '(' || c == '"' || c.isAlpha) = false := by
  cases token with
  | word w => exact absurd rfl (hw w)
  | quoted body => exact absurd rfl (hq body)
  | group inner => exact absurd rfl (hg inner)
  | ticked => rfl
  | number digits =>
    have hd := h.1
    cases digits with
    | nil => rfl
    | cons c digits =>
      have hd : c.isDigit = true := by simpa using hd
      have hne : ∀ d : Char, d.isDigit = false → c ≠ d := by
        rintro d hd' rfl; rw [hd] at hd'; cases hd'
      have ha : c.isAlpha = false := by
        cases ha : c.isAlpha with
        | false => rfl
        | true => rw [isDigit_eq_false_of_isAlpha ha] at hd; cases hd
      simp [hne '(' (by decide), hne '"' (by decide), ha]
  | symbol s =>
    have key : ∀ s ∈ symbols, s.head?.any (fun c => c == '(' || c == '"' || c.isAlpha) = false := by
      decide
    exact key s h.1
  | mark c =>
    have key : ∀ c ∈ marks, (c == '(' || c == '"' || c.isAlpha) = false := by decide
    exact key c h.1

/-- Only a quoted literal starts with a quotation mark. -/
theorem Token.quoted_of_head {token : Token} {before next : Option Char}
    (h : token.Fits before next) (hq : token.text.head? = some '"') : ∃ body, token = quoted body := by
  cases token with
  | quoted body => exact ⟨body, rfl⟩
  | word w => exact absurd (List.mem_of_head? hq) (h.1.not_mem (by decide))
  | number digits =>
    have := h.1
    rw [text_number] at hq
    rw [hq] at this
    exact absurd this (by decide)
  | symbol s =>
    have key : ∀ s ∈ symbols, s.head? ≠ some '"' := by decide
    exact absurd hq (key s h.1)
  | mark c =>
    obtain rfl := Option.some.inj hq
    exact absurd h.1 (by decide)
  | ticked | group => exact absurd (Option.some.inj hq) (by decide)

/-- Where no operand precedes, only a literal between ticks starts with a tick. -/
theorem Token.Fits.ticked_of_head {token : Token} {next : Option Char}
    (h : token.Fits none next) (ht : token.text.head? = some '\'') : ∃ c, token = ticked c := by
  cases token with
  | ticked c => exact ⟨c, rfl⟩
  | word w => exact absurd (List.mem_of_head? ht) (h.1.not_mem (by decide))
  | number digits =>
    have := h.1
    rw [text_number] at ht
    rw [ht] at this
    exact absurd this (by decide)
  | symbol s =>
    have key : ∀ s ∈ symbols, s.head? ≠ some '\'' := by decide
    exact absurd ht (key s h.1)
  | mark c =>
    obtain rfl := Option.some.inj ht
    exact absurd (h.2.2.2 rfl) (by decide)
  | quoted | group => exact absurd (Option.some.inj ht) (by decide)

/-- A quotation mark after the first character of a word starts a quoted literal. -/
theorem Token.FitAll.based_of_second {before next : Option Char} {w : Text} {rest : List Token}
    (h : FitAll before rest next) (hw : IsRun w) (hs : (w ++ render rest).tail.head? = some '"') :
    ∃ b body rest', w = [b] ∧ rest = quoted body :: rest' := by
  cases w with
  | nil => exact absurd rfl hw.ne_nil
  | cons b w =>
    rw [List.cons_append, List.tail_cons] at hs
    cases w with
    | cons d w =>
      rw [List.cons_append, List.head?_cons] at hs
      exact absurd (by rw [Option.some.inj hs]; simp) (hw.not_mem (c := '"') (by decide))
    | nil =>
      cases rest with
      | nil => cases hs
      | cons second rest =>
        rw [List.nil_append, render_cons, List.head?_append,
          List.head?_eq_some_head h.1.text_ne_nil, Option.some_or,
          ← List.head?_eq_some_head h.1.text_ne_nil] at hs
        obtain ⟨body, rfl⟩ := quoted_of_head h.1 hs
        exact ⟨b, body, rest, rfl, rfl⟩

namespace Literal

variable {expr : Text → Option Expr}

theorem isName_boolean (b : Bool) : IsName (if b then "true" else "false").toList := by
  cases b <;> exact isName_of_all (by decide)

/-- What is neither a truth value nor an integer is a real number or a vector. -/
theorem readPlain_eq {literal : Text → Option Literal} {t : Text}
    (hb : ∀ b : Bool, sameWord t (if b then "true" else "false").toList = false)
    (hi : Integer64.read t = none) :
    readPlain expr literal t = if t.contains '.' then (Real64.read t).map .real
      else (VectorLiteral.readWith expr literal t).map .vector := by
  have htrue : sameWord t "true".toList = false := hb true
  have hfalse : sameWord t "false".toList = false := hb false
  rw [readPlain, htrue, hfalse, hi]
  rfl

/-- A trimmed text that is not written between ticks is read as a plain literal. -/
theorem readNested_plain {literal : Text → Option Literal} {t : Text} {fuel : Nat}
    (hl : literal = readNested expr fuel) (ht : Solid t)
    (hfit : Text.fits Limits.literalBytes t = true) (htick : ∀ c, t ≠ ['\'', c, '\'']) {g g' : Text}
    (hg : IsPad g) (hg' : IsPad g') :
    readNested expr (fuel + 1) (g ++ (t ++ g')) = readPlain expr literal t := by
  have hne : t.isEmpty = false := by simpa using ht.ne_nil
  simp only [readNested, ht.trim_pad hg hg', hne, hfit, Bool.not_true, Bool.or_self,
    Bool.false_eq_true, if_false, ← hl]

theorem readWith_eq_none {t : Text} (ht : Solid t) (htick : ∀ c, t ≠ ['\'', c, '\''])
    (h : ∀ literal, readPlain expr literal t = none) : Literal.readWith expr t = none := by
  cases hfit : Text.fits Limits.literalBytes t with
  | true =>
    have := @readNested_plain expr _ t t.length rfl ht hfit htick [] [] isPad_nil isPad_nil
    rw [List.nil_append, List.append_nil, h] at this
    exact this
  | false => simp [Literal.readWith, readNested, trim_eq_self ht.toTrimmed, hfit]

/-- A word that is no truth value, whatever follows, is no literal unless a quotation
mark follows its first letter. -/
theorem readWith_eq_none_of_alpha {t : Text} (ht : Solid t) (ha : t.head?.any Char.isAlpha = true)
    (hs : t.tail.head? ≠ some '"') (hb : ∀ b : Bool, sameWord t (if b then "true" else "false").toList
      = false) : Literal.readWith expr t = none := by
  cases t with
  | nil => cases ha
  | cons c t =>
    have hc : c.isAlpha = true := by simpa using ha
    have hne : ∀ d : Char, d.isAlpha = false → c ≠ d := by
      rintro d hd rfl; rw [hc] at hd; cases hd
    refine readWith_eq_none ht (fun d => ?_) fun literal => ?_
    · rw [ne_eq, List.cons_eq_cons]; exact fun h => hne '\'' (by decide) h.1
    have hint : Integer64.read (c :: t) = none := by
      refine Integer64.read_eq_none (List.mem_cons_self ..) ?_
      simp [isDigit_eq_false_of_isAlpha hc, hne '_' (by decide), hne '-' (by decide)]
    have hreal : Real64.read (c :: t) = none := Real64.read_eq_none_of_head (by
      simp [isDigit_eq_false_of_isAlpha hc, hne '-' (by decide)])
    have hvector : VectorLiteral.readWith expr literal (c :: t) = none :=
      VectorLiteral.readWith_eq_none_of_second ht.toTrimmed (by simpa using hne '(' (by decide))
        (by simpa using hne '"' (by decide)) hs
    rw [readPlain_eq hb hint, hreal, hvector]
    split <;> rfl

/-- A text that starts with a parenthesis is a literal only if it is an aggregate. -/
theorem readPlain_open {literal : Text → Option Literal} {t : Text} (ht : Solid ('(' :: t)) :
    readPlain expr literal ('(' :: t) =
      if ('(' :: t).contains '.' then none
      else if Text.fits Limits.literalBytes ('(' :: t) then
        (VectorLiteral.readAggregate expr literal ('(' :: t)).map (.vector ∘ .aggregate)
      else none := by
  have hword : ∀ b : Bool, sameWord ('(' :: t) (if b then "true" else "false").toList = false :=
    fun b => sameWord_eq_false_of_head (isName_boolean b) (by rfl)
  have hint : Integer64.read ('(' :: t) = none :=
    Integer64.read_eq_none (List.mem_cons_self ..) (by decide)
  have hreal : Real64.read ('(' :: t) = none := Real64.read_eq_none_of_head (by simp)
  rw [readPlain_eq hword hint, hreal]
  split
  · rfl
  · simp only [VectorLiteral.readWith, trim_eq_self ht.toTrimmed]
    cases Text.fits Limits.literalBytes ('(' :: t) with
    | true => simp
    | false => simp

/-- A group without an arrow outside the parentheses in it is no literal. -/
theorem readWith_eq_none_of_group {inner : List Token} (hp : IsPhrase inner)
    (hl : Lacks "=>".toList inner) : Literal.readWith expr (group inner).text = none := by
  have hsolid : Solid (group inner).text := solid_enclosed (by decide) (by decide) _
  refine readWith_eq_none hsolid (fun c => by simp) fun literal => ?_
  have hspan := @parenthesised?_group inner [] (hp _ _ (by rfl) (by rfl))
  have hnone : outerMatch? "=>".toList (render inner) = none := by
    rw [outerMatch?_eq_head?, outerMatches_eq_nil (.inr (by decide)) (hp _ _ (by rfl) (by rfl)) hl]
    rfl
  rw [List.append_nil] at hspan
  have hagg : VectorLiteral.readAggregate expr literal (group inner).text = none := by
    simp only [VectorLiteral.readAggregate, hspan, Option.bind_eq_bind, Option.bind_some, hnone]
    rfl
  rw [text_group] at hagg hsolid ⊢
  rw [readPlain_open hsolid, hagg]
  simp

/-- A text of two or more tokens, a blank among them, is no vector. -/
theorem readVector_eq_none_of_blank {literal : Text → Option Literal} {first : Token}
    {rest : List Token} (hfit : FitAll none (first :: rest) none)
    (ht : Solid (render (first :: rest))) (hb : mark ' ' ∈ rest) :
    VectorLiteral.readWith expr literal (render (first :: rest)) = none := by
  have ht := ht.toTrimmed
  obtain ⟨hfirst, hrest⟩ := hfit
  rw [firstOr, Option.or_none] at hfirst
  cases first with
  | group inner => exact VectorLiteral.readWith_eq_none_of_group hfirst (hrest.render_ne_nil hb) ht
  | quoted body => exact VectorLiteral.readWith_eq_none_of_quoted hfirst (hrest.render_ne_nil hb) ht
  | number | ticked | symbol | mark =>
    refine VectorLiteral.readWith_eq_none_of_head ht ?_
    rw [render_cons, List.head?_append, List.head?_eq_some_head hfirst.text_ne_nil, Option.some_or,
      ← List.head?_eq_some_head hfirst.text_ne_nil]
    exact hfirst.head_plain (by simp) (by simp) (by simp)
  | word w =>
    have hrun : IsRun w := hfirst.1
    have hother : ∀ c : Char, isIdentChar c = false → (w ++ render rest).head? ≠ some c := by
      intro c hc hhd
      rw [List.head?_append, List.head?_eq_some_head hrun.ne_nil] at hhd
      exact hrun.not_mem hc (List.mem_of_head? (by rw [List.head?_eq_some_head hrun.ne_nil]; exact hhd))
    by_cases hsecond : (w ++ render rest).tail.head? = some '"'
    · -- The word is a base specifier, and a quoted literal follows it.
      obtain ⟨b, body, rest', rfl, rfl⟩ := hrest.based_of_second hrun hsecond
      have hb : mark ' ' ∈ rest' := by simpa using hb
      have hbody := hrest.1
      rw [firstOr, Option.or_none] at hbody
      have hident : isIdentChar b = true := List.all_eq_true.1 hrun.ident b (by simp)
      exact VectorLiteral.readWith_eq_none_of_based hident hbody (hrest.2.render_ne_nil hb) ht
    · exact VectorLiteral.readWith_eq_none_of_second ht (hother '(' (by decide))
        (hother '"' (by decide)) hsecond

/-- A text of two or more tokens, a blank among them, is no literal. -/
theorem readWith_eq_none_of_blank {first : Token} {rest : List Token}
    (hfit : FitAll none (first :: rest) none) (ht : Solid (render (first :: rest)))
    (hb : mark ' ' ∈ rest) : Literal.readWith expr (render (first :: rest)) = none := by
  have hmem : ' ' ∈ render (first :: rest) := by
    obtain ⟨l, r, rfl⟩ := List.append_of_mem hb
    simp
  refine readWith_eq_none ht (fun c hc => ?_) fun literal => ?_
  · obtain ⟨d, rfl⟩ := hfit.1.ticked_of_head (by
      rw [render_cons] at hc
      have := congrArg List.head? hc
      rwa [List.head?_append, List.head?_eq_some_head hfit.1.text_ne_nil, Option.some_or,
        ← List.head?_eq_some_head hfit.1.text_ne_nil] at this)
    have hlen := congrArg List.length hc
    have hpos := List.length_pos_iff.2 (hfit.2.render_ne_nil hb)
    simp only [render_cons, text_ticked, List.length_append, List.length_cons, List.length_nil] at hlen
    omega
  · have hword : ∀ b : Bool, sameWord (render (first :: rest)) (if b then "true" else "false").toList
        = false := fun b => sameWord_eq_false_of_mem (isName_boolean b) hmem (by decide)
    rw [readPlain_eq hword (Integer64.read_eq_none hmem (by decide)),
      Real64.read_eq_none_of_mem hmem (by decide), readVector_eq_none_of_blank hfit ht hb]
    split <;> rfl

end Literal

/-! ## Reading literals back -/

/-- A reader returns every canonical expression of at most `n` levels. -/
def Expr.ReadsUpTo (n : Nat) (expr : Text → Option Expr) : Prop :=
  ∀ e : Expr, e.isCanonical = true → e.levels ≤ n →
    Text.fits Limits.expressionBytes e.text = true → Reads expr e.text e

theorem Range.isInfix_text (r : Range) : r.low.text <:+: r.text ∧ r.high.text <:+: r.text := by
  cases r with
  | ascending low high =>
    exact ⟨⟨[], ' ' :: ("to".toList ++ ' ' :: high.text), by rw [Range.text_ascending]; rfl⟩,
      ⟨low.text ++ ' ' :: ("to".toList ++ [' ']), [], by rw [Range.text_ascending]; simp [Range.high]⟩⟩
  | descending high low =>
    exact ⟨⟨high.text ++ ' ' :: ("downto".toList ++ [' ']), [], by
        rw [Range.text_descending]; simp [Range.low]⟩,
      ⟨[], ' ' :: ("downto".toList ++ ' ' :: low.text), by rw [Range.text_descending]; rfl⟩⟩

variable {n : Nat} {expr : Text → Option Expr}

theorem Range.reads_ends (hexpr : Expr.ReadsUpTo n expr) (r : Range) (hc : r.isCanonical = true)
    (hl : r.levels ≤ n) (hfit : Text.fits Limits.expressionBytes r.text = true) :
    Reads expr r.low.text r.low ∧ Reads expr r.high.text r.high := by
  have hlow := fits_of_isInfix hfit r.isInfix_text.1
  have hhigh := fits_of_isInfix hfit r.isInfix_text.2
  cases r with
  | ascending low high =>
    simp only [Range.isCanonical, Bool.and_eq_true] at hc
    simp only [Range.levels, Nat.max_le] at hl
    exact ⟨hexpr low hc.1 hl.1 hlow, hexpr high hc.2 hl.2 hhigh⟩
  | descending high low =>
    simp only [Range.isCanonical, Bool.and_eq_true] at hc
    simp only [Range.levels, Nat.max_le] at hl
    exact ⟨hexpr low hc.2 hl.2 hlow, hexpr high hc.1 hl.1 hhigh⟩

/-- A canonical index is read from its text. -/
theorem Index.reads_text (hexpr : Expr.ReadsUpTo n expr) (i : Index) (hc : i.isCanonical = true)
    (hl : i.levels ≤ n) (hfit : Text.fits Limits.expressionBytes i.text = true) :
    Reads (Index.readWith expr) i.text i := by
  refine Index.readWith_text i (Index.isDesignator_of_isCanonical i hc) hfit ?_
  cases i with
  | position value => exact hexpr value hc hl hfit
  | slice range => exact range.reads_ends hexpr hc hl hfit
  | others => trivial

/-- An element of an aggregate is read from its text. -/
theorem Element.readElement_text (hexpr : Expr.ReadsUpTo n expr) {literal : Text → Option Literal}
    (index : Index) (value : Literal) (hc : index.isCanonical = true) (hl : index.levels ≤ n)
    (hfit : Text.fits Limits.expressionBytes index.text = true)
    (hvalue : Reads literal value.text value) :
    Reads (VectorLiteral.readElement expr literal) (Element.mk index value).text (.mk index value) := by
  intro g g' hg hg'
  have hd := Index.isDesignator_of_isCanonical index hc
  have hphrase := (index.isPhrase fun d h => (hd d h).toIsName).pad hg isPad_nil
  have hlack : Lacks "=>".toList index.tokens := index.lacks (by decide) (by decide) (by decide) hd
  have hcut := cutOuter?_spaced (.inr (by decide)) (by decide) hphrase
    (lacks_append.2 ⟨lacks_pad (by decide) hg, lacks_append.2 ⟨hlack, lacks_pad (by decide) isPad_nil⟩⟩)
    (value.text ++ g')
  have htext : g ++ ((Element.mk index value).text ++ g')
      = render (Token.pad g ++ (index.tokens ++ Token.pad []))
        ++ ' ' :: ("=>".toList ++ ' ' :: (value.text ++ g')) := by
    simp [Element.text, index.render_tokens]
  have hindex : Index.readWith expr
      (render (Token.pad g ++ (index.tokens ++ Token.pad [])) ++ [' ']) = some index := by
    have := index.reads_text hexpr hc hl hfit g [' '] hg isPad_blank
    simpa [index.render_tokens] using this
  have hval : literal (' ' :: (value.text ++ g')) = some value := hvalue [' '] g' isPad_blank hg'
  simp only [VectorLiteral.readElement, htext, hcut, hindex, hval, Option.bind_eq_bind,
    Option.bind_some]

/-- An integer starts with a digit or with a sign. -/
theorem Integer64.head_text (n : Integer64) :
    n.text.head?.any (fun c => c.isDigit || c == '-') = true := by
  rw [Integer64.text, Text.ofInt]
  split
  · rfl
  · cases hd : Text.ofNat n.val.natAbs with
    | nil => exact absurd hd (ofNat_ne_nil _)
    | cons c t => simp [isDigit_of_mem_ofNat (c := c) (by rw [hd]; simp)]

namespace Literal

theorem readNested_ticked {c : Char} (hfit : Text.fits Limits.literalBytes (tickedText c) = true)
    (fuel : Nat) {g g' : Text} (hg : IsPad g) (hg' : IsPad g') :
    readNested expr (fuel + 1) (g ++ (tickedText c ++ g')) = readTicked c := by
  have hsolid : Solid (tickedText c) := solid_enclosed (by decide) (by decide) [c]
  simp only [readNested, hsolid.trim_pad hg hg', hfit]
  rfl

theorem readPlain_boolean {literal : Text → Option Literal} (b : Bool) :
    readPlain expr literal (Literal.boolean b).text = some (.boolean b) := by
  cases b <;> rfl

theorem readPlain_integer {literal : Text → Option Literal} (n : Integer64) :
    readPlain expr literal n.text = some (.integer n) := by
  have hhead : n.text.head?.any Char.isAlpha = false := by
    have := n.head_text
    cases ht : n.text with
    | nil => rfl
    | cons c t =>
      rw [ht] at this
      cases ha : c.isAlpha with
      | false => simpa using ha
      | true =>
        have hdash : c ≠ '-' := by rintro rfl; cases ha
        simp [isDigit_eq_false_of_isAlpha ha, hdash] at this
  have hword : ∀ b : Bool, sameWord n.text (if b then "true" else "false").toList = false :=
    fun b => sameWord_eq_false_of_head (isName_boolean b) hhead
  have htrue : sameWord n.text "true".toList = false := hword true
  have hfalse : sameWord n.text "false".toList = false := hword false
  rw [readPlain, htrue, hfalse, n.read_text]
  rfl

end Literal

theorem Element.mem_listDesignators {es : List Element} {e : Element} (he : e ∈ es) {d : Text}
    (hd : d ∈ e.designators) : d ∈ Element.listDesignators es := by
  induction es with
  | nil => cases he
  | cons f es ih =>
    rw [Element.listDesignators, List.mem_append]
    rcases List.mem_cons.1 he with rfl | he
    · exact .inl hd
    · exact .inr (ih he)

theorem Element.lacks_comma (e : Element) (hd : ∀ d ∈ e.designators, IsDesignator d) :
    Lacks [','] e.tokens := by
  cases e with
  | mk index value =>
    simp only [Element.designators, List.mem_append, or_imp, forall_and] at hd
    rw [Element.tokens, lacks_append, lacks_append]
    exact ⟨index.lacks (by decide) (by decide) (by decide) hd.1, by decide,
      lacks_of_isCalm (by decide) value.isCalm⟩

/-- An arrow stands outside the parentheses of the first element. -/
theorem Element.isSome_arrow {es : List Element} (hne : es ≠ [])
    (hd : ∀ e ∈ es, ∀ d ∈ e.designators, IsDesignator d) :
    (outerMatch? "=>".toList (render (commaJoin (es.map Element.tokens)))).isSome = true := by
  cases es with
  | nil => exact absurd rfl hne
  | cons e es =>
    cases e with
    | mk index value =>
      have hd := hd (.mk index value) (by simp)
      simp only [Element.designators, List.mem_append, or_imp, forall_and] at hd
      have hphrase := index.isPhrase fun d h => (hd.1 d h).toIsName
      have hlack : Lacks "=>".toList index.tokens :=
        index.lacks (by decide) (by decide) (by decide) hd.1
      obtain ⟨u, hu⟩ : ∃ u, render (commaJoin ((Element.mk index value :: es).map Element.tokens))
          = render index.tokens ++ ' ' :: ("=>".toList ++ ' ' :: u) := by
        refine ⟨render (value.tokens ++ (es.map Element.tokens).flatMap (mark ',' :: mark ' ' :: ·)), ?_⟩
        simp only [List.map_cons, commaJoin, Element.tokens, render_append, render_spaced,
          List.append_assoc, List.cons_append, List.nil_append]
      have hcut := cutOuter?_spaced (.inr (by decide)) (by decide) hphrase hlack u
      rw [cutOuter?, Option.map_eq_some_iff] at hcut
      obtain ⟨i, hi, -⟩ := hcut
      rw [hu, hi]
      rfl

namespace VectorLiteral

/-- A vector is written with a quotation mark or in parentheses. -/
theorem exists_mem_text (v : VectorLiteral) : '"' ∈ v.text ∨ '(' ∈ v.text := by
  cases v with
  | bits | logics | hexadecimal | octal => exact .inl (by simp [VectorLiteral.text, quotedText])
  | aggregate => exact .inr (by simp [VectorLiteral.text])

theorem text_ne_ticked (v : VectorLiteral) (c : Char) : v.text ≠ ['\'', c, '\''] := by
  intro h
  have := congrArg List.head? h
  cases v with
  | bits | logics | hexadecimal | octal | aggregate =>
    exact absurd (Option.some.inj this) (by decide)

theorem not_mem_quotedText {α : Type} {char : α → Char} (h : ∀ a, isValueChar (char a) = true)
    (as : List α) {base : Text} (hb : '.' ∉ base) : '.' ∉ quotedText base (as.map char) := by
  simpa [quotedText, hb] using not_mem_map h as (by decide : isValueChar '.' = false)

theorem contains_point {v : VectorLiteral} (h : v.isCanonical = true) :
    v.text.contains '.' = false := by
  rw [List.contains_eq_mem, decide_eq_false_iff_not]
  cases v with
  | bits values => exact not_mem_quotedText Bit.isValueChar_char values (by simp)
  | logics values => exact not_mem_quotedText Logic.isValueChar_char values (by simp)
  | hexadecimal digits => exact not_mem_quotedText HexDigit.isValueChar_char digits (by simp)
  | octal digits => exact not_mem_quotedText OctalDigit.isValueChar_char digits (by simp)
  | aggregate elements =>
    simp only [isCanonical, Bool.and_eq_true, Bool.not_eq_true'] at h
    simpa using h.1.2

/-- A vector literal is read as a literal. -/
theorem readPlain_text {literal : Text → Option Literal} {v : VectorLiteral}
    (hc : v.isCanonical = true) (h : VectorLiteral.readWith expr literal v.text = some v) :
    Literal.readPlain expr literal v.text = some (.vector v) := by
  obtain ⟨c, hmem, hident, hint⟩ : ∃ c ∈ v.text, isIdentChar c = false ∧
      (c.isDigit || c == '_' || c == '-') = false := by
    rcases v.exists_mem_text with hm | hm
    · exact ⟨_, hm, by decide, by decide⟩
    · exact ⟨_, hm, by decide, by decide⟩
  have hword : ∀ b : Bool, sameWord v.text (if b then "true" else "false").toList = false :=
    fun b => sameWord_eq_false_of_mem (Literal.isName_boolean b) hmem hident
  rw [Literal.readPlain_eq hword (Integer64.read_eq_none hmem hint), contains_point hc, h]
  rfl

theorem readWith_quoted {literal : Text → Option Literal} {body : Text}
    (h : (body.all fun c => c != '"' && c != '\n') = true)
    (hfit : Text.fits Limits.expressionBytes (quotedText [] body) = true) :
    VectorLiteral.readWith expr literal (quotedText [] body) = readValues body := by
  have hsolid : Solid (quotedText [] body) := solid_quotedText (by simp) body
  have hfit : Text.fits Limits.literalBytes (quotedText [] body) = true := hfit
  have hbody := quotedBody?_append h [] (by simp)
  simp only [VectorLiteral.readWith, trim_eq_self hsolid.toTrimmed, hfit]
  rw [quotedText, List.nil_append]
  simp only [Bool.not_true, Bool.false_eq_true, if_false, hbody]
  rfl

theorem readWith_based {literal : Text → Option Literal} {b : Char} {body : Text}
    (hb : b ∈ ['x', 'o']) (h : (body.all fun c => c != '"' && c != '\n') = true)
    (hfit : Text.fits Limits.expressionBytes (quotedText [b] body) = true) :
    VectorLiteral.readWith expr literal (quotedText [b] body) = readBased b body := by
  have key : ∀ b ∈ ['x', 'o'], isBlank b = false ∧ b.toLower = b ∧ b.toNat < 128 ∧ b ≠ '(' ∧ b ≠ '"' := by
    decide
  obtain ⟨hblank, hlower, hascii, hp, hq⟩ := key b hb
  have hsolid : Solid (quotedText [b] body) := solid_quotedText (by simpa using hblank) body
  have hfit : Text.fits Limits.literalBytes (quotedText [b] body) = true := hfit
  have hbody := quotedBody?_append h [] (by simp)
  simp only [VectorLiteral.readWith, trim_eq_self hsolid.toTrimmed, hfit]
  rw [quotedText, List.singleton_append]
  simp only [Bool.not_true, Bool.false_eq_true, if_false, hbody]
  simp [hascii, hlower]

/-- An aggregate is read from its text, provided that its elements are. -/
theorem readWith_aggregate {literal : Text → Option Literal} {elements : List Element}
    (hne : elements ≠ []) (hd : ∀ d ∈ (aggregate elements).designators, IsDesignator d)
    (hfit : Text.fits Limits.expressionBytes (aggregate elements).text = true)
    (hread : ∀ e ∈ elements, Reads (readElement expr literal) e.text e) :
    VectorLiteral.readWith expr literal (aggregate elements).text = some (.aggregate elements) := by
  have hsolid : Solid (aggregate elements).text := solid_enclosed (by decide) (by decide) _
  have hfit : Text.fits Limits.literalBytes (aggregate elements).text = true := hfit
  have hdes : ∀ e ∈ elements, ∀ d ∈ e.designators, IsDesignator d := fun e he d hm =>
    hd d (Element.mem_listDesignators he hm)
  have hphrase : ∀ e ∈ elements, IsPhrase e.tokens := fun e he =>
    e.isPhrase fun d hm => (hdes e he d hm).toIsName
  have hjoin : IsPhrase (commaJoin (elements.map Element.tokens)) :=
    IsPhrase.commaJoin (by rwa [List.forall_mem_map])
  have htext : (aggregate elements).text = (group (commaJoin (elements.map Element.tokens))).text := by
    rw [← VectorLiteral.render_tokens, VectorLiteral.tokens, Element.tokenLists_eq_map, render_cons,
      render_nil, List.append_nil]
  have hspan := @parenthesised?_group _ [] (hjoin _ _ (by rfl) (by rfl))
  rw [List.append_nil, ← htext] at hspan
  have harrow := Element.isSome_arrow hne hdes
  have hall := mapM_splitOuter_commaJoin hne hphrase (fun e he => e.lacks_comma (hdes e he))
    fun e he => by rw [e.render_tokens]; exact hread e he
  have hagg : readAggregate expr literal (aggregate elements).text = some elements := by
    simp only [readAggregate, hspan, Option.bind_eq_bind, Option.bind_some]
    rw [Option.isNone_eq_false_iff.2 harrow, hall]
    rfl
  simp only [VectorLiteral.readWith, trim_eq_self hsolid.toTrimmed, hfit, hagg]
  rfl

end VectorLiteral

mutual

/-- **A canonical literal is read from its text.** -/
theorem Literal.readNested_text (hexpr : Expr.ReadsUpTo n expr) :
    ∀ (l : Literal) (fuel : Nat), l.isCanonical = true → l.levels ≤ n →
      Text.fits Limits.expressionBytes l.text = true → l.text.length ≤ fuel →
      Reads (Literal.readNested expr (fuel + 1)) l.text l
  | .bit value, fuel, _, _, hfit, _ => by
    intro g g' hg hg'
    rw [Literal.text, Literal.readNested_ticked hfit fuel hg hg', Literal.readTicked,
      value.ofChar?_char]
  | .boolean value, fuel, _, _, hfit, _ => by
    intro g g' hg hg'
    rw [Literal.readNested_plain rfl (Literal.solid_text _) hfit (by cases value <;> simp [Literal.text])
      hg hg', Literal.readPlain_boolean]
  | .real value, _, hc, _, _, _ => absurd hc (by simp [Literal.isCanonical])
  | .integer value, fuel, _, _, hfit, _ => by
    intro g g' hg hg'
    have htick : ∀ c, value.text ≠ ['\'', c, '\''] := by
      intro c h
      have := value.head_text
      rw [h, List.head?_cons, Option.any_some] at this
      exact absurd this (by decide)
    rw [Literal.text, Literal.readNested_plain rfl value.solid_text hfit htick hg hg',
      Literal.readPlain_integer]
  | .logic value, fuel, hc, _, hfit, _ => by
    intro g g' hg hg'
    simp only [Literal.isCanonical, Option.isNone_iff_eq_none] at hc
    rw [Literal.text, Literal.readNested_ticked hfit fuel hg hg', Literal.readTicked,
      value.bit_ofChar?_char, hc, value.ofChar?_char]
    rfl
  | .vector value, fuel, hc, hl, hfit, hfuel => by
    intro g g' hg hg'
    rw [Literal.readNested_plain rfl (Literal.solid_text _) hfit value.text_ne_ticked hg hg']
    exact VectorLiteral.readPlain_text hc (VectorLiteral.readWith_text hexpr value fuel hc hl hfit hfuel)

/-- A canonical vector literal is read from its text. -/
theorem VectorLiteral.readWith_text (hexpr : Expr.ReadsUpTo n expr) :
    ∀ (v : VectorLiteral) (fuel : Nat), v.isCanonical = true → v.levels ≤ n →
      Text.fits Limits.expressionBytes v.text = true → v.text.length ≤ fuel →
      VectorLiteral.readWith expr (Literal.readNested expr fuel) v.text = some v
  | .bits values, _, _, _, hfit, _ => by
    rw [VectorLiteral.text, VectorLiteral.readWith_quoted (all_plain_map Bit.isValueChar_char values) hfit,
      VectorLiteral.readValues, mapM_map_char Bit.ofChar?_char]
  | .logics values, _, hc, _, hfit, _ => by
    rw [VectorLiteral.text,
      VectorLiteral.readWith_quoted (all_plain_map Logic.isValueChar_char values) hfit,
      VectorLiteral.readValues, Logic.mapM_bit_eq_none hc, mapM_map_char Logic.ofChar?_char]
    rfl
  | .hexadecimal digits, _, _, _, hfit, _ => by
    rw [VectorLiteral.text, VectorLiteral.readWith_based (by decide)
      (all_plain_map HexDigit.isValueChar_char digits) hfit, VectorLiteral.readBased, if_pos (by decide),
      VectorLiteral.digitsWith_map HexDigit.isValueChar_char HexDigit.ofChar?_char]
    rfl
  | .octal digits, _, _, _, hfit, _ => by
    rw [VectorLiteral.text, VectorLiteral.readWith_based (by decide)
      (all_plain_map OctalDigit.isValueChar_char digits) hfit, VectorLiteral.readBased,
      if_neg (by decide), if_pos (by decide),
      VectorLiteral.digitsWith_map OctalDigit.isValueChar_char OctalDigit.ofChar?_char]
    rfl
  | .aggregate elements, fuel, hc, hl, hfit, hfuel => by
    have hd := VectorLiteral.isDesignator_of_isCanonical (.aggregate elements) hc
    simp only [VectorLiteral.isCanonical, Bool.and_eq_true, Bool.not_eq_true'] at hc
    have hpart : ∀ e ∈ elements, e.text <:+: Text.join ", ".toList (Element.texts elements) := by
      intro e he
      rw [Element.texts_eq_map]
      exact isInfix_join (List.mem_map_of_mem he)
    have htext : Text.join ", ".toList (Element.texts elements)
        <:+: (VectorLiteral.aggregate elements).text := ⟨['('], [')'], rfl⟩
    have hlen : (VectorLiteral.aggregate elements).text.length
        = (Text.join ", ".toList (Element.texts elements)).length + 2 := by
      simp [VectorLiteral.text]
    obtain ⟨fuel, rfl⟩ : ∃ m, fuel = m + 1 := ⟨fuel - 1, by omega⟩
    refine VectorLiteral.readWith_aggregate (by simpa using hc.1.1) hd hfit
      (Element.readElement_texts hexpr elements fuel hc.2 hl fun e he => ⟨?_, ?_⟩)
    · exact fits_of_isInfix hfit ((hpart e he).trans htext)
    · have := (hpart e he).length_le
      omega

theorem Element.readElement_texts (hexpr : Expr.ReadsUpTo n expr) :
    ∀ (es : List Element) (fuel : Nat), Element.areCanonical es = true → Element.listLevels es ≤ n →
      (∀ e ∈ es, Text.fits Limits.expressionBytes e.text = true ∧ e.text.length ≤ fuel) →
      ∀ e ∈ es, Reads (VectorLiteral.readElement expr (Literal.readNested expr (fuel + 1))) e.text e
  | [], _, _, _, _, e, he => absurd he (by simp)
  | .mk index value :: es, fuel, hc, hl, hfit, e, he => by
    simp only [Element.areCanonical, Element.isCanonical, Bool.and_eq_true] at hc
    simp only [Element.listLevels, Element.levels, Nat.max_le] at hl
    rcases List.mem_cons.1 he with rfl | he
    · obtain ⟨hfits, hlen⟩ := hfit (.mk index value) (by simp)
      have hindex : index.text <:+: (Element.mk index value).text :=
        ⟨[], " => ".toList ++ value.text, rfl⟩
      have hvalue : value.text <:+: (Element.mk index value).text :=
        ⟨index.text ++ " => ".toList, [], by simp [Element.text]⟩
      exact Element.readElement_text hexpr index value hc.1.1 hl.1.1 (fits_of_isInfix hfits hindex)
        (Literal.readNested_text hexpr value fuel hc.1.2 hl.1.2 (fits_of_isInfix hfits hvalue)
          (Nat.le_trans hvalue.length_le hlen))
    · exact Element.readElement_texts hexpr es fuel hc.2 hl.2
        (fun e' he' => hfit e' (by simp [he'])) e he

end

end CanonicalVhdl
