import CanonicalVhdl.Proofs.Expr.Keyword

/-!
# Reading expressions back

The reader inverts the canonical text of every canonical expression that is not too
long, given one level of room for every level of the tree.  The induction is on the
room; each kind of expression is found again by its shape.

## Main statements

* `Expr.readsUpTo_readCode` — the reader returns every canonical expression.
* `Expr.read_text_of_isCanonical` — the round trip.
-/

namespace CanonicalVhdl

open Text Token

/-! ## Keywords in the tokens of expressions -/

namespace Token

theorem parted_blank_right (t : Token) : Parted t (mark ' ') :=
  ⟨fun _ => rfl, fun _ h => by cases h⟩

theorem parted_blank_left (u : Token) : Parted (mark ' ') u :=
  ⟨(fun h => by cases h), fun _ _ _ _ => rfl⟩

theorem isChain_blank {ts : List Token} (h : List.IsChain Parted ts) :
    List.IsChain Parted (mark ' ' :: ts) := by
  cases ts with
  | nil => exact List.isChain_singleton _
  | cons t ts => exact List.isChain_cons_cons.2 ⟨parted_blank_left t, h⟩

/-- A connective between blanks parts its neighbours. -/
theorem isChain_spaced {ts us : List Token} (hts : List.IsChain Parted ts)
    (hus : List.IsChain Parted us) (s : Text) : List.IsChain Parted (ts ++ (spaced s ++ us)) := by
  refine List.isChain_append.2 ⟨hts, ?_, ?_⟩
  · exact List.isChain_cons_cons.2 ⟨parted_blank_left _,
      List.isChain_cons_cons.2 ⟨parted_blank_right _, isChain_blank hus⟩⟩
  · rintro t - u hu
    obtain rfl : mark ' ' = u := by simpa [spaced] using hu
    exact parted_blank_right t

/-- Neighbours that are no keywords need no blank between them. -/
theorem parted_of_not_isKeyword {t u : Token} (ht : t.isKeyword = false)
    (hu : ∀ w, u = word w → isReserved w = true → sameWord w "range".toList = true) : Parted t u := by
  refine ⟨fun h => ?_, fun w hw hres hrange => ?_⟩
  · rw [ht] at h; cases h
  · rw [hu w hw hres] at hrange; cases hrange

end Token

theorem Reference.isChain_tokens (r : Reference) (h : ∀ d ∈ r.designators, IsDesignator d) :
    List.IsChain Parted r.tokens := by
  cases r with
  | name n => exact List.isChain_singleton _
  | member record field =>
    refine List.isChain_cons_cons.2 ⟨parted_of_not_isKeyword record.not_isReserved (by simp), ?_⟩
    refine List.isChain_cons_cons.2 ⟨parted_of_not_isKeyword rfl ?_, List.isChain_singleton _⟩
    rintro w ⟨⟩ hres
    rw [field.not_isReserved] at hres
    cases hres
  | indexed n index =>
    exact List.isChain_cons_cons.2 ⟨parted_of_not_isKeyword n.not_isReserved (by simp),
      List.isChain_singleton _⟩
  | attributeOf object designator =>
    refine List.isChain_cons_cons.2 ⟨parted_of_not_isKeyword object.not_isReserved (by simp), ?_⟩
    refine List.isChain_cons_cons.2 ⟨parted_of_not_isKeyword rfl ?_, List.isChain_singleton _⟩
    rintro w ⟨⟩
    exact (h designator (by simp [Reference.designators])).range_of_isReserved

theorem isChain_signed (negative : Bool) (digits : Text) :
    List.IsChain Parted ((if negative then [mark '-'] else []) ++ [number digits]) := by
  cases negative with
  | false => exact List.isChain_singleton _
  | true =>
    exact List.isChain_cons_cons.2 ⟨parted_of_not_isKeyword rfl (by simp), List.isChain_singleton _⟩

theorem Literal.isChain_tokens (l : Literal) : List.IsChain Parted l.tokens := by
  have hbased : ∀ {w : Text} (body : Text), isReserved w = false →
      List.IsChain Parted [word w, quoted body] := fun body hw =>
    List.isChain_cons_cons.2 ⟨parted_of_not_isKeyword hw (by simp), List.isChain_singleton _⟩
  cases l with
  | bit | boolean | logic => exact List.isChain_singleton _
  | real value => exact isChain_signed value.negative _
  | integer value =>
    have := isChain_signed (decide (value.val < 0)) (Text.ofNat value.val.natAbs)
    simpa only [decide_eq_true_eq, Literal.tokens, Integer64.tokens] using this
  | vector value =>
    cases value with
    | bits | logics | aggregate => exact List.isChain_singleton _
    | hexadecimal digits => exact hbased _ (isReserved_names.2.2 "x" (by simp))
    | octal digits => exact hbased _ (isReserved_names.2.2 "o" (by simp))

/-- The reserved words outside the parentheses of an expression stand between blanks. -/
theorem Expr.isChain_tokens :
    ∀ e : Expr, (∀ d ∈ e.designators, IsDesignator d) → List.IsChain Parted e.tokens
  | .reference r, h => r.isChain_tokens h
  | .literal l, _ => l.isChain_tokens
  | .arith lhs op rhs, h => by
    simp only [Expr.designators, List.mem_append, or_imp, forall_and] at h
    exact isChain_spaced (Expr.isChain_tokens lhs h.1) (Expr.isChain_tokens rhs h.2) _
  | .group inner, _ => List.isChain_singleton _
  | .compare lhs op rhs, h => by
    simp only [Expr.designators, List.mem_append, or_imp, forall_and] at h
    exact isChain_spaced (Expr.isChain_tokens lhs h.1) (Expr.isChain_tokens rhs h.2) _
  | .edge kind signal, _ =>
    List.isChain_cons_cons.2 ⟨parted_of_not_isKeyword kind.not_isReserved (by simp),
      List.isChain_singleton _⟩
  | .negation operand, h =>
    List.isChain_cons_cons.2 ⟨parted_blank_right _, isChain_blank (Expr.isChain_tokens operand h)⟩
  | .logic lhs op rhs, h => by
    simp only [Expr.designators, List.mem_append, or_imp, forall_and] at h
    exact isChain_spaced (Expr.isChain_tokens lhs h.1) (Expr.isChain_tokens rhs h.2) _
  | .convert kind value, _ =>
    List.isChain_cons_cons.2 ⟨parted_of_not_isKeyword kind.not_isReserved (by simp),
      List.isChain_singleton _⟩
  | .call name arguments, _ =>
    List.isChain_cons_cons.2 ⟨parted_of_not_isKeyword name.not_isReserved (by simp),
      List.isChain_singleton _⟩

/-- A range is no expression. -/
theorem Expr.readCode_range (n : Nat) (r : Range) (h : ∀ d ∈ r.designators, IsDesignator d) :
    Expr.readCode n r.text = none := by
  have hmild : ∀ {e : Expr}, (∀ d ∈ e.designators, IsDesignator d) → ∀ t ∈ e.tokens, t.IsMild :=
    fun h t ht => .inl (Expr.isCalm _ h t ht)
  have hspaced : ∀ w ∈ ["to", "downto"], ∀ t ∈ spaced w.toList, t.IsMild := by
    intro w hw t ht
    simp only [List.mem_cons, List.not_mem_nil, or_false] at hw
    rcases hw with rfl | rfl
    · simp only [spaced, List.mem_cons, List.not_mem_nil, or_false] at ht
      rcases ht with rfl | rfl | rfl
      · exact .inl rfl
      · exact .inr ⟨_, rfl⟩
      · exact .inl rfl
    · simp only [spaced, List.mem_cons, List.not_mem_nil, or_false] at ht
      rcases ht with rfl | rfl | rfl
      · exact .inl rfl
      · exact .inr ⟨_, rfl⟩
      · exact .inl rfl
  have hcalm : ∀ w ∈ ["to", "downto"], (word w.toList).isCalm = false := by decide
  have hphrase := r.isPhrase (fun d hd => (h d hd).toIsName) none none (by rfl) (by rfl)
  rw [← r.render_tokens]
  cases r with
  | ascending low high =>
    simp only [Range.designators, List.mem_append, or_imp, forall_and] at h
    refine Expr.readCode_eq_none_of_keyword n _ "to".toList ?_ (hcalm "to" (by simp)) hphrase
      (isChain_spaced (low.isChain_tokens h.1) (high.isChain_tokens h.2) _) ?_
    · simp only [Range.tokens, List.mem_append]
      exact .inr (.inl (.tail _ (.head _)))
    · simp only [Range.tokens, List.mem_append, or_imp, forall_and]
      exact ⟨hmild h.1, hspaced "to" (by simp), hmild h.2⟩
  | descending high low =>
    simp only [Range.designators, List.mem_append, or_imp, forall_and] at h
    refine Expr.readCode_eq_none_of_keyword n _ "downto".toList ?_ (hcalm "downto" (by simp)) hphrase
      (isChain_spaced (high.isChain_tokens h.1) (low.isChain_tokens h.2) _) ?_
    · simp only [Range.tokens, List.mem_append]
      exact .inr (.inl (.tail _ (.head _)))
    · simp only [Range.tokens, List.mem_append, or_imp, forall_and]
      exact ⟨hmild h.1, hspaced "downto" (by simp), hmild h.2⟩

/-- The choice of all other positions is no expression. -/
theorem Expr.readCode_others (n : Nat) : Expr.readCode n "others".toList = none := by
  have hothers : (word "others".toList).isCalm = false := by decide
  have := Expr.readCode_eq_none_of_keyword n [word "others".toList] "others".toList (by simp) hothers
    ⟨(isName_of_all (by decide)).fits rfl rfl, trivial⟩ (List.isChain_singleton _)
    (by simpa using .inr ⟨_, rfl⟩)
  simpa only [render_cons, text_word, render_nil, List.append_nil] using this

/-! ## The shapes of texts -/

section Shapes

variable {code expr : Text → Option Expr}

/-- A name with something after it is no literal, unless it is a quotation mark. -/
theorem Literal.readWith_eq_none_of_name {w u : Text} {c : Char} (hw : IsName w)
    (hsolid : Solid (w ++ c :: u)) (hc : c ≠ '"') (hi : isIdentChar c = false) :
    Literal.readWith expr (w ++ c :: u) = none := by
  refine Literal.readWith_eq_none_of_alpha hsolid ?_ ?_ fun b =>
    sameWord_eq_false_of_mem (Literal.isName_boolean b) (c := c) (by simp) hi
  · rw [List.head?_append, List.head?_eq_some_head hw.isRun.ne_nil, Option.some_or,
      ← List.head?_eq_some_head]
    exact hw.head
  · cases w with
    | nil => exact absurd rfl hw.isRun.ne_nil
    | cons b w =>
      cases w with
      | nil => simpa using hc
      | cons d w =>
        have hd : isIdentChar d = true := List.all_eq_true.1 hw.ident d (by simp)
        rw [List.cons_append, List.tail_cons, List.cons_append, List.head?_cons]
        rintro ⟨⟩
        exact absurd hd (by decide)

/-- The name and the interior of a call. -/
theorem Expr.callShape?_call {i : Ident} {inner : List Token} (h : IsPhrase inner) :
    Expr.callShape? (i.text ++ '(' :: (render inner ++ [')'])) = some (i, render inner) := by
  have hlast : ((i.text ++ '(' :: (render inner ++ [')'])).getLast? != some ')') = false := by
    rw [show i.text ++ '(' :: (render inner ++ [')']) = (i.text ++ '(' :: render inner) ++ [')'] by
      simp, List.getLast?_concat]
    decide
  have hdrop : (i.text ++ '(' :: (render inner ++ [')'])).drop i.text.length
      = '(' :: (render inner ++ [')']) := List.drop_left' rfl
  have hspan := @parenthesised?_group inner [] (h _ _ (by rfl) (by rfl))
  rw [List.append_nil, text_group] at hspan
  simp only [Expr.callShape?, hlast, takeWhile_ne_paren i.isRun, trimEnd_eq_self i.isRun.trimmed.last,
    i.ofText?_text, hdrop, hspan, Option.bind_eq_bind, Option.bind_some]
  rfl

/-- A name with a group after it is read as a call. -/
theorem Expr.readShape_call {i : Ident} {inner : List Token} (h : IsPhrase inner) :
    Expr.readShape code expr (i.text ++ '(' :: (render inner ++ [')']))
      = Expr.readCall code expr i (render inner) := by
  rw [Expr.readShape, Literal.readWith_eq_none_of_name i.isName (i.isRun.solid_call _) (by decide)
    (by decide), Expr.callShape?_call h]

/-- A text without a comma outside parentheses is one piece. -/
theorem Token.splitOuter_one {ts : List Token} (h : IsPhrase ts) (hl : Lacks [','] ts) :
    splitOuter ',' (render ts) = [render ts] := by
  have := @splitOuter_commaJoin ts [] (by simpa using h) (by simpa using hl)
  simpa [commaJoin] using this

/-- A text that ends with no parenthesis is no call. -/
theorem Expr.callShape?_eq_none_of_getLast {t : Text} (h : (t.getLast? == some ')') = false) :
    Expr.callShape? t = none := by
  rw [Expr.callShape?, bne, h]
  rfl

/-- An operand is read by `readOperand`. -/
theorem Expr.readShape_operand {ts : List Token} (hphrase : IsPhrase ts)
    (hcalm : ∀ t ∈ ts, t.isCalm = true) (hops : operators false 0 ts = [])
    (hliteral : Literal.readWith expr (render ts) = none)
    (hcall : Expr.callShape? (render ts) = none) :
    Expr.readShape code expr (render ts) = Expr.readOperand code expr (render ts) := by
  rw [Expr.readShape, hliteral, hcall,
    scan_render (fun t ht => isScanned_of_isCalm (hcalm t ht)) (hphrase _ _ (by rfl) (by rfl)), hops]

theorem Token.connective_ne_blank (s : Text) : connective s ≠ mark ' ' := by
  rw [connective]
  split <;> simp

/-- A binary operation is cut at its own operator. -/
theorem Expr.readShape_binary {lhs rhs : Expr} {op : BinaryOp} {s : Text} (hs : IsOperator s op)
    (hconn : isConnective s = true)
    (hsc : (expressionWords.contains s || operatorSymbols.contains s) = true)
    (hlhs : lhs.isCanonical = true) (hrhs : rhs.isCanonical = true)
    (hops : lhs.areOperands op rhs = true) (hl : Reads code lhs.text lhs)
    (hr : Reads code rhs.text rhs) :
    Expr.readShape code expr (lhs.text ++ ' ' :: (s ++ ' ' :: rhs.text))
      = some (Expr.binary lhs op rhs) := by
  have hdl := Expr.isDesignator_of_isCanonical lhs hlhs
  have hdr := Expr.isDesignator_of_isCanonical rhs hrhs
  have hpl := lhs.isPhrase fun d hd => (hdl d hd).toIsName
  have hpr := rhs.isPhrase fun d hd => (hdr d hd).toIsName
  have hphrase := hpl.spaced hpr hconn
  have hfit := hphrase none none (by rfl) (by rfl)
  have hcalm : ∀ t ∈ lhs.tokens ++ (spaced s ++ rhs.tokens), t.isCalm = true := by
    simp only [List.mem_append, or_imp, forall_and]
    exact ⟨lhs.isCalm hdl, isCalm_connective hsc, rhs.isCalm hdr⟩
  have htext : lhs.text ++ ' ' :: (s ++ ' ' :: rhs.text)
      = render (lhs.tokens ++ (spaced s ++ rhs.tokens)) := by
    simp [lhs.render_tokens, rhs.render_tokens]
  have hsl := lhs.solid_text fun d hd => (hdl d hd).toIsName
  have hsolid : Solid (render (lhs.tokens ++ (spaced s ++ rhs.tokens))) := by
    have := hsl.between (rhs.solid_text fun d hd => (hdr d hd).toIsName) (' ' :: (s ++ [' ']))
    rw [← htext]
    simpa using this
  have hliteral : Literal.readWith expr (render (lhs.tokens ++ (spaced s ++ rhs.tokens))) = none := by
    cases hts : lhs.tokens with
    | nil => exact absurd (by rw [← lhs.render_tokens, hts]; rfl) hsl.ne_nil
    | cons first rest =>
      rw [hts] at hfit hsolid
      exact Literal.readWith_eq_none_of_blank hfit hsolid (by simp [spaced])
  have hcall : Expr.callShape? (render (lhs.tokens ++ (spaced s ++ rhs.tokens))) = none := by
    have hsplit : lhs.tokens ++ (spaced s ++ rhs.tokens)
        = (lhs.tokens ++ [mark ' ']) ++ connective s :: (mark ' ' :: rhs.tokens) := by simp [spaced]
    rw [hsplit] at hfit hcalm ⊢
    have hfits := (fitAll_append.1 hfit).2.1
    refine Expr.callShape?_eq_none hfit (fun t ht => ?_) ?_ fun y _ => ?_
    · obtain ⟨a, b, hab⟩ := List.append_of_mem ht
      rw [hab] at hfit
      exact isClear_of_isCalm (fitAll_append.1 (fitAll_append.1 hfit).1).2.1
        (hcalm t (List.mem_append_left _ ht))
    · exact isClear_of_isCalm hfits (hcalm _ (by simp)) fun inner => by rw [connective]; split <;> simp
    · -- The blank before the operator stays, since the operator is no blank.
      have hsolid := solid_of_fits hfits (.inl (hcalm _ (by simp))) (connective_ne_blank s)
      rw [text_connective] at hsolid ⊢
      cases s with
      | nil => exact absurd rfl hsolid.ne_nil
      | cons d s =>
        exact Ident.ofText?_eq_none (mem_trimEnd (c := ' ') (by simp) (by simpa using hsolid.head))
          (by decide)
  have hscan := scan_render (fun t ht => isScanned_of_isCalm (hcalm t ht)) hfit
  have hend := lhs.endsOperand_tokens hdl
  obtain ⟨hlt, hrt, hrel⟩ := Expr.tier_of_areOperands hops
  obtain ⟨h1, h2⟩ := Text.Reads.sides (s := s) hl hr
  rw [operators_spaced hs hend] at hscan
  have hpivot : Operator.pivot? (operators false 0 lhs.tokens
      ++ ⟨0 + (render lhs.tokens).length + 1, 0 + (render lhs.tokens).length + 1 + s.length, op⟩
      :: operators false (0 + (render lhs.tokens).length + 1 + s.length + 1) rhs.tokens)
      = some ⟨0 + (render lhs.tokens).length + 1,
        0 + (render lhs.tokens).length + 1 + s.length, op⟩ := by
    refine Operator.pivot?_split (fun o ho => ?_) (fun o ho => ?_) fun hr o ho => ?_
    · exact Nat.le_trans hlt ((Expr.tier_le_operators lhs hlhs _).2 o ho)
    · exact Nat.lt_of_lt_of_le hrt ((Expr.tier_le_operators rhs hrhs _).2 o ho)
    · exact Nat.lt_of_lt_of_le (hrel hr) ((Expr.tier_le_operators lhs hlhs _).2 o ho)
  rw [htext, Expr.readShape, hliteral, hcall, hscan]
  simp only
  split
  · rename_i heq; simp at heq
  · rename_i heq; simp at heq
  · rename_i heq
    rw [← Option.some.inj heq, hpivot, Option.bind_some, Expr.readBinary, ← htext]
    simp only [Nat.zero_add, lhs.render_tokens, h1, h2, Option.bind_eq_bind, Option.bind_some]

/-- An expression in parentheses is read from its text. -/
theorem Expr.readShape_group {inner : Expr} (hc : inner.isCanonical = true)
    (h : Reads code inner.text inner) :
    Expr.readShape code expr (Expr.group inner).text = some (.group inner) := by
  have hd := Expr.isDesignator_of_isCanonical inner hc
  have hphrase := inner.isPhrase fun d h => (hd d h).toIsName
  have hcalm : ∀ t ∈ (Expr.group inner).tokens, t.isCalm = true := Expr.isCalm _ hd
  have htext : (Expr.group inner).text = (Token.group inner.tokens).text := by
    simp [Expr.text, inner.render_tokens]
  have hliteral : Literal.readWith expr (render (Expr.group inner).tokens) = none := by
    rw [Expr.render_tokens, htext]
    exact Literal.readWith_eq_none_of_group hphrase (lacks_of_isCalm (by decide) (inner.isCalm hd))
  have hcall : Expr.callShape? (render (Expr.group inner).tokens) = none := by
    rw [Expr.render_tokens, Expr.callShape?]
    split
    · rfl
    · rw [Expr.text, List.takeWhile_cons_of_neg (by decide)]
      rfl
  have hgroup : IsPhrase (Expr.group inner).tokens := isPhrase_group hphrase
  rw [← Expr.render_tokens, Expr.readShape_operand hgroup hcalm rfl hliteral hcall,
    Expr.render_tokens, Expr.readOperand, if_pos (by rw [htext]; rfl)]
  have hspan := @parenthesised?_group inner.tokens [] (hphrase _ _ (by rfl) (by rfl))
  rw [List.append_nil, ← htext, inner.render_tokens] at hspan
  simp only [hspan, Option.bind_eq_bind, Option.bind_some, h.self]
  rfl

/-- A negation is read from its text. -/
theorem Expr.readShape_negation {operand : Expr} (hc : (Expr.negation operand).isCanonical = true)
    (h : Reads code operand.text operand) :
    Expr.readShape code expr (Expr.negation operand).text = some (.negation operand) := by
  have hd := Expr.isDesignator_of_isCanonical (.negation operand) hc
  have hphrase := (Expr.negation operand).isPhrase fun d h => (hd d h).toIsName
  have hsolid := (Expr.negation operand).solid_text fun d h => (hd d h).toIsName
  have hcalm : ∀ t ∈ (Expr.negation operand).tokens, t.isCalm = true := Expr.isCalm _ hd
  have hops := ((Expr.negation operand).tier_le_operators hc 0).1 rfl
  have hnot : IsName "not".toList := isName_of_all (by decide)
  have htext : (Expr.negation operand).text = "not".toList ++ ' ' :: operand.text := rfl
  have hliteral : Literal.readWith expr (render (Expr.negation operand).tokens) = none := by
    rw [Expr.render_tokens, htext]
    exact Literal.readWith_eq_none_of_name hnot hsolid (by decide) (by decide)
  have hcall : Expr.callShape? (render (Expr.negation operand).tokens) = none := by
    refine @Expr.callShape?_eq_none [] (mark ' ' :: operand.tokens) (word "not".toList)
      (hphrase _ _ (by rfl) (by rfl)) (by simp) (by decide) fun y hy => ?_
    have hab : Delimits [] (render (mark ' ' :: operand.tokens)) := ⟨.inl rfl, .inr rfl⟩
    exact (hab.of_isPrefix hy).ofText?_trimEnd hnot.isRun isReserved_operators.2
  have hafter : afterWord? "not".toList (Expr.negation operand).text = some operand.text := by
    have := @afterWord?_run "not".toList [] "not".toList (' ' :: operand.text) rfl hnot.isRun
      hnot.isRun rfl
    have hstart : trimStart (' ' :: operand.text) = operand.text := by
      have := trimStart_append (g := [' ']) rfl operand.text
      rw [List.singleton_append] at this
      rw [this]
      exact trimStart_eq_self (operand.solid_text fun d h => (hd d h).toIsName).head
    rw [List.nil_append, sameWord_self, if_pos rfl, hstart] at this
    rw [htext, this]
  have hhead : ¬((Expr.negation operand).text.head? == some '(') = true := by
    rw [htext]
    exact Bool.false_ne_true
  rw [← Expr.render_tokens, Expr.readShape_operand hphrase hcalm hops hliteral hcall,
    Expr.render_tokens, Expr.readOperand, if_neg hhead, hafter]
  simp only [h.self, Option.map_some]

/-- A reference starts with the name of its object. -/
theorem Reference.exists_text (r : Reference) :
    ∃ u, r.text = r.base.text ++ u ∧ u.head?.any isIdentChar = false := by
  cases r with
  | name n => exact ⟨[], (List.append_nil _).symm, rfl⟩
  | member record field => exact ⟨_, rfl, by rfl⟩
  | indexed n i => exact ⟨_, rfl, by rfl⟩
  | attributeOf object designator => exact ⟨_, rfl, by rfl⟩

/-- A reference without an index is read from its text. -/
theorem Expr.readShape_reference {r : Reference} (hc : r.isCanonical = true)
    (ho : r.isOperand = true) (hr : ∀ n i, r ≠ .indexed n i) :
    Expr.readShape code expr r.text = some (.reference r) := by
  have hd := Reference.isDesignator_of_isCanonical r hc
  have hphrase := r.isPhrase fun d h => (hd d h).toIsName
  have hsolid := r.solid_text fun d h => (hd d h).toIsName
  have hops := (r.isOperand_tokens hd).1 0
  have hread : Reads (Reference.readWith expr) r.text r := by
    refine r.readWith_text (fun d h => (hd d h).toIsName) ?_
    cases r with
    | name | member => trivial
    | indexed n i => exact absurd rfl (hr n i)
    | attributeOf object designator =>
      simp only [Reference.isCanonical, isPlainDesignator, Bool.and_eq_true, beq_iff_eq] at hc
      exact hc.1.2
  have hliteral : Literal.readWith expr (render r.tokens) = none := by
    rw [r.render_tokens]
    cases r with
    | name n =>
      simp only [Reference.isOperand, Bool.and_eq_true, Bool.not_eq_true'] at ho
      refine Literal.readWith_eq_none_of_alpha hsolid n.isName.head (fun hq => ?_) fun b => ?_
      · exact n.isRun.not_mem (by decide) (List.mem_of_mem_tail (List.mem_of_head? hq))
      · cases b with
        | true => exact ho.1
        | false => exact ho.2
    | member record field =>
      exact Literal.readWith_eq_none_of_name record.isName hsolid (by decide) (by decide)
    | indexed n i => exact absurd rfl (hr n i)
    | attributeOf object designator =>
      exact Literal.readWith_eq_none_of_name object.isName hsolid (by decide) (by decide)
  have hcall : Expr.callShape? (render r.tokens) = none := by
    rw [r.render_tokens]
    apply Expr.callShape?_eq_none_of_getLast
    cases r with
    | name n => exact getLast?_ne_paren n.isRun []
    | member record field =>
      have := getLast?_ne_paren field.isRun (record.text ++ ['.'])
      simpa [Reference.text] using this
    | indexed n i => exact absurd rfl (hr n i)
    | attributeOf object designator =>
      have hdes := (hd designator (by simp [Reference.designators])).isRun
      have := getLast?_ne_paren hdes (object.text ++ ['\''])
      simpa [Reference.text] using this
  obtain ⟨u, htext, hu⟩ := r.exists_text
  have hhead : ¬(r.text.head? == some '(') = true := by
    rw [htext, List.head?_append, List.head?_eq_some_head r.base.isRun.ne_nil, Option.some_or,
      ← List.head?_eq_some_head, beq_iff_eq]
    exact fun h => r.base.isRun.not_mem (by decide) (List.mem_of_head? h)
  have hafter : afterWord? "not".toList r.text = none := by
    have hnot : IsName "not".toList := isName_of_all (by decide)
    have := @afterWord?_run "not".toList [] r.base.text u rfl hnot.isRun r.base.isRun hu
    rw [List.nil_append] at this
    rw [htext, this, if_neg]
    intro hs
    have hres := r.base.not_isReserved
    rw [← isReserved_congr hs, isReserved_operators.2] at hres
    cases hres
  rw [← r.render_tokens, Expr.readShape_operand hphrase (r.isCalm hd) hops hliteral hcall,
    r.render_tokens, Expr.readOperand, if_neg hhead, hafter]
  simp only [hread.self, Option.map_some]

end Shapes

/-! ## Calls -/

section Calls

variable {n : Nat} {code expr : Text → Option Expr}

theorem Reference.reads_text (hexpr : Expr.ReadsUpTo n expr) (r : Reference)
    (hc : r.isCanonical = true) (hl : r.levels ≤ n)
    (hfit : Text.fits Limits.expressionBytes r.text = true) :
    Reads (Reference.readWith expr) r.text r := by
  have hd := Reference.isDesignator_of_isCanonical r hc
  refine r.readWith_text (fun d h => (hd d h).toIsName) ?_
  cases r with
  | name | member => trivial
  | indexed name i =>
    have hpart : i.text <:+: (Reference.indexed name i).text :=
      ⟨name.text ++ ['('], [')'], by simp [Reference.text]⟩
    exact i.reads_text hexpr hc hl (fits_of_isInfix hfit hpart)
  | attributeOf object designator =>
    simp only [Reference.isCanonical, isPlainDesignator, Bool.and_eq_true, beq_iff_eq] at hc
    exact hc.1.2

/-- The names with a meaning of their own are identifiers, and are told apart. -/
theorem ofName?_name :
    (∀ kind ∈ Conversion.all, isIdent kind.name.toList = true ∧
      Conversion.ofName? kind.name.toList = some kind) ∧
    ∀ kind ∈ Edge.all, isIdent kind.name.toList = true ∧
      Conversion.ofName? kind.name.toList = none ∧ Edge.ofName? kind.name.toList = some kind := by
  decide

/-- A conversion is read from its text. -/
theorem Expr.readShape_convert {kind : Conversion} {value : Expr} (hc : value.isCanonical = true)
    (h : Reads code value.text value) :
    Expr.readShape code expr (Expr.convert kind value).text = some (.convert kind value) := by
  have hd := Expr.isDesignator_of_isCanonical value hc
  have hphrase := value.isPhrase fun d h => (hd d h).toIsName
  obtain ⟨hident, hname⟩ := ofName?_name.1 kind (by cases kind <;> decide)
  have hpieces := splitOuter_one hphrase (lacks_of_isCalm (by decide) (value.isCalm hd))
  have hcall := @Expr.readShape_call code expr ⟨kind.name.toList, hident⟩ _ hphrase
  rw [value.render_tokens] at hcall hpieces
  rw [Expr.text, hcall, Expr.readCall]
  simp only [hname, hpieces, h.self]
  rfl

/-- An edge test is read from its text. -/
theorem Expr.readShape_edge {kind : Edge} {signal : Reference} (hc : signal.isCanonical = true)
    (h : Reads (Reference.readWith expr) signal.text signal) :
    Expr.readShape code expr (Expr.edge kind signal).text = some (.edge kind signal) := by
  have hd := Reference.isDesignator_of_isCanonical signal hc
  have hphrase := signal.isPhrase fun d h => (hd d h).toIsName
  obtain ⟨hident, hnone, hname⟩ := ofName?_name.2 kind (by cases kind <;> decide)
  have hpieces := splitOuter_one hphrase (lacks_of_isCalm (by decide) (signal.isCalm hd))
  have hcall := @Expr.readShape_call code expr ⟨kind.name.toList, hident⟩ _ hphrase
  rw [signal.render_tokens] at hcall hpieces
  rw [Expr.text, hcall, Expr.readCall]
  simp only [hnone, hname, hpieces, h.self]
  rfl

theorem Argument.lacks_comma (a : Argument) (hd : ∀ d ∈ a.designators, IsDesignator d) :
    Lacks [','] a.tokens := by
  cases a with
  | mk parameter value =>
    have hvalue : Lacks [','] value.tokens := lacks_of_isCalm (by decide) (value.isCalm hd)
    cases parameter with
    | none => exact hvalue
    | some parameter =>
      rw [Argument.tokens, lacks_append, lacks_append]
      exact ⟨by simp [Lacks, spells], by decide, hvalue⟩

/-- What holds of the arguments of a call holds of each of them. -/
theorem Argument.of_mem {as : List Argument} {a : Argument} (ha : a ∈ as) :
    (Argument.areCanonical as = true → a.isCanonical = true) ∧
      a.levels ≤ Argument.listLevels as ∧
      (∀ d ∈ a.designators, d ∈ Argument.listDesignators as) ∧
      a.text <:+: Text.join ", ".toList (Argument.texts as) := by
  rw [Argument.texts_eq_map]
  refine ⟨?_, ?_, ?_, isInfix_join (List.mem_map_of_mem ha)⟩
  · induction as with
    | nil => cases ha
    | cons b as ih =>
      intro h
      simp only [Argument.areCanonical, Bool.and_eq_true] at h
      rcases List.mem_cons.1 ha with rfl | ha
      · exact h.1
      · exact ih ha h.2
  · induction as with
    | nil => cases ha
    | cons b as ih =>
      rw [Argument.listLevels]
      rcases List.mem_cons.1 ha with rfl | ha
      · exact Nat.le_max_left _ _
      · exact Nat.le_trans (ih ha) (Nat.le_max_right _ _)
  · induction as with
    | nil => cases ha
    | cons b as ih =>
      intro d hd
      rw [Argument.listDesignators, List.mem_append]
      rcases List.mem_cons.1 ha with rfl | ha
      · exact .inl hd
      · exact .inr (ih ha d hd)

/-- A call is read from its text. -/
theorem Expr.readShape_call_text (hexpr : Expr.ReadsUpTo n expr) {name : Ident}
    {arguments : List Argument} (hc : (Expr.call name arguments).isCanonical = true)
    (hl : Argument.listLevels arguments ≤ n)
    (hfit : Text.fits Limits.expressionBytes (Expr.call name arguments).text = true) :
    Expr.readShape code expr (Expr.call name arguments).text = some (.call name arguments) := by
  have hd := Expr.isDesignator_of_isCanonical (.call name arguments) hc
  simp only [Expr.isCanonical, Ident.isPlain, Bool.and_eq_true, Bool.not_eq_true',
    Option.isNone_iff_eq_none] at hc
  obtain ⟨⟨⟨hconversion, hedge⟩, hne⟩, hc⟩ := hc
  have hdes : ∀ a ∈ arguments, ∀ d ∈ a.designators, IsDesignator d := fun a ha d hm =>
    hd d ((Argument.of_mem ha).2.2.1 d hm)
  have hphrase : ∀ a ∈ arguments, IsPhrase a.tokens := fun a ha =>
    a.isPhrase fun d hm => (hdes a ha d hm).toIsName
  have hjoin : IsPhrase (commaJoin (Argument.tokenLists arguments)) := by
    rw [Argument.tokenLists_eq_map]
    exact IsPhrase.commaJoin (by rwa [List.forall_mem_map])
  have htext : Text.join ", ".toList (Argument.texts arguments)
      = render (commaJoin (Argument.tokenLists arguments)) := by
    rw [render_commaJoin, Argument.map_render]
  have hpart : Text.join ", ".toList (Argument.texts arguments)
      <:+: (Expr.call name arguments).text := ⟨name.text ++ ['('], [')'], by simp [Expr.text]⟩
  have hread : ∀ a ∈ arguments, Reads (Argument.readWith expr) (render a.tokens) a := by
    intro a ha
    obtain ⟨hcan, hlevels, -, hinner⟩ := Argument.of_mem ha
    have hfit := fits_of_isInfix hfit (hinner.trans hpart)
    rw [a.render_tokens]
    refine a.readWith_text (hdes a ha) ?_
    cases a with
    | mk parameter value =>
      have hvalue : value.text <:+: (Argument.mk parameter value).text := by
        cases parameter with
        | none => exact List.infix_refl _
        | some p => exact ⟨p.text ++ " => ".toList, [], by simp [Argument.text]⟩
      exact hexpr value (hcan hc) (Nat.le_trans hlevels hl) (fits_of_isInfix hfit hvalue)
  have hall := mapM_splitOuter_commaJoin (by simpa using hne) hphrase
    (fun a ha => a.lacks_comma (hdes a ha)) hread
  rw [← Argument.tokenLists_eq_map] at hall
  rw [Expr.text, htext, Expr.readShape_call hjoin, Expr.readCall]
  simp only [hconversion, hedge, hall, Expr.callOf?, hne, Bool.false_eq_true, if_false]

/-- A slice is read from its text, and not as a call. -/
theorem Expr.readShape_indexed (hexpr : Expr.ReadsUpTo n expr) {name : Ident} {index : Index}
    (hc : index.isCanonical = true) (ho : (Reference.indexed name index).isOperand = true)
    (hl : index.levels ≤ n)
    (hfit : Text.fits Limits.expressionBytes (Reference.indexed name index).text = true)
    (hnone : expr index.text = none) :
    Expr.readShape code expr (Reference.indexed name index).text
      = some (.reference (.indexed name index)) := by
  have hd := Index.isDesignator_of_isCanonical index hc
  have hphrase := index.isPhrase fun d h => (hd d h).toIsName
  have hpart : index.text <:+: (Reference.indexed name index).text :=
    ⟨name.text ++ ['('], [')'], by simp [Reference.text]⟩
  have hread := index.reads_text hexpr hc hl (fits_of_isInfix hfit hpart)
  have hpieces := splitOuter_one hphrase (index.lacks (by decide) (by decide) (by decide) hd)
  have hlack : Lacks "=>".toList index.tokens := index.lacks (by decide) (by decide) (by decide) hd
  have harrow := cutOuter?_eq_none (.inr (by decide)) (hphrase none none (by rfl) (by rfl)) hlack
  rw [index.render_tokens] at hpieces harrow
  have hargument : Argument.readWith expr index.text = none := by
    simp only [Argument.readWith, harrow, hnone, Option.map_none]
  have hplain : name.isPlain = true := by
    cases index with
    | position value => cases ho
    | slice | others => exact ho
  simp only [Ident.isPlain, Bool.and_eq_true, Option.isNone_iff_eq_none] at hplain
  rw [Reference.text, ← index.render_tokens, Expr.readShape_call hphrase, index.render_tokens,
    Expr.readCall]
  simp only [hplain.1, hplain.2, hpieces, List.mapM_cons, hargument, hread.self]
  cases index with
  | position value => cases ho
  | slice | others => rfl

end Calls

/-! ## The round trip -/

theorem Expr.levels_pos (e : Expr) : 0 < e.levels := by
  cases e with
  | reference | literal | arith | group | compare | edge | negation | logic | convert | call =>
    exact Nat.succ_pos _

/-- A reader of code reads texts that hold comments or none. -/
theorem Expr.ReadsUpTo.withoutComments {n : Nat} {code : Text → Option Expr}
    (h : Expr.ReadsUpTo n code) : Expr.ReadsUpTo n fun u => code (Text.withoutComments u) := by
  intro e hc hl hfit g g' hg hg'
  have hd := Expr.isDesignator_of_isCanonical e hc
  have hphrase := (e.isPhrase fun d h => (hd d h).toIsName).pad hg hg'
  have hsame := withoutComments_render (hphrase none none (by rfl) (by rfl))
  have htext : render (Token.pad g ++ (e.tokens ++ Token.pad g')) = g ++ (e.text ++ g') := by
    simp [e.render_tokens]
  rw [htext] at hsame
  simp only [hsame]
  exact h e hc hl hfit g g' hg hg'

/-- **The reader returns every canonical expression, given room for its levels.** -/
theorem Expr.readsUpTo_readCode (n : Nat) : Expr.ReadsUpTo n (Expr.readCode n) := by
  induction n with
  | zero => exact fun e _ hl => absurd hl (Nat.not_le.2 e.levels_pos)
  | succ n ih =>
    intro e hc hl hfit g g' hg hg'
    have hexpr := ih.withoutComments
    have hd := Expr.isDesignator_of_isCanonical e hc
    have hsolid := e.solid_text fun d h => (hd d h).toIsName
    have hne : e.text.isEmpty = false := by simpa using hsolid.ne_nil
    simp only [Expr.readCode, hsolid.trim_pad hg hg', hne, hfit, Bool.not_true, Bool.or_self,
      Bool.false_eq_true, if_false]
    have hpart : ∀ {e' : Expr}, e'.isCanonical = true → e'.levels ≤ n → e'.text <:+: e.text →
        Reads (Expr.readCode n) e'.text e' := fun hc hl h => ih _ hc hl (fits_of_isInfix hfit h)
    cases e with
    | literal l =>
      have hread := Literal.readNested_text hexpr l l.text.length hc (Nat.le_of_succ_le_succ hl) hfit
        (Nat.le_refl _)
      have hread : Literal.readWith _ l.text = some l := hread.self
      rw [Expr.text, Expr.readShape, hread]
    | reference r =>
      simp only [Expr.isCanonical, Bool.and_eq_true] at hc
      by_cases hr : ∃ name i, r = .indexed name i
      · obtain ⟨name, i, rfl⟩ := hr
        refine Expr.readShape_indexed hexpr hc.2 hc.1 (Nat.le_of_succ_le_succ hl) hfit ?_
        have hphrase := i.isPhrase fun d h => (hd d h).toIsName
        rw [← i.render_tokens, withoutComments_render (hphrase none none (by rfl) (by rfl)),
          i.render_tokens]
        cases i with
        | position value => cases hc.1
        | slice range => exact Expr.readCode_range n range hd
        | others => exact Expr.readCode_others n
      · exact Expr.readShape_reference hc.2 hc.1 fun name i h => hr ⟨name, i, h⟩
    | group inner =>
      exact Expr.readShape_group hc
        (hpart hc (Nat.le_of_succ_le_succ hl) ⟨['('], [')'], by simp [Expr.text]⟩)
    | negation operand =>
      have hcan := hc
      simp only [Expr.isCanonical, Bool.and_eq_true] at hcan
      exact Expr.readShape_negation hc
        (hpart hcan.1 (Nat.le_of_succ_le_succ hl) ⟨"not ".toList, [], by simp [Expr.text]⟩)
    | convert kind value =>
      exact Expr.readShape_convert hc (hpart hc (Nat.le_of_succ_le_succ hl)
        ⟨kind.name.toList ++ ['('], [')'], by simp [Expr.text]⟩)
    | edge kind signal =>
      have hsignal : signal.text <:+: (Expr.edge kind signal).text :=
        ⟨kind.name.toList ++ ['('], [')'], by simp [Expr.text]⟩
      exact Expr.readShape_edge hc (signal.reads_text hexpr hc (Nat.le_of_succ_le_succ hl)
        (fits_of_isInfix hfit hsignal))
    | call name arguments =>
      exact Expr.readShape_call_text hexpr hc (Nat.le_of_succ_le_succ hl) hfit
    | arith lhs op rhs =>
      simp only [Expr.isCanonical, Bool.and_eq_true] at hc
      simp only [Expr.levels, Nat.max_le, Nat.add_le_add_iff_right] at hl
      exact Expr.readShape_binary op.isOperator op.isConnective (by cases op <;> decide) hc.1.1 hc.1.2
        hc.2 (hpart hc.1.1 hl.1 ⟨[], _, rfl⟩) (hpart hc.1.2 hl.2
          ⟨lhs.text ++ ' ' :: (op.symbol.toList ++ [' ']), [], by simp [Expr.text]⟩)
    | compare lhs op rhs =>
      simp only [Expr.isCanonical, Bool.and_eq_true] at hc
      simp only [Expr.levels, Nat.max_le, Nat.add_le_add_iff_right] at hl
      exact Expr.readShape_binary op.isOperator op.isConnective (by cases op <;> decide) hc.1.1 hc.1.2
        hc.2 (hpart hc.1.1 hl.1 ⟨[], _, rfl⟩) (hpart hc.1.2 hl.2
          ⟨lhs.text ++ ' ' :: (op.symbol.toList ++ [' ']), [], by simp [Expr.text]⟩)
    | logic lhs op rhs =>
      simp only [Expr.isCanonical, Bool.and_eq_true] at hc
      simp only [Expr.levels, Nat.max_le, Nat.add_le_add_iff_right] at hl
      exact Expr.readShape_binary op.isOperator op.isConnective (by cases op <;> decide) hc.1.1 hc.1.2
        hc.2 (hpart hc.1.1 hl.1 ⟨[], _, rfl⟩) (hpart hc.1.2 hl.2
          ⟨lhs.text ++ ' ' :: (op.symbol.toList ++ [' ']), [], by simp [Expr.text]⟩)

/-- **The round trip of expressions.**  A canonical expression whose text is not too long
is read back from its text, given room for its levels. -/
theorem Expr.read_text_of_isCanonical (e : Expr) (room : Nat) (hc : e.isCanonical = true)
    (hl : e.levels ≤ room) (hfit : Text.fits Limits.expressionBytes e.text = true) :
    Expr.read room e.text = some e :=
  ((Expr.readsUpTo_readCode room).withoutComments e hc hl hfit).self

/-- The test `not (a = 1) and b(7 downto 0) < x"0F"`. -/
def Expr.maskTest : Expr :=
  .logic
    (.negation (.group (.compare (.reference (.name ⟨['a'], by decide +kernel⟩)) .eq
      (.literal (.integer ⟨1, by decide⟩)))))
    .and
    (.compare
      (.reference (.indexed ⟨['b'], by decide +kernel⟩
        (.slice (.descending (.literal (.integer ⟨7, by decide⟩)) (.literal (.integer ⟨0, by decide⟩))))))
      .lt (.literal (.vector (.hexadecimal [0, 15]))))

theorem Expr.read_maskTest : Expr.maskTest.isCanonical = true ∧ Expr.maskTest.levels ≤ Limits.depth ∧
    Expr.read Limits.depth Expr.maskTest.text = some Expr.maskTest :=
  have hc : Expr.maskTest.isCanonical = true := by decide +kernel
  have hl : Expr.maskTest.levels ≤ Limits.depth := by decide +kernel
  ⟨hc, hl, Expr.read_text_of_isCanonical Expr.maskTest Limits.depth hc hl (by decide +kernel)⟩

end CanonicalVhdl
