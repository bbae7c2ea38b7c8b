import CanonicalVhdl.Proofs.Spelling.Entries

/-!
# Trees with the same words

Trees that are equal up to the case of identifiers have entries that are equal up to case, one by
one.  If moreover the words that are the trees' own are spelled alike, the trees are equal: only
identifiers are compared without regard to case, and each is a word of its own.  Real numbers are
compared by value and not by their digits, so trees with real numbers are left out.

## Main definitions

* `Pins` — entries that are equal up to case, and what holds if own words are spelled alike.

## Main statements

* `Pins.append`, `Pins.of_sameAll` — entries of trees with several parts.
* `Expr.pins_of_same`, `Sequential.pins_of_same`, `Concurrent.pins_of_same`,
  `DesignFile.pins_of_same` and others — trees equal up to the case of identifiers.
-/

namespace CanonicalVhdl

open Text

/-- Entries that are equal up to case; if none is a real number and the own words are spelled
alike, then `p` holds. -/
structure Pins (es fs : List Entry) (p : Prop) : Prop where
  /-- The entries are equal up to case. -/
  fold_eq : es.map Entry.fold = fs.map Entry.fold
  /-- What the spelling of own words decides. -/
  of_own : es.any Entry.isReal = false → es.filterMap Entry.own? = fs.filterMap Entry.own? → p

theorem Entry.own?_fold (e : Entry) : e.fold.own? = e.own?.map Text.fold := by
  cases e <;> rfl

namespace Pins

variable {es fs es' fs' : List Entry} {p q : Prop}

theorem of_eq (h : p) (es : List Entry) : Pins es es p := ⟨rfl, fun _ _ => h⟩

theorem imp (h : Pins es fs p) (hpq : p → q) : Pins es fs q :=
  ⟨h.fold_eq, fun hreal hown => hpq (h.of_own hreal hown)⟩

/-- As many own words. -/
theorem length_own (h : Pins es fs p) :
    (es.filterMap Entry.own?).length = (fs.filterMap Entry.own?).length := by
  have hown : ∀ es : List Entry, (es.filterMap Entry.own?).map Text.fold
      = (es.map Entry.fold).filterMap Entry.own? := by
    intro es
    rw [List.map_filterMap, List.filterMap_map]
    exact List.filterMap_congr fun e _ => (e.own?_fold).symm
  rw [← List.length_map (f := Text.fold), hown, h.fold_eq, ← hown, List.length_map]

theorem append (h : Pins es fs p) (h' : Pins es' fs' q) : Pins (es ++ es') (fs ++ fs') (p ∧ q) where
  fold_eq := by rw [List.map_append, List.map_append, h.fold_eq, h'.fold_eq]
  of_own hreal hown := by
    rw [List.any_append, Bool.or_eq_false_iff] at hreal
    rw [List.filterMap_append, List.filterMap_append] at hown
    obtain ⟨hleft, hright⟩ := List.append_inj hown h.length_own
    exact ⟨h.of_own hreal.1 hleft, h'.of_own hreal.2 hright⟩

/-- Fixed words in any case. -/
theorem fixed {t u : Text} (h : sameWord t u = true) : Pins (Text.fixed t) (Text.fixed u) True := by
  have hfold : ∀ t : Text, (Text.fixed t).map Entry.fold = (t.items.map Item.fold).map Item.fixed := by
    intro t
    rw [Text.fixed, List.map_map, List.map_map]
    exact List.map_congr_left fun i _ => by cases i <;> rfl
  exact ⟨by rw [hfold, hfold, items_of_sameWord h], fun _ _ => trivial⟩

/-- A real number, which is not compared by its digits. -/
theorem real (t u : Text) : Pins [.real t] [.real u] p :=
  ⟨rfl, fun hreal => by cases hreal⟩

variable {α : Type} {same : α → α → Bool} {entries : α → List Entry}

/-- Lists whose members are compared one by one. -/
theorem of_sameAll {sameAll : List α → List α → Bool}
    (hnil : ∀ b bs, sameAll [] (b :: bs) = false) (hcons : ∀ a as, sameAll (a :: as) [] = false)
    (hboth : ∀ a as b bs, sameAll (a :: as) (b :: bs) = (same a b && sameAll as bs))
    (h : ∀ a b, same a b = true → Pins (entries a) (entries b) (a = b)) :
    ∀ {as bs : List α}, sameAll as bs = true → Pins (as.flatMap entries) (bs.flatMap entries) (as = bs)
  | [], [], _ => of_eq rfl []
  | [], b :: bs, hsame => by
    rw [hnil] at hsame
    cases hsame
  | a :: as, [], hsame => by
    rw [hcons] at hsame
    cases hsame
  | a :: as, b :: bs, hsame => by
    rw [hboth, Bool.and_eq_true] at hsame
    rw [List.flatMap_cons, List.flatMap_cons]
    refine ((h a b hsame.1).append (of_sameAll hnil hcons hboth h hsame.2)).imp ?_
    rintro ⟨rfl, rfl⟩
    rfl

/-- Optional parts. -/
theorem optional {same? : Option α → Option α → Bool} (hnone : ∀ b, same? none (some b) = false)
    (hsome : ∀ a, same? (some a) none = false)
    (hboth : ∀ a b, same? (some a) (some b) = same a b)
    (h : ∀ a b, same a b = true → Pins (entries a) (entries b) (a = b)) :
    ∀ {a b : Option α}, same? a b = true →
      Pins (optionalEntries entries a) (optionalEntries entries b) (a = b)
  | none, none, _ => of_eq rfl []
  | none, some b, hsame => by
    rw [hnone] at hsame
    cases hsame
  | some a, none, hsame => by
    rw [hsome] at hsame
    cases hsame
  | some a, some b, hsame => (h a b ((hboth a b).symm.trans hsame)).imp (congrArg some)

end Pins

/-! ## Identifiers -/

namespace Ident

theorem isTracked_text (i : Ident) : isTracked i.text = true := by
  have hvalid := i.valid
  simp only [isIdent, Bool.and_eq_true] at hvalid
  rw [isTracked, hvalid.1.1.1.1.1, hvalid.2]
  rfl

/-- An identifier is a word of its own. -/
theorem entries_eq (i : Ident) : i.entries = [.own i.text] := by
  have hvalid := i.valid
  simp only [isIdent, Bool.and_eq_true] at hvalid
  rw [entries, owned, items_word hvalid.1.1.1.2, closeRun, i.isTracked_text]
  rfl

theorem ext_text {a b : Ident} (h : a.text = b.text) : a = b := by
  cases a
  cases b
  congr

theorem pins_of_same {a b : Ident} (h : a.same b = true) : Pins a.entries b.entries (a = b) := by
  rw [entries_eq, entries_eq]
  refine ⟨?_, fun _ hown => ext_text (List.cons.inj hown).1⟩
  exact congrArg (fun w => [Entry.own w]) (beq_iff_eq.1 h)

theorem pins_of_sameAll {as bs : List Ident} (h : sameAll as bs = true) :
    Pins (as.flatMap Ident.entries) (bs.flatMap Ident.entries) (as = bs) :=
  .of_sameAll (fun _ _ => rfl) (fun _ _ => rfl) (fun _ _ _ _ => rfl) (fun _ _ => pins_of_same) h

theorem pins_of_sameIdent? {a b : Option Ident} (h : sameIdent? a b = true) :
    Pins (optionalEntries Ident.entries a) (optionalEntries Ident.entries b) (a = b) :=
  .optional (fun _ => rfl) (fun _ => rfl) (fun _ _ => rfl) (fun _ _ => pins_of_same) h

end Ident

/-! ## Expressions -/

theorem Argument.entries_mk (parameter : Option Ident) (value : Expr) :
    (Argument.mk parameter value).entries
      = optionalEntries Ident.entries parameter ++ value.entries := by
  cases parameter <;> rfl

mutual

theorem Expr.pins_of_same : ∀ a b : Expr, a.same b = true → Pins a.entries b.entries (a = b)
  | .reference a, b, h => by
    cases b <;> simp only [Expr.same, Bool.false_eq_true] at h
    exact (a.pins_of_same _ h).imp (congrArg _)
  | .literal a, b, h => by
    cases b <;> simp only [Expr.same, Bool.false_eq_true] at h
    exact (a.pins_of_same _ h).imp (congrArg _)
  | .arith a op c, b, h => by
    cases b <;> simp only [Expr.same, Bool.false_eq_true, Bool.and_eq_true, beq_iff_eq] at h
    obtain ⟨⟨ha, rfl⟩, hc⟩ := h
    refine ((a.pins_of_same _ ha).append ((Pins.of_eq trivial _).append (c.pins_of_same _ hc))).imp ?_
    rintro ⟨rfl, -, rfl⟩
    rfl
  | .group a, b, h => by
    cases b <;> simp only [Expr.same, Bool.false_eq_true] at h
    exact (a.pins_of_same _ h).imp (congrArg _)
  | .compare a op c, b, h => by
    cases b <;> simp only [Expr.same, Bool.false_eq_true, Bool.and_eq_true, beq_iff_eq] at h
    obtain ⟨⟨ha, rfl⟩, hc⟩ := h
    refine ((a.pins_of_same _ ha).append (c.pins_of_same _ hc)).imp ?_
    rintro ⟨rfl, rfl⟩
    rfl
  | .edge kind a, b, h => by
    cases b <;> simp only [Expr.same, Bool.false_eq_true, Bool.and_eq_true, beq_iff_eq] at h
    obtain ⟨rfl, ha⟩ := h
    exact ((Pins.of_eq trivial _).append (a.pins_of_same _ ha)).imp fun h => congrArg _ h.2
  | .negation a, b, h => by
    cases b <;> simp only [Expr.same, Bool.false_eq_true] at h
    exact (a.pins_of_same _ h).imp (congrArg _)
  | .logic a op c, b, h => by
    cases b <;> simp only [Expr.same, Bool.false_eq_true, Bool.and_eq_true, beq_iff_eq] at h
    obtain ⟨⟨ha, rfl⟩, hc⟩ := h
    refine ((a.pins_of_same _ ha).append (c.pins_of_same _ hc)).imp ?_
    rintro ⟨rfl, rfl⟩
    rfl
  | .convert kind a, b, h => by
    cases b <;> simp only [Expr.same, Bool.false_eq_true, Bool.and_eq_true, beq_iff_eq] at h
    obtain ⟨rfl, ha⟩ := h
    exact ((Pins.of_eq trivial _).append (a.pins_of_same _ ha)).imp fun h => congrArg _ h.2
  | .call name as, b, h => by
    cases b <;> simp only [Expr.same, Bool.false_eq_true, Bool.and_eq_true] at h
    refine ((Ident.pins_of_same h.1).append (Argument.pins_of_sameAll as _ h.2)).imp ?_
    rintro ⟨rfl, rfl⟩
    rfl
termination_by structural a => a

theorem Argument.pins_of_same : ∀ a b : Argument, a.same b = true → Pins a.entries b.entries (a = b)
  | .mk p a, .mk q b, h => by
    simp only [Argument.same, Bool.and_eq_true] at h
    rw [Argument.entries_mk, Argument.entries_mk]
    refine ((Ident.pins_of_sameIdent? h.1).append (a.pins_of_same b h.2)).imp ?_
    rintro ⟨rfl, rfl⟩
    rfl
termination_by structural a => a

theorem Argument.pins_of_sameAll : ∀ as bs : List Argument, Argument.sameAll as bs = true →
    Pins (Argument.entriesAll as) (Argument.entriesAll bs) (as = bs)
  | [], bs, h => by
    cases bs with
    | nil => exact .of_eq rfl []
    | cons b bs => cases h
  | a :: as, bs, h => by
    cases bs with
    | nil => cases h
    | cons b bs =>
      simp only [Argument.sameAll, Bool.and_eq_true] at h
      refine ((a.pins_of_same b h.1).append (Argument.pins_of_sameAll as bs h.2)).imp ?_
      rintro ⟨rfl, rfl⟩
      rfl
termination_by structural as => as

theorem Reference.pins_of_same : ∀ a b : Reference, a.same b = true →
    Pins a.entries b.entries (a = b)
  | .name n, b, h => by
    cases b <;> simp only [Reference.same, Bool.false_eq_true] at h
    exact (Ident.pins_of_same h).imp (congrArg _)
  | .member r m, b, h => by
    cases b <;> simp only [Reference.same, Bool.false_eq_true, Bool.and_eq_true] at h
    refine ((Ident.pins_of_same h.1).append (Ident.pins_of_same h.2)).imp ?_
    rintro ⟨rfl, rfl⟩
    rfl
  | .indexed n i, b, h => by
    cases b <;> simp only [Reference.same, Bool.false_eq_true, Bool.and_eq_true] at h
    refine ((Ident.pins_of_same h.1).append (i.pins_of_same _ h.2)).imp ?_
    rintro ⟨rfl, rfl⟩
    rfl
  | .attributeOf n d, b, h => by
    cases b <;> simp only [Reference.same, Bool.false_eq_true, Bool.and_eq_true, beq_iff_eq] at h
    obtain ⟨hn, rfl⟩ := h
    refine ((Ident.pins_of_same hn).append (Pins.of_eq trivial _)).imp ?_
    rintro ⟨rfl, -⟩
    rfl
termination_by structural a => a

theorem Index.pins_of_same : ∀ a b : Index, a.same b = true → Pins a.entries b.entries (a = b)
  | .position a, b, h => by
    cases b <;> simp only [Index.same, Bool.false_eq_true] at h
    exact (a.pins_of_same _ h).imp (congrArg _)
  | .slice r, b, h => by
    cases b <;> simp only [Index.same, Bool.false_eq_true] at h
    exact (r.pins_of_same _ h).imp (congrArg _)
  | .others, b, h => by
    cases b <;> simp only [Index.same, Bool.false_eq_true] at h
    exact .of_eq rfl []
termination_by structural a => a

theorem Range.pins_of_same : ∀ a b : Range, a.same b = true → Pins a.entries b.entries (a = b)
  | .ascending a c, b, h => by
    cases b <;> simp only [Range.same, Bool.false_eq_true, Bool.and_eq_true] at h
    refine ((a.pins_of_same _ h.1).append (c.pins_of_same _ h.2)).imp ?_
    rintro ⟨rfl, rfl⟩
    rfl
  | .descending a c, b, h => by
    cases b <;> simp only [Range.same, Bool.false_eq_true, Bool.and_eq_true] at h
    refine ((a.pins_of_same _ h.1).append (c.pins_of_same _ h.2)).imp ?_
    rintro ⟨rfl, rfl⟩
    rfl
termination_by structural a => a

theorem Literal.pins_of_same : ∀ a b : Literal, a.same b = true → Pins a.entries b.entries (a = b)
  | .bit a, b, h => by
    cases b <;> simp only [Literal.same, Bool.false_eq_true, beq_iff_eq] at h
    exact h ▸ .of_eq rfl _
  | .boolean a, b, h => by
    cases b <;> simp only [Literal.same, Bool.false_eq_true, beq_iff_eq] at h
    exact h ▸ .of_eq rfl _
  | .real a, b, h => by
    cases b <;> simp only [Literal.same, Bool.false_eq_true] at h
    exact .real _ _
  | .integer a, b, h => by
    cases b <;> simp only [Literal.same, Bool.false_eq_true, beq_iff_eq] at h
    exact h ▸ .of_eq rfl _
  | .logic a, b, h => by
    cases b <;> simp only [Literal.same, Bool.false_eq_true, beq_iff_eq] at h
    exact h ▸ .of_eq rfl _
  | .vector a, b, h => by
    cases b <;> simp only [Literal.same, Bool.false_eq_true] at h
    exact (a.pins_of_same _ h).imp (congrArg _)
termination_by structural a => a

theorem VectorLiteral.pins_of_same : ∀ a b : VectorLiteral, a.same b = true →
    Pins a.entries b.entries (a = b)
  | .bits a, b, h => by
    cases b <;> simp only [VectorLiteral.same, Bool.false_eq_true, beq_iff_eq] at h
    exact h ▸ .of_eq rfl _
  | .logics a, b, h => by
    cases b <;> simp only [VectorLiteral.same, Bool.false_eq_true, beq_iff_eq] at h
    exact h ▸ .of_eq rfl _
  | .hexadecimal a, b, h => by
    cases b <;> simp only [VectorLiteral.same, Bool.false_eq_true, beq_iff_eq] at h
    exact h ▸ .of_eq rfl _
  | .octal a, b, h => by
    cases b <;> simp only [VectorLiteral.same, Bool.false_eq_true, beq_iff_eq] at h
    exact h ▸ .of_eq rfl _
  | .aggregate as, b, h => by
    cases b <;> simp only [VectorLiteral.same, Bool.false_eq_true] at h
    exact (Element.pins_of_sameAll as _ h).imp (congrArg _)
termination_by structural a => a

theorem Element.pins_of_same : ∀ a b : Element, a.same b = true → Pins a.entries b.entries (a = b)
  | .mk i a, .mk j b, h => by
    simp only [Element.same, Bool.and_eq_true] at h
    refine ((i.pins_of_same j h.1).append (a.pins_of_same b h.2)).imp ?_
    rintro ⟨rfl, rfl⟩
    rfl
termination_by structural a => a

theorem Element.pins_of_sameAll : ∀ as bs : List Element, Element.sameAll as bs = true →
    Pins (Element.entriesAll as) (Element.entriesAll bs) (as = bs)
  | [], bs, h => by
    cases bs with
    | nil => exact .of_eq rfl []
    | cons b bs => cases h
  | a :: as, bs, h => by
    cases bs with
    | nil => cases h
    | cons b bs =>
      simp only [Element.sameAll, Bool.and_eq_true] at h
      refine ((a.pins_of_same b h.1).append (Element.pins_of_sameAll as bs h.2)).imp ?_
      rintro ⟨rfl, rfl⟩
      rfl
termination_by structural as => as

end

theorem Expr.pins_of_sameExpr? {a b : Option Expr} (h : sameExpr? a b = true) :
    Pins (optionalEntries Expr.entries a) (optionalEntries Expr.entries b) (a = b) :=
  .optional (fun _ => rfl) (fun _ => rfl) (fun _ _ => rfl) Expr.pins_of_same h

/-! ## Types and objects -/

theorem BuiltinType.pins_of_same {a b : BuiltinType} (h : a.same b = true) :
    Pins a.entries b.entries (a = b) := by
  cases a <;> cases b <;> simp only [same, Bool.false_eq_true, Bool.and_eq_true, beq_iff_eq] at h
  case scalar.scalar => exact h ▸ .of_eq rfl _
  case vector.vector kind r kind' s =>
    obtain ⟨rfl, hr⟩ := h
    exact ((Pins.of_eq trivial _).append (r.pins_of_same s hr)).imp fun h => congrArg _ h.2
  case integerRange.integerRange r s =>
    exact ((Pins.of_eq trivial _).append (r.pins_of_same s h)).imp fun h => congrArg _ h.2

theorem TypeMark.pins_of_same {a b : TypeMark} (h : a.same b = true) :
    Pins a.entries b.entries (a = b) := by
  cases a <;> cases b <;> simp only [same, Bool.false_eq_true] at h
  case builtin.builtin => exact (BuiltinType.pins_of_same h).imp (congrArg _)
  case named.named => exact (Ident.pins_of_same h).imp (congrArg _)

/-- Comments are compared as they are. -/
theorem Comment.pins_of_eq {a b : Option Comment} (h : a = b) :
    Pins (optionalEntries Comment.entries a) (optionalEntries Comment.entries b) (a = b) :=
  h ▸ .of_eq rfl _

theorem ObjectDecl.pins_of_same {a b : ObjectDecl} (h : a.same b = true) :
    Pins a.entries b.entries (a = b) := by
  obtain ⟨c, n, t, v, r, _⟩ := a
  obtain ⟨c', n', t', v', r', _⟩ := b
  simp only [same, Bool.and_eq_true, beq_iff_eq] at h
  obtain ⟨⟨⟨⟨rfl, hn⟩, ht⟩, hv⟩, hr⟩ := h
  refine ((((Ident.pins_of_same hn).append (TypeMark.pins_of_same ht)).append
    (Expr.pins_of_sameExpr? hv)).append (Comment.pins_of_eq hr)).imp ?_
  rintro ⟨⟨⟨rfl, rfl⟩, rfl⟩, rfl⟩
  rfl

/-! ## Sequential code -/

namespace Statement

theorem pins_of_same {a b : Statement} (h : a.same b = true) : Pins a.entries b.entries (a = b) := by
  cases a <;> cases b <;> simp only [same, Bool.false_eq_true, Bool.and_eq_true, beq_iff_eq] at h
  case declaration.declaration => exact (ObjectDecl.pins_of_same h).imp (congrArg _)
  case assignment.assignment t k v t' k' v' =>
    obtain ⟨⟨ht, rfl⟩, hv⟩ := h
    refine ((t.pins_of_same t' ht).append (v.pins_of_same v' hv)).imp ?_
    rintro ⟨rfl, rfl⟩
    rfl
  case comment.comment => exact h ▸ .of_eq rfl _
  case null.null => exact .of_eq rfl []
  case result.result => exact (Expr.pins_of_sameExpr? h).imp (congrArg _)

theorem pins_of_sameAll {as bs : List Statement} (h : sameAll as bs = true) :
    Pins (as.flatMap Statement.entries) (bs.flatMap Statement.entries) (as = bs) :=
  .of_sameAll (fun _ _ => rfl) (fun _ _ => rfl) (fun _ _ _ _ => rfl) (fun _ _ => pins_of_same) h

end Statement

mutual

theorem Choice.pins_of_same : ∀ a b : Choice, a.same b = true → Pins a.entries b.entries (a = b)
  | .value a, b, h => by
    cases b <;> simp only [Choice.same, Bool.false_eq_true] at h
    exact (a.pins_of_same _ h).imp (congrArg _)
  | .range r, b, h => by
    cases b <;> simp only [Choice.same, Bool.false_eq_true] at h
    exact (r.pins_of_same _ h).imp (congrArg _)
  | .alternatives as, b, h => by
    cases b <;> simp only [Choice.same, Bool.false_eq_true] at h
    exact (Choice.pins_of_sameAll as _ h).imp (congrArg _)
  | .others, b, h => by
    cases b <;> simp only [Choice.same, Bool.false_eq_true] at h
    exact .of_eq rfl []
termination_by structural a => a

theorem Choice.pins_of_sameAll : ∀ as bs : List Choice, Choice.sameAll as bs = true →
    Pins (Choice.entriesAll as) (Choice.entriesAll bs) (as = bs)
  | [], bs, h => by
    cases bs with
    | nil => exact .of_eq rfl []
    | cons b bs => cases h
  | a :: as, bs, h => by
    cases bs with
    | nil => cases h
    | cons b bs =>
      simp only [Choice.sameAll, Bool.and_eq_true] at h
      refine ((a.pins_of_same b h.1).append (Choice.pins_of_sameAll as bs h.2)).imp ?_
      rintro ⟨rfl, rfl⟩
      rfl
termination_by structural as => as

end

mutual

theorem Sequential.pins_of_same : ∀ a b : Sequential, a.same b = true →
    Pins a.entries b.entries (a = b)
  | .simple a, b, h => by
    cases b <;> simp only [Sequential.same, Bool.false_eq_true] at h
    exact (Statement.pins_of_same h).imp (congrArg _)
  | .conditional c s o, b, h => by
    cases b <;> simp only [Sequential.same, Bool.false_eq_true, Bool.and_eq_true] at h
    refine (((c.pins_of_same _ h.1.1).append (s.pins_of_same _ h.1.2)).append
      (Sequential.pins_of_same? o _ h.2)).imp ?_
    rintro ⟨⟨rfl, rfl⟩, rfl⟩
    rfl
  | .selection e bs, b, h => by
    cases b <;> simp only [Sequential.same, Bool.false_eq_true, Bool.and_eq_true] at h
    refine ((e.pins_of_same _ h.1).append (Branch.pins_of_sameAll bs _ h.2)).imp ?_
    rintro ⟨rfl, rfl⟩
    rfl
  | .loop p r s, b, h => by
    cases b <;> simp only [Sequential.same, Bool.false_eq_true, Bool.and_eq_true] at h
    refine (((Ident.pins_of_same h.1.1).append (r.pins_of_same _ h.1.2)).append
      (s.pins_of_same _ h.2)).imp ?_
    rintro ⟨⟨rfl, rfl⟩, rfl⟩
    rfl
  | .region as, b, h => by
    cases b <;> simp only [Sequential.same, Bool.false_eq_true] at h
    exact (Sequential.pins_of_sameAll as _ h).imp (congrArg _)
termination_by structural a => a

theorem Sequential.pins_of_same? : ∀ a b : Option Sequential, Sequential.same? a b = true →
    Pins (Sequential.entries? a) (Sequential.entries? b) (a = b)
  | none, b, h => by
    cases b with
    | none => exact .of_eq rfl []
    | some b => cases h
  | some a, b, h => by
    cases b with
    | none => cases h
    | some b => exact (a.pins_of_same b h).imp (congrArg _)
termination_by structural a => a

theorem Sequential.pins_of_sameAll : ∀ as bs : List Sequential, Sequential.sameAll as bs = true →
    Pins (Sequential.entriesAll as) (Sequential.entriesAll bs) (as = bs)
  | [], bs, h => by
    cases bs with
    | nil => exact .of_eq rfl []
    | cons b bs => cases h
  | a :: as, bs, h => by
    cases bs with
    | nil => cases h
    | cons b bs =>
      simp only [Sequential.sameAll, Bool.and_eq_true] at h
      refine ((a.pins_of_same b h.1).append (Sequential.pins_of_sameAll as bs h.2)).imp ?_
      rintro ⟨rfl, rfl⟩
      rfl
termination_by structural as => as

theorem Branch.pins_of_same : ∀ a b : Branch, a.same b = true → Pins a.entries b.entries (a = b)
  | .mk c s, .mk c' s', h => by
    simp only [Branch.same, Bool.and_eq_true] at h
    refine ((c.pins_of_same c' h.1).append (s.pins_of_same s' h.2)).imp ?_
    rintro ⟨rfl, rfl⟩
    rfl
termination_by structural a => a

theorem Branch.pins_of_sameAll : ∀ as bs : List Branch, Branch.sameAll as bs = true →
    Pins (Branch.entriesAll as) (Branch.entriesAll bs) (as = bs)
  | [], bs, h => by
    cases bs with
    | nil => exact .of_eq rfl []
    | cons b bs => cases h
  | a :: as, bs, h => by
    cases bs with
    | nil => cases h
    | cons b bs =>
      simp only [Branch.sameAll, Bool.and_eq_true] at h
      refine ((a.pins_of_same b h.1).append (Branch.pins_of_sameAll as bs h.2)).imp ?_
      rintro ⟨rfl, rfl⟩
      rfl
termination_by structural as => as

end

/-! ## Concurrent code -/

theorem ConditionalWaveform.pins_of_same {a b : ConditionalWaveform} (h : a.same b = true) :
    Pins a.entries b.entries (a = b) := by
  induction a generalizing b with
  | value e =>
    cases b <;> simp only [same, Bool.false_eq_true] at h
    exact (e.pins_of_same _ h).imp (congrArg _)
  | choose v c rest ih =>
    cases b <;> simp only [same, Bool.false_eq_true, Bool.and_eq_true] at h
    refine (((v.pins_of_same _ h.1.1).append (c.pins_of_same _ h.1.2)).append (ih h.2)).imp ?_
    rintro ⟨⟨rfl, rfl⟩, rfl⟩
    rfl

theorem Waveform.pins_of_same {a b : Waveform} (h : a.same b = true) :
    Pins a.entries b.entries (a = b) := by
  cases a <;> cases b <;> simp only [same, Bool.false_eq_true] at h
  case plain.plain a b => exact (a.pins_of_same b h).imp (congrArg _)
  case conditional.conditional => exact (ConditionalWaveform.pins_of_same h).imp (congrArg _)

theorem ConcurrentStatement.pins_of_same {a b : ConcurrentStatement} (h : a.same b = true) :
    Pins a.entries b.entries (a = b) := by
  cases a <;> cases b <;> simp only [same, Bool.false_eq_true, Bool.and_eq_true, beq_iff_eq] at h
  case assignment.assignment t v t' v' =>
    refine ((t.pins_of_same t' h.1).append (Waveform.pins_of_same h.2)).imp ?_
    rintro ⟨rfl, rfl⟩
    rfl
  case comment.comment => exact h ▸ .of_eq rfl _

/-- The second mention of an optional name. -/
theorem Ident.pins_label {a b : Option Ident} (h : sameIdent? a b = true) :
    Pins (optionalEntries (fun label => fixed label.text) a)
      (optionalEntries (fun label => fixed label.text) b) True := by
  cases a <;> cases b
  case none.none => exact .of_eq trivial []
  case some.some => exact .fixed h
  all_goals cases h

theorem ProcessStatement.pins_of_same {a b : ProcessStatement} (h : a.same b = true) :
    Pins a.entries b.entries (a = b) := by
  obtain ⟨l, s, d, c⟩ := a
  obtain ⟨l', s', d', c'⟩ := b
  simp only [same, Bool.and_eq_true] at h
  obtain ⟨⟨⟨hl, hs⟩, hd⟩, hc⟩ := h
  refine (((((Ident.pins_of_sameIdent? hl).append (Ident.pins_of_sameAll hs)).append
    (Statement.pins_of_sameAll hd)).append (c.pins_of_same c' hc)).append
    (Ident.pins_label hl)).imp ?_
  rintro ⟨⟨⟨⟨rfl, rfl⟩, rfl⟩, rfl⟩, -⟩
  rfl

theorem Actual.pins_of_same {a b : Actual} (h : a.same b = true) :
    Pins a.entries b.entries (a = b) := by
  cases a <;> cases b <;> simp only [same, Bool.false_eq_true] at h
  case value.value a b => exact (a.pins_of_same b h).imp (congrArg _)
  case unconnected.unconnected => exact .of_eq rfl []

namespace Association

theorem pins_of_same {a b : Association} (h : a.same b = true) :
    Pins a.entries b.entries (a = b) := by
  obtain ⟨f, c⟩ := a
  obtain ⟨f', c'⟩ := b
  rw [same, Bool.and_eq_true] at h
  have hformal : Pins (optionalEntries Reference.entries f) (optionalEntries Reference.entries f')
      (f = f') := by
    cases f <;> cases f'
    case none.none => exact .of_eq rfl []
    case some.some r s => exact (r.pins_of_same s h.1).imp (congrArg _)
    all_goals cases h.1
  refine (hformal.append (Actual.pins_of_same h.2)).imp ?_
  rintro ⟨rfl, rfl⟩
  rfl

theorem pins_of_sameAll {as bs : List Association} (h : sameAll as bs = true) :
    Pins (as.flatMap Association.entries) (bs.flatMap Association.entries) (as = bs) :=
  .of_sameAll (fun _ _ => rfl) (fun _ _ => rfl) (fun _ _ _ _ => rfl) (fun _ _ => pins_of_same) h

end Association

theorem InstanceSource.pins_of_same {a b : InstanceSource} (h : a.same b = true) :
    Pins a.entries b.entries (a = b) := by
  cases a <;> cases b <;> simp only [same, Bool.false_eq_true, Bool.and_eq_true] at h
  case component.component => exact (Ident.pins_of_same h).imp (congrArg _)
  case entity.entity =>
    refine ((((Pins.of_eq trivial _).append (Ident.pins_of_same h.1.1)).append
      (Ident.pins_of_same h.1.2)).append (Ident.pins_of_sameIdent? h.2)).imp ?_
    rintro ⟨⟨⟨-, rfl⟩, rfl⟩, rfl⟩
    rfl

theorem Instance.pins_of_same {a b : Instance} (h : a.same b = true) :
    Pins a.entries b.entries (a = b) := by
  obtain ⟨l, s, g, p⟩ := a
  obtain ⟨l', s', g', p'⟩ := b
  simp only [same, Bool.and_eq_true] at h
  obtain ⟨⟨⟨hl, hs⟩, hg⟩, hp⟩ := h
  refine ((((Ident.pins_of_same hl).append (InstanceSource.pins_of_same hs)).append
    (Association.pins_of_sameAll hg)).append (Association.pins_of_sameAll hp)).imp ?_
  rintro ⟨⟨⟨rfl, rfl⟩, rfl⟩, rfl⟩
  rfl

/-- A name and its second mention. -/
theorem Ident.pins_again {a b : Ident} (h : a.same b = true) :
    Pins (fixed a.text) (fixed b.text) True :=
  .fixed h

mutual

theorem Concurrent.pins_of_same : ∀ a b : Concurrent, a.same b = true →
    Pins a.entries b.entries (a = b)
  | .simple a, b, h => by
    cases b <;> simp only [Concurrent.same, Bool.false_eq_true] at h
    exact (ConcurrentStatement.pins_of_same h).imp (congrArg _)
  | .process a, b, h => by
    cases b <;> simp only [Concurrent.same, Bool.false_eq_true] at h
    exact (ProcessStatement.pins_of_same h).imp (congrArg _)
  | .component a, b, h => by
    cases b <;> simp only [Concurrent.same, Bool.false_eq_true] at h
    exact (Instance.pins_of_same h).imp (congrArg _)
  | .generate l p r c, b, h => by
    cases b <;> simp only [Concurrent.same, Bool.false_eq_true, Bool.and_eq_true] at h
    obtain ⟨⟨⟨hl, hp⟩, hr⟩, hc⟩ := h
    refine (((((Ident.pins_of_same hl).append (Ident.pins_of_same hp)).append
      (r.pins_of_same _ hr)).append (c.pins_of_same _ hc)).append (Ident.pins_again hl)).imp ?_
    rintro ⟨⟨⟨⟨rfl, rfl⟩, rfl⟩, rfl⟩, -⟩
    rfl
  | .region as, b, h => by
    cases b <;> simp only [Concurrent.same, Bool.false_eq_true] at h
    exact (Concurrent.pins_of_sameAll as _ h).imp (congrArg _)
termination_by structural a => a

theorem Concurrent.pins_of_sameAll : ∀ as bs : List Concurrent, Concurrent.sameAll as bs = true →
    Pins (Concurrent.entriesAll as) (Concurrent.entriesAll bs) (as = bs)
  | [], bs, h => by
    cases bs with
    | nil => exact .of_eq rfl []
    | cons b bs => cases h
  | a :: as, bs, h => by
    cases bs with
    | nil => cases h
    | cons b bs =>
      simp only [Concurrent.sameAll, Bool.and_eq_true] at h
      refine ((a.pins_of_same b h.1).append (Concurrent.pins_of_sameAll as bs h.2)).imp ?_
      rintro ⟨rfl, rfl⟩
      rfl
termination_by structural as => as

end

/-! ## Declarations -/

namespace RecordField

theorem pins_of_same {a b : RecordField} (h : a.same b = true) :
    Pins a.entries b.entries (a = b) := by
  obtain ⟨n, t, c⟩ := a
  obtain ⟨n', t', c'⟩ := b
  simp only [same, Bool.and_eq_true, beq_iff_eq] at h
  obtain ⟨⟨hn, ht⟩, hc⟩ := h
  refine (((Ident.pins_of_same hn).append (TypeMark.pins_of_same ht)).append
    (Comment.pins_of_eq hc)).imp ?_
  rintro ⟨⟨rfl, rfl⟩, rfl⟩
  rfl

theorem pins_of_sameAll {as bs : List RecordField} (h : sameAll as bs = true) :
    Pins (as.flatMap RecordField.entries) (bs.flatMap RecordField.entries) (as = bs) :=
  .of_sameAll (fun _ _ => rfl) (fun _ _ => rfl) (fun _ _ _ _ => rfl) (fun _ _ => pins_of_same) h

end RecordField

theorem TypeDecl.pins_of_same {a b : TypeDecl} (h : a.same b = true) :
    Pins a.entries b.entries (a = b) := by
  cases a <;> cases b <;> simp only [same, Bool.false_eq_true, Bool.and_eq_true] at h
  case enumeration.enumeration =>
    refine ((Ident.pins_of_same h.1).append (Ident.pins_of_sameAll h.2)).imp ?_
    rintro ⟨rfl, rfl⟩
    rfl
  case record.record =>
    refine (((Ident.pins_of_same h.1).append (RecordField.pins_of_sameAll h.2)).append
      (Ident.pins_again h.1)).imp ?_
    rintro ⟨⟨rfl, rfl⟩, -⟩
    rfl
  case array.array n r e n' r' e' =>
    refine (((Ident.pins_of_same h.1.1).append (r.pins_of_same r' h.1.2)).append
      (TypeMark.pins_of_same h.2)).imp ?_
    rintro ⟨⟨rfl, rfl⟩, rfl⟩
    rfl

namespace Parameter

theorem pins_of_same {a b : Parameter} (h : a.same b = true) : Pins a.entries b.entries (a = b) := by
  obtain ⟨n, t⟩ := a
  obtain ⟨n', t'⟩ := b
  simp only [same, Bool.and_eq_true] at h
  refine ((Ident.pins_of_same h.1).append (TypeMark.pins_of_same h.2)).imp ?_
  rintro ⟨rfl, rfl⟩
  rfl

theorem pins_of_sameAll {as bs : List Parameter} (h : sameAll as bs = true) :
    Pins (as.flatMap Parameter.entries) (bs.flatMap Parameter.entries) (as = bs) :=
  .of_sameAll (fun _ _ => rfl) (fun _ _ => rfl) (fun _ _ _ _ => rfl) (fun _ _ => pins_of_same) h

end Parameter

theorem Signature.pins_of_same {a b : Signature} (h : a.same b = true) :
    Pins a.entries b.entries (a = b) := by
  obtain ⟨n, p, r⟩ := a
  obtain ⟨n', p', r'⟩ := b
  simp only [same, Bool.and_eq_true] at h
  obtain ⟨⟨hn, hp⟩, hr⟩ := h
  refine (((Ident.pins_of_same hn).append (Parameter.pins_of_sameAll hp)).append
    (TypeMark.pins_of_same hr)).imp ?_
  rintro ⟨⟨rfl, rfl⟩, rfl⟩
  rfl

theorem FunctionBody.pins_of_same {a b : FunctionBody} (h : a.same b = true) :
    Pins a.entries b.entries (a = b) := by
  obtain ⟨s, d, c⟩ := a
  obtain ⟨s', d', c'⟩ := b
  simp only [same, Bool.and_eq_true] at h
  obtain ⟨⟨hs, hd⟩, hc⟩ := h
  have hname : s.name.same s'.name = true := by
    simp only [Signature.same, Bool.and_eq_true] at hs
    exact hs.1.1
  refine ((((Signature.pins_of_same hs).append (Statement.pins_of_sameAll hd)).append
    (c.pins_of_same c' hc)).append (Ident.pins_again hname)).imp ?_
  rintro ⟨⟨⟨rfl, rfl⟩, rfl⟩, -⟩
  rfl

/-! ## Clauses -/

namespace Port

theorem pins_of_same {a b : Port} (h : a.same b = true) : Pins a.entries b.entries (a = b) := by
  obtain ⟨n, m, t, v, c⟩ := a
  obtain ⟨n', m', t', v', c'⟩ := b
  simp only [same, Bool.and_eq_true, beq_iff_eq] at h
  obtain ⟨⟨⟨⟨hn, rfl⟩, ht⟩, hv⟩, hc⟩ := h
  refine ((((Ident.pins_of_same hn).append (TypeMark.pins_of_same ht)).append
    (Expr.pins_of_sameExpr? hv)).append (Comment.pins_of_eq hc)).imp ?_
  rintro ⟨⟨⟨rfl, rfl⟩, rfl⟩, rfl⟩
  rfl

theorem pins_of_sameAll {as bs : List Port} (h : sameAll as bs = true) :
    Pins (as.flatMap Port.entries) (bs.flatMap Port.entries) (as = bs) :=
  .of_sameAll (fun _ _ => rfl) (fun _ _ => rfl) (fun _ _ _ _ => rfl) (fun _ _ => pins_of_same) h

end Port

namespace Generic

theorem pins_of_same {a b : Generic} (h : a.same b = true) : Pins a.entries b.entries (a = b) := by
  obtain ⟨n, t, v, c⟩ := a
  obtain ⟨n', t', v', c'⟩ := b
  simp only [same, Bool.and_eq_true, beq_iff_eq] at h
  obtain ⟨⟨⟨hn, ht⟩, hv⟩, hc⟩ := h
  refine ((((Ident.pins_of_same hn).append (TypeMark.pins_of_same ht)).append
    (Expr.pins_of_sameExpr? hv)).append (Comment.pins_of_eq hc)).imp ?_
  rintro ⟨⟨⟨rfl, rfl⟩, rfl⟩, rfl⟩
  rfl

theorem pins_of_sameAll {as bs : List Generic} (h : sameAll as bs = true) :
    Pins (as.flatMap Generic.entries) (bs.flatMap Generic.entries) (as = bs) :=
  .of_sameAll (fun _ _ => rfl) (fun _ _ => rfl) (fun _ _ _ _ => rfl) (fun _ _ => pins_of_same) h

end Generic

namespace Interface

theorem pins_of_same (keyword : Text) {a b : Interface} (h : a.same b = true) :
    Pins (a.entriesAs keyword) (b.entriesAs keyword) (a = b) := by
  obtain ⟨n, g, p⟩ := a
  obtain ⟨n', g', p'⟩ := b
  rw [same, Bool.and_eq_true, Bool.and_eq_true] at h
  obtain ⟨⟨hn, hg⟩, hp⟩ := h
  have hgenerics : Pins (optionalEntries (fun c => c.generics.flatMap Generic.entries) g)
      (optionalEntries (fun c => c.generics.flatMap Generic.entries) g') (g = g') := by
    cases g <;> cases g'
    case none.none => exact .of_eq rfl []
    case some.some c d => exact (Generic.pins_of_sameAll hg).imp fun h => by cases c; cases d; congr
    all_goals cases hg
  have hports : Pins (optionalEntries (fun c => c.ports.flatMap Port.entries) p)
      (optionalEntries (fun c => c.ports.flatMap Port.entries) p') (p = p') := by
    cases p <;> cases p'
    case none.none => exact .of_eq rfl []
    case some.some c d => exact (Port.pins_of_sameAll hp).imp fun h => by cases c; cases d; congr
    all_goals cases hp
  refine (((((Pins.of_eq trivial _).append (Ident.pins_of_same hn)).append hgenerics).append
    hports).append ((Pins.of_eq trivial _).append (Ident.pins_again hn))).imp ?_
  rintro ⟨⟨⟨⟨-, rfl⟩, rfl⟩, rfl⟩, -⟩
  rfl

theorem pins_of_sameAll (keyword : Text) {as bs : List Interface} (h : sameAll as bs = true) :
    Pins (as.flatMap (·.entriesAs keyword)) (bs.flatMap (·.entriesAs keyword)) (as = bs) :=
  .of_sameAll (fun _ _ => rfl) (fun _ _ => rfl) (fun _ _ _ _ => rfl)
    (fun _ _ => pins_of_same keyword) h

end Interface

namespace Declaration

theorem pins_of_same {a b : Declaration} (h : a.same b = true) :
    Pins a.entries b.entries (a = b) := by
  cases a <;> cases b <;> simp only [same, Bool.false_eq_true, beq_iff_eq] at h
  case object.object => exact (ObjectDecl.pins_of_same h).imp (congrArg _)
  case comment.comment => exact h ▸ .of_eq rfl _
  case type.type => exact (TypeDecl.pins_of_same h).imp (congrArg _)
  case component.component => exact (Interface.pins_of_same _ h).imp (congrArg _)
  case signature.signature => exact (Signature.pins_of_same h).imp (congrArg _)
  case function.function => exact (FunctionBody.pins_of_same h).imp (congrArg _)

theorem pins_of_sameAll {as bs : List Declaration} (h : sameAll as bs = true) :
    Pins (as.flatMap Declaration.entries) (bs.flatMap Declaration.entries) (as = bs) :=
  .of_sameAll (fun _ _ => rfl) (fun _ _ => rfl) (fun _ _ _ _ => rfl) (fun _ _ => pins_of_same) h

end Declaration

mutual

theorem BodyItem.pins_of_same : ∀ a b : BodyItem, a.same b = true → Pins a.entries b.entries (a = b)
  | .function a, b, h => by
    cases b <;> simp only [BodyItem.same, Bool.false_eq_true] at h
    exact (FunctionBody.pins_of_same h).imp (congrArg _)
  | .object a, b, h => by
    cases b <;> simp only [BodyItem.same, Bool.false_eq_true] at h
    exact (ObjectDecl.pins_of_same h).imp (congrArg _)
  | .type a, b, h => by
    cases b <;> simp only [BodyItem.same, Bool.false_eq_true] at h
    exact (TypeDecl.pins_of_same h).imp (congrArg _)
  | .comment a, b, h => by
    cases b <;> simp only [BodyItem.same, Bool.false_eq_true, beq_iff_eq] at h
    exact h ▸ .of_eq rfl _
  | .items as, b, h => by
    cases b <;> simp only [BodyItem.same, Bool.false_eq_true] at h
    exact (BodyItem.pins_of_sameAll as _ h).imp (congrArg _)
termination_by structural a => a

theorem BodyItem.pins_of_sameAll : ∀ as bs : List BodyItem, BodyItem.sameAll as bs = true →
    Pins (BodyItem.entriesAll as) (BodyItem.entriesAll bs) (as = bs)
  | [], bs, h => by
    cases bs with
    | nil => exact .of_eq rfl []
    | cons b bs => cases h
  | a :: as, bs, h => by
    cases bs with
    | nil => cases h
    | cons b bs =>
      simp only [BodyItem.sameAll, Bool.and_eq_true] at h
      refine ((a.pins_of_same b h.1).append (BodyItem.pins_of_sameAll as bs h.2)).imp ?_
      rintro ⟨rfl, rfl⟩
      rfl
termination_by structural as => as

end

/-! ## Design units -/

theorem ContextClause.pins_of_same {a b : ContextClause} (h : a.same b = true) :
    Pins a.entries b.entries (a = b) := by
  cases a <;> cases b <;> simp only [same, Bool.false_eq_true, Bool.and_eq_true, beq_iff_eq] at h
  case library.library =>
    exact ((Pins.of_eq trivial _).append (Ident.pins_of_same h)).imp fun h => congrArg _ h.2
  case use.use =>
    obtain ⟨hpath, rfl⟩ := h
    refine ((Pins.of_eq trivial _).append (Ident.pins_of_sameAll hpath)).imp ?_
    rintro ⟨-, rfl⟩
    rfl

theorem Architecture.pins_of_same {a b : Architecture} (h : a.same b = true) :
    Pins a.entries b.entries (a = b) := by
  obtain ⟨n, e, ⟨d⟩, c⟩ := a
  obtain ⟨n', e', ⟨d'⟩, c'⟩ := b
  simp only [same, Bool.and_eq_true] at h
  obtain ⟨⟨⟨hn, he⟩, hd⟩, hc⟩ := h
  refine ((((((Pins.of_eq trivial _).append (Ident.pins_of_same hn)).append
    (Ident.pins_of_same he)).append (Declaration.pins_of_sameAll hd)).append
    (c.pins_of_same c' hc)).append ((Pins.of_eq trivial _).append (Ident.pins_again hn))).imp ?_
  rintro ⟨⟨⟨⟨⟨-, rfl⟩, rfl⟩, rfl⟩, rfl⟩, -⟩
  rfl

theorem Package.pins_of_same {a b : Package} (h : a.same b = true) :
    Pins a.entries b.entries (a = b) := by
  obtain ⟨n, d⟩ := a
  obtain ⟨n', d'⟩ := b
  simp only [same, Bool.and_eq_true] at h
  refine ((((Pins.of_eq trivial _).append (Ident.pins_of_same h.1)).append
    (Declaration.pins_of_sameAll h.2)).append
    ((Pins.of_eq trivial _).append (Ident.pins_again h.1))).imp ?_
  rintro ⟨⟨⟨-, rfl⟩, rfl⟩, -⟩
  rfl

theorem PackageBody.pins_of_same {a b : PackageBody} (h : a.same b = true) :
    Pins a.entries b.entries (a = b) := by
  obtain ⟨n, i⟩ := a
  obtain ⟨n', i'⟩ := b
  simp only [same, Bool.and_eq_true] at h
  refine ((((Pins.of_eq trivial _).append (Ident.pins_of_same h.1)).append
    (i.pins_of_same i' h.2)).append
    ((Pins.of_eq trivial _).append (Ident.pins_again h.1))).imp ?_
  rintro ⟨⟨⟨-, rfl⟩, rfl⟩, -⟩
  rfl

/-- **Files that are equal up to the case of identifiers** have entries that are equal up to case;
they are equal if their own words are spelled alike and none has a real number. -/
theorem DesignFile.pins_of_same {f g : DesignFile} (h : f.same g = true) :
    Pins f.entries g.entries (f = g) := by
  obtain ⟨hd, c, p, b, e, a⟩ := f
  obtain ⟨hd', c', p', b', e', a'⟩ := g
  simp only [same, Bool.and_eq_true, beq_iff_eq] at h
  obtain ⟨⟨⟨⟨⟨rfl, hc⟩, hp⟩, hb⟩, he⟩, ha⟩ := h
  have hcontext : Pins (c.flatMap ContextClause.entries) (c'.flatMap ContextClause.entries)
      (c = c') :=
    .of_sameAll (fun _ _ => rfl) (fun _ _ => rfl) (fun _ _ _ _ => rfl)
      (fun _ _ => ContextClause.pins_of_same) hc
  have hpackages : Pins (p.flatMap Package.entries) (p'.flatMap Package.entries) (p = p') :=
    .of_sameAll (fun _ _ => rfl) (fun _ _ => rfl) (fun _ _ _ _ => rfl)
      (fun _ _ => Package.pins_of_same) hp
  have hbodies : Pins (b.flatMap PackageBody.entries) (b'.flatMap PackageBody.entries) (b = b') :=
    .of_sameAll (fun _ _ => rfl) (fun _ _ => rfl) (fun _ _ _ _ => rfl)
      (fun _ _ => PackageBody.pins_of_same) hb
  have harchitectures : Pins (a.flatMap Architecture.entries) (a'.flatMap Architecture.entries)
      (a = a') :=
    .of_sameAll (fun _ _ => rfl) (fun _ _ => rfl) (fun _ _ _ _ => rfl)
      (fun _ _ => Architecture.pins_of_same) ha
  refine ((((((Pins.of_eq trivial _).append hcontext).append hpackages).append hbodies).append
    (Interface.pins_of_sameAll _ he)).append harchitectures).imp ?_
  rintro ⟨⟨⟨⟨⟨-, rfl⟩, rfl⟩, rfl⟩, rfl⟩, rfl⟩
  rfl

end CanonicalVhdl
