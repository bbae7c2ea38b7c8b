import CanonicalVhdl.Proofs.Case.Text
import CanonicalVhdl.Expr.Basic

/-!
# Expression trees up to case

An expression with its identifiers in lower case.  Nothing else in a tree depends on the case of
the text it was read from: values are kept as values, and attribute designators are kept in
lower case already.

## Main definitions

* `Ident.fold`, `Expr.fold` and its companions — trees with their identifiers in lower case.

## Main statements

* `Expr.same_of_fold` and its companions — trees with the same folded form are equal up to the
  case of identifiers.
-/

namespace CanonicalVhdl

/-! ## Identifiers -/

theorem isReserved_fold (t : Text) : isReserved (Text.fold t) = isReserved t := by
  rw [isReserved, isReserved, Text.fold_fold]

theorem hasDoubleUnderscore_cons (c : Char) (t : Text) :
    hasDoubleUnderscore (c :: t) = (c == '_' && t.head? == some '_' || hasDoubleUnderscore t) := by
  by_cases hc : c = '_'
  · subst hc
    rcases t with _ | ⟨d, t⟩
    · rfl
    · by_cases hd : d = '_'
      · subst hd; rfl
      · rw [hasDoubleUnderscore]
        · simp [hd]
        · intro _ _ h
          cases h
          exact hd rfl
  · rw [hasDoubleUnderscore]
    · simp [hc]
    · intro _ h
      exact absurd h hc

theorem hasDoubleUnderscore_fold (t : Text) :
    hasDoubleUnderscore (Text.fold t) = hasDoubleUnderscore t := by
  induction t with
  | nil => rfl
  | cons c t ih =>
    rw [Text.fold_cons, hasDoubleUnderscore_cons, hasDoubleUnderscore_cons, ih,
      beq_toLower (by decide), Text.head?_beq_fold (by decide)]

theorem isIdent_fold (t : Text) : isIdent (Text.fold t) = isIdent t := by
  have hhead : (Text.fold t).head?.any Char.isAlpha = t.head?.any Char.isAlpha := by
    cases t <;> simp
  have hlast : ((Text.fold t).getLast? != some '_') = (t.getLast? != some '_') := by
    rw [bne, bne, Text.getLast?_beq_fold (by decide)]
  rw [isIdent, isIdent, hhead, hlast, Text.fits_fold, Text.all_fold isIdentChar_toLower,
    hasDoubleUnderscore_fold, isReserved_fold]

namespace Ident

/-- An identifier in lower case. -/
def fold (i : Ident) : Ident :=
  ⟨Text.fold i.text, (isIdent_fold i.text).trans i.valid⟩

@[simp] theorem text_fold (i : Ident) : i.fold.text = Text.fold i.text := rfl

theorem ofText?_fold (t : Text) : ofText? (Text.fold t) = (ofText? t).map fold := by
  by_cases h : isIdent t = true
  · rw [ofText?, dif_pos ((isIdent_fold t).trans h), ofText?, dif_pos h]
    rfl
  · rw [ofText?, dif_neg (by rwa [isIdent_fold]), ofText?, dif_neg h]
    rfl

theorem same_of_fold {a b : Ident} (h : a.fold = b.fold) : a.same b = true := by
  have htext : a.fold.text = b.fold.text := congrArg Ident.text h
  rw [same, beq_iff_eq]
  exact htext

@[simp] theorem same_fold (a b : Ident) : a.fold.same b.fold = a.same b := by
  simp [same, key]

theorem sameAll_of_fold {as bs : List Ident} (h : as.map fold = bs.map fold) :
    sameAll as bs = true := by
  induction as generalizing bs with
  | nil =>
    cases bs with
    | nil => rfl
    | cons b bs => cases h
  | cons a as ih =>
    cases bs with
    | nil => cases h
    | cons b bs =>
      rw [List.map_cons, List.map_cons, List.cons.injEq] at h
      rw [sameAll, same_of_fold h.1, ih h.2, Bool.and_self]

theorem distinct_fold (is : List Ident) : distinct (is.map fold) = distinct is := by
  induction is with
  | nil => rfl
  | cons i is ih =>
    rw [List.map_cons, distinct, distinct, ih, List.any_map]
    congr 3
    funext j
    exact same_fold i j

theorem sameIdent?_of_fold {a b : Option Ident} (h : a.map fold = b.map fold) :
    sameIdent? a b = true := by
  cases a <;> cases b
  · rfl
  · cases h
  · cases h
  · exact same_of_fold (Option.some.inj h)

end Ident

/-! ## Expressions -/

mutual

/-- An expression with its identifiers in lower case. -/
def Expr.fold : Expr → Expr
  | .reference r => .reference r.fold
  | .literal l => .literal l.fold
  | .arith a op b => .arith a.fold op b.fold
  | .group a => .group a.fold
  | .compare a op b => .compare a.fold op b.fold
  | .edge kind s => .edge kind s.fold
  | .negation a => .negation a.fold
  | .logic a op b => .logic a.fold op b.fold
  | .convert kind a => .convert kind a.fold
  | .call name as => .call name.fold (Argument.foldAll as)
termination_by structural x => x

/-- An argument with its identifiers in lower case. -/
def Argument.fold : Argument → Argument
  | .mk p a => .mk (p.map Ident.fold) a.fold
termination_by structural x => x

/-- A list of arguments with their identifiers in lower case. -/
def Argument.foldAll : List Argument → List Argument
  | [] => []
  | a :: as => a.fold :: Argument.foldAll as
termination_by structural x => x

/-- A reference with its identifiers in lower case. -/
def Reference.fold : Reference → Reference
  | .name n => .name n.fold
  | .member r m => .member r.fold m.fold
  | .indexed n i => .indexed n.fold i.fold
  | .attributeOf n d => .attributeOf n.fold d
termination_by structural x => x

/-- An index with its identifiers in lower case. -/
def Index.fold : Index → Index
  | .position a => .position a.fold
  | .slice r => .slice r.fold
  | .others => .others
termination_by structural x => x

/-- A range with its identifiers in lower case. -/
def Range.fold : Range → Range
  | .ascending a b => .ascending a.fold b.fold
  | .descending a b => .descending a.fold b.fold
termination_by structural x => x

/-- A literal with the identifiers of its indices in lower case. -/
def Literal.fold : Literal → Literal
  | .vector v => .vector v.fold
  | .bit b => .bit b
  | .boolean b => .boolean b
  | .real x => .real x
  | .integer n => .integer n
  | .logic v => .logic v
termination_by structural x => x

/-- A vector literal with the identifiers of its indices in lower case. -/
def VectorLiteral.fold : VectorLiteral → VectorLiteral
  | .aggregate es => .aggregate (Element.foldAll es)
  | .bits bs => .bits bs
  | .logics vs => .logics vs
  | .hexadecimal ds => .hexadecimal ds
  | .octal ds => .octal ds
termination_by structural x => x

/-- An element with the identifiers of its index in lower case. -/
def Element.fold : Element → Element
  | .mk i l => .mk i.fold l.fold
termination_by structural x => x

/-- A list of elements with the identifiers of their indices in lower case. -/
def Element.foldAll : List Element → List Element
  | [] => []
  | e :: es => e.fold :: Element.foldAll es
termination_by structural x => x

end

theorem Argument.foldAll_eq_map (as : List Argument) : Argument.foldAll as = as.map Argument.fold := by
  induction as with
  | nil => rfl
  | cons a as ih => rw [Argument.foldAll, ih, List.map_cons]

theorem Element.foldAll_eq_map (es : List Element) : Element.foldAll es = es.map Element.fold := by
  induction es with
  | nil => rfl
  | cons e es ih => rw [Element.foldAll, ih, List.map_cons]

theorem Real64.same_self (x : Real64) : x.same x = true := by
  simp [Real64.same]

mutual

theorem Expr.same_of_fold : ∀ a b : Expr, a.fold = b.fold → a.same b = true
  | .reference r, b, h => by
    cases b <;> simp only [Expr.fold, reduceCtorEq, Expr.reference.injEq] at h
    exact Reference.same_of_fold r _ h
  | .literal l, b, h => by
    cases b <;> simp only [Expr.fold, reduceCtorEq, Expr.literal.injEq] at h
    exact Literal.same_of_fold l _ h
  | .arith a op c, b, h => by
    cases b <;> simp only [Expr.fold, reduceCtorEq, Expr.arith.injEq] at h
    simp [Expr.same, Expr.same_of_fold a _ h.1, h.2.1, Expr.same_of_fold c _ h.2.2]
  | .group a, b, h => by
    cases b <;> simp only [Expr.fold, reduceCtorEq, Expr.group.injEq] at h
    exact Expr.same_of_fold a _ h
  | .compare a op c, b, h => by
    cases b <;> simp only [Expr.fold, reduceCtorEq, Expr.compare.injEq] at h
    simp [Expr.same, Expr.same_of_fold a _ h.1, h.2.1, Expr.same_of_fold c _ h.2.2]
  | .edge kind s, b, h => by
    cases b <;> simp only [Expr.fold, reduceCtorEq, Expr.edge.injEq] at h
    simp [Expr.same, h.1, Reference.same_of_fold s _ h.2]
  | .negation a, b, h => by
    cases b <;> simp only [Expr.fold, reduceCtorEq, Expr.negation.injEq] at h
    exact Expr.same_of_fold a _ h
  | .logic a op c, b, h => by
    cases b <;> simp only [Expr.fold, reduceCtorEq, Expr.logic.injEq] at h
    simp [Expr.same, Expr.same_of_fold a _ h.1, h.2.1, Expr.same_of_fold c _ h.2.2]
  | .convert kind a, b, h => by
    cases b <;> simp only [Expr.fold, reduceCtorEq, Expr.convert.injEq] at h
    simp [Expr.same, h.1, Expr.same_of_fold a _ h.2]
  | .call name as, b, h => by
    cases b <;> simp only [Expr.fold, reduceCtorEq, Expr.call.injEq] at h
    simp [Expr.same, Ident.same_of_fold h.1, Argument.sameAll_of_fold as _ h.2]
termination_by structural x => x

theorem Argument.same_of_fold : ∀ a b : Argument, a.fold = b.fold → a.same b = true
  | .mk p a, .mk q b, h => by
    simp only [Argument.fold, Argument.mk.injEq] at h
    simp [Argument.same, Ident.sameIdent?_of_fold h.1, Expr.same_of_fold a b h.2]
termination_by structural x => x

theorem Argument.sameAll_of_fold :
    ∀ as bs : List Argument, Argument.foldAll as = Argument.foldAll bs → Argument.sameAll as bs = true
  | [], bs, h => by
    cases bs with
    | nil => rfl
    | cons b bs => cases h
  | a :: as, bs, h => by
    cases bs with
    | nil => cases h
    | cons b bs =>
      simp only [Argument.foldAll, List.cons.injEq] at h
      simp [Argument.sameAll, Argument.same_of_fold a b h.1, Argument.sameAll_of_fold as bs h.2]
termination_by structural x => x

theorem Reference.same_of_fold : ∀ a b : Reference, a.fold = b.fold → a.same b = true
  | .name n, b, h => by
    cases b <;> simp only [Reference.fold, reduceCtorEq, Reference.name.injEq] at h
    exact Ident.same_of_fold h
  | .member r m, b, h => by
    cases b <;> simp only [Reference.fold, reduceCtorEq, Reference.member.injEq] at h
    simp [Reference.same, Ident.same_of_fold h.1, Ident.same_of_fold h.2]
  | .indexed n i, b, h => by
    cases b <;> simp only [Reference.fold, reduceCtorEq, Reference.indexed.injEq] at h
    simp [Reference.same, Ident.same_of_fold h.1, Index.same_of_fold i _ h.2]
  | .attributeOf n d, b, h => by
    cases b <;> simp only [Reference.fold, reduceCtorEq, Reference.attributeOf.injEq] at h
    simp [Reference.same, Ident.same_of_fold h.1, h.2]
termination_by structural x => x

theorem Index.same_of_fold : ∀ a b : Index, a.fold = b.fold → a.same b = true
  | .position a, b, h => by
    cases b <;> simp only [Index.fold, reduceCtorEq, Index.position.injEq] at h
    exact Expr.same_of_fold a _ h
  | .slice r, b, h => by
    cases b <;> simp only [Index.fold, reduceCtorEq, Index.slice.injEq] at h
    exact Range.same_of_fold r _ h
  | .others, b, h => by
    cases b <;> simp only [Index.fold, reduceCtorEq] at h
    rfl
termination_by structural x => x

theorem Range.same_of_fold : ∀ a b : Range, a.fold = b.fold → a.same b = true
  | .ascending a c, b, h => by
    cases b <;> simp only [Range.fold, reduceCtorEq, Range.ascending.injEq] at h
    simp [Range.same, Expr.same_of_fold a _ h.1, Expr.same_of_fold c _ h.2]
  | .descending a c, b, h => by
    cases b <;> simp only [Range.fold, reduceCtorEq, Range.descending.injEq] at h
    simp [Range.same, Expr.same_of_fold a _ h.1, Expr.same_of_fold c _ h.2]
termination_by structural x => x

theorem Literal.same_of_fold : ∀ a b : Literal, a.fold = b.fold → a.same b = true
  | .vector v, b, h => by
    cases b <;> simp only [Literal.fold, reduceCtorEq, Literal.vector.injEq] at h
    exact VectorLiteral.same_of_fold v _ h
  | .bit v, b, h => by
    cases b <;> simp only [Literal.fold, reduceCtorEq, Literal.bit.injEq] at h
    simp [Literal.same, h]
  | .boolean v, b, h => by
    cases b <;> simp only [Literal.fold, reduceCtorEq, Literal.boolean.injEq] at h
    simp [Literal.same, h]
  | .real v, b, h => by
    cases b <;> simp only [Literal.fold, reduceCtorEq, Literal.real.injEq] at h
    rw [h]
    exact Real64.same_self _
  | .integer v, b, h => by
    cases b <;> simp only [Literal.fold, reduceCtorEq, Literal.integer.injEq] at h
    simp [Literal.same, h]
  | .logic v, b, h => by
    cases b <;> simp only [Literal.fold, reduceCtorEq, Literal.logic.injEq] at h
    simp [Literal.same, h]
termination_by structural x => x

theorem VectorLiteral.same_of_fold : ∀ a b : VectorLiteral, a.fold = b.fold → a.same b = true
  | .aggregate es, b, h => by
    cases b <;> simp only [VectorLiteral.fold, reduceCtorEq, VectorLiteral.aggregate.injEq] at h
    exact Element.sameAll_of_fold es _ h
  | .bits v, b, h => by
    cases b <;> simp only [VectorLiteral.fold, reduceCtorEq, VectorLiteral.bits.injEq] at h
    simp [VectorLiteral.same, h]
  | .logics v, b, h => by
    cases b <;> simp only [VectorLiteral.fold, reduceCtorEq, VectorLiteral.logics.injEq] at h
    simp [VectorLiteral.same, h]
  | .hexadecimal v, b, h => by
    cases b <;> simp only [VectorLiteral.fold, reduceCtorEq, VectorLiteral.hexadecimal.injEq] at h
    simp [VectorLiteral.same, h]
  | .octal v, b, h => by
    cases b <;> simp only [VectorLiteral.fold, reduceCtorEq, VectorLiteral.octal.injEq] at h
    simp [VectorLiteral.same, h]
termination_by structural x => x

theorem Element.same_of_fold : ∀ a b : Element, a.fold = b.fold → a.same b = true
  | .mk i a, .mk j b, h => by
    simp only [Element.fold, Element.mk.injEq] at h
    simp [Element.same, Index.same_of_fold i j h.1, Literal.same_of_fold a b h.2]
termination_by structural x => x

theorem Element.sameAll_of_fold :
    ∀ as bs : List Element, Element.foldAll as = Element.foldAll bs → Element.sameAll as bs = true
  | [], bs, h => by
    cases bs with
    | nil => rfl
    | cons b bs => cases h
  | a :: as, bs, h => by
    cases bs with
    | nil => cases h
    | cons b bs =>
      simp only [Element.foldAll, List.cons.injEq] at h
      simp [Element.sameAll, Element.same_of_fold a b h.1, Element.sameAll_of_fold as bs h.2]
termination_by structural x => x

end

end CanonicalVhdl
