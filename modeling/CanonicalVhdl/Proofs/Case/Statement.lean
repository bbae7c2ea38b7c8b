import CanonicalVhdl.Proofs.Case.Expr
import CanonicalVhdl.Statement.Basic

/-!
# Declarations and statements in either case

Types, declarations of objects and simple statements: their trees with identifiers in lower
case, the comments they keep, and their readers on folded texts.  A comment is kept as it was
written, so folding a tree folds its comments too; two trees with the same folded form are equal
up to the case of identifiers when they hold no comments.

## Main definitions

* `TypeMark.fold`, `ObjectDecl.fold`, `Statement.fold` — trees with their texts in lower case.
* `ObjectDecl.comments`, `Statement.comments` — the comments of a tree, in order.

## Main statements

* `ObjectDecl.same_of_fold`, `Statement.same_of_fold` — trees with the same folded form.
* `TypeMark.read_fold`, `ObjectDecl.readWithTrailer_fold`, `Statement.read_fold`,
  `Statement.readDeclarations_fold` — reading a folded text.
-/

namespace CanonicalVhdl

open Text

/-! ## Comments -/

namespace Comment

/-- A comment in lower case. -/
def fold (c : Comment) : Comment := ⟨Text.fold c.text⟩

theorem ofText?_fold (t : Text) : ofText? (Text.fold t) = (ofText? t).map fold := by
  rw [ofText?, ofText?, contains_fold (by decide), contains_fold (by decide), trimEnd_fold]
  split <;> rfl

/-- A text that starts with two hyphens, by its first characters. -/
theorem read_of_trim {t u : Text} (h : trim t = u) :
    read t = if !fits Limits.statementBytes u then none
      else (dropLead? "--".toList u).bind ofText? := by
  simp only [read, h]
  split
  · rfl
  · rcases u with _ | ⟨c, _ | ⟨d, u⟩⟩
    · rfl
    · split
      · rename_i heq
        cases heq
      · simp [dropLead?]
    · by_cases hdash : c = '-' ∧ d = '-'
      · obtain ⟨rfl, rfl⟩ := hdash
        simp [dropLead?]
      · have hlead : dropLead? "--".toList (c :: d :: u) = none := by
          rw [dropLead?, if_neg]
          intro hhyphens
          rw [show "--".toList = ['-', '-'] from rfl, List.isPrefixOf_cons_cons,
            List.isPrefixOf_cons_cons, Bool.and_eq_true, Bool.and_eq_true, beq_iff_eq,
            beq_iff_eq] at hhyphens
          exact hdash ⟨hhyphens.1.symm, hhyphens.2.1.symm⟩
        rw [hlead]
        split
        · rename_i heq
          cases heq
          exact absurd ⟨rfl, rfl⟩ hdash
        · rfl

theorem read_fold (t : Text) : read (Text.fold t) = (read t).map fold := by
  rw [read_of_trim (trim_fold t), read_of_trim rfl, fits_fold, dropLead?_fold (by decide)]
  split
  · rfl
  · cases dropLead? "--".toList (trim t) with
    | none => rfl
    | some body => exact ofText?_fold body

theorem ofLine?_fold (t : Text) : ofLine? (Text.fold t) = (ofLine? t).map fold := by
  rw [ofLine?, ofLine?, trim_fold, dropLead?_fold (by decide)]
  cases dropLead? "--".toList (trim t) with
  | none => rfl
  | some body => exact ofText?_fold body

theorem splitLast_fold (t : Text) :
    splitLast (Text.fold t) = Prod.map Text.fold Text.fold (splitLast t) := by
  have hlast : ((splitOn '\n' t).map Text.fold).getLast?.getD []
      = Text.fold ((splitOn '\n' t).getLast?.getD []) := by
    rw [List.getLast?_map]
    cases (splitOn '\n' t).getLast? <;> rfl
  simp only [splitLast, splitOn_fold (k := '\n') (by decide), hlast, ← List.map_dropLast]
  rw [Prod.map, fold_join]
  rfl

theorem splitTrailer_fold (t : Text) :
    splitTrailer (Text.fold t) = Prod.map Text.fold (Option.map fold) (splitTrailer t) := by
  simp only [splitTrailer, trim_fold, splitLast_fold, Prod.map_fst, Prod.map_snd, splitTrailing_fold,
    stripComments_fold, isEmpty_fold]
  rw [Prod.map, Prod.mk.injEq]
  constructor
  · split <;> simp
  · cases (splitTrailing (splitLast (trim t)).2).2 with
    | none => rfl
    | some comment => exact ofText?_fold comment

end Comment

/-! ## Types -/

namespace BuiltinType

/-- A built-in type with the identifiers of its range in lower case. -/
def fold : BuiltinType → BuiltinType
  | scalar kind => scalar kind
  | vector kind range => vector kind range.fold
  | integerRange range => integerRange range.fold

theorem same_of_fold {a b : BuiltinType} (h : a.fold = b.fold) : a.same b = true := by
  cases a <;> cases b <;> simp only [fold, reduceCtorEq, scalar.injEq, vector.injEq,
    integerRange.injEq] at h
  · simp [same, h]
  · simp [same, h.1, Range.same_of_fold _ _ h.2]
  · exact Range.same_of_fold _ _ h

theorem readConstrained_fold (room : Nat) (t : Text) :
    readConstrained room (Text.fold t) = (readConstrained room t).map fold := by
  have hkind : ∀ name, VectorType.ofName? (Text.fold name) = VectorType.ofName? name := fun name => by
    simp only [VectorType.ofName?, sameWord_fold]
  simp only [readConstrained, afterWord?_fold, takeWhile_bne_fold (k := '(') (by decide), length_fold,
    drop_fold, parenthesised?_fold, trimEnd_fold, hkind]
  cases afterWord? "integer".toList t with
  | some rest =>
    simp only [Option.map_some, afterWord?_fold]
    cases afterWord? "range".toList rest with
    | none => rfl
    | some range =>
      simp only [Option.map_some, Option.bind_eq_bind, Option.bind_some, Range.read_fold]
      cases Range.read room range <;> rfl
  | none =>
    simp only [Option.map_none]
    cases VectorType.ofName? (trimEnd (t.takeWhile (· != '('))) with
    | none => rfl
    | some kind =>
      cases parenthesised? (t.drop (t.takeWhile (· != '(')).length) with
      | none => rfl
      | some parts =>
        simp only [Option.map_some, Option.bind_eq_bind, Option.bind_some, Prod.map_fst,
          Prod.map_snd, isEmpty_fold, Range.read_fold]
        split
        · cases Range.read room parts.1 <;> rfl
        · rfl

theorem read_fold (room : Nat) (t : Text) : read room (Text.fold t) = (read room t).map fold := by
  have hkind : ∀ name, ScalarType.ofName? (Text.fold name) = ScalarType.ofName? name := fun name => by
    simp only [ScalarType.ofName?, sameWord_fold]
  simp only [read, withoutComments_fold, trim_fold, fits_fold, hkind]
  split
  · rfl
  · cases ScalarType.ofName? (trim (withoutComments t)) with
    | some kind => rfl
    | none => exact readConstrained_fold room _

end BuiltinType

namespace TypeMark

/-- A type with its identifiers in lower case. -/
def fold : TypeMark → TypeMark
  | builtin type => builtin type.fold
  | named name => named name.fold

theorem same_of_fold {a b : TypeMark} (h : a.fold = b.fold) : a.same b = true := by
  cases a <;> cases b <;> simp only [fold, reduceCtorEq, builtin.injEq, named.injEq] at h
  · exact BuiltinType.same_of_fold h
  · exact Ident.same_of_fold h

theorem read_fold (room : Nat) (t : Text) : read room (Text.fold t) = (read room t).map fold := by
  rw [read, read, BuiltinType.read_fold, trim_fold, Ident.ofText?_fold]
  cases BuiltinType.read room t with
  | some type => rfl
  | none => cases Ident.ofText? (trim t) <;> rfl

end TypeMark

/-! ## Values of a type -/

theorem Expr.integer?_fold (e : Expr) : e.fold.integer? = e.integer? := by
  cases e with
  | literal l => cases l <;> rfl
  | _ => rfl

theorem Range.low_fold (r : Range) : r.fold.low = r.low.fold := by
  cases r <;> rfl

theorem Range.high_fold (r : Range) : r.fold.high = r.high.fold := by
  cases r <;> rfl

theorem VectorLiteral.fits_fold (v : VectorLiteral) (kind : VectorType) (range : Range) :
    v.fold.fits kind range.fold = v.fits kind range := by
  have hsize : v.fold.size? = v.size? := by cases v <;> rfl
  have hbits : v.fold.isBitsOnly = v.isBitsOnly := by
    cases v with
    | aggregate elements =>
      rw [fold, Element.foldAll_eq_map, isBitsOnly, isBitsOnly, List.all_map]
      congr 1
      funext e
      obtain ⟨index, value⟩ := e
      cases value <;> rfl
    | _ => rfl
  have hrange : range.fold.size? = range.size? := by
    rw [Range.size?, Range.size?, Range.low_fold, Range.high_fold, Expr.integer?_fold,
      Expr.integer?_fold]
  rw [fits, fits, hsize, hbits, hrange]

theorem Literal.fits_fold (l : Literal) (type : BuiltinType) :
    l.fold.fits type.fold = l.fits type := by
  cases l with
  | vector v =>
    cases type with
    | vector kind range => exact VectorLiteral.fits_fold v kind range
    | _ => rfl
  | integer n =>
    cases type with
    | integerRange range =>
      show range.fold.admits n = range.admits n
      rw [Range.admits, Range.admits, Range.low_fold, Range.high_fold, Expr.integer?_fold,
        Expr.integer?_fold]
    | _ => rfl
  | _ => cases type <;> rfl

theorem TypeMark.admits_fold (type : TypeMark) (value : Expr) :
    type.fold.admits value.fold = type.admits value := by
  cases type with
  | named name => rfl
  | builtin type =>
    cases value with
    | literal l => exact Literal.fits_fold l type
    | _ => rfl

/-! ## Declarations of objects -/

theorem sameExpr?_of_fold {a b : Option Expr} (h : a.map Expr.fold = b.map Expr.fold) :
    sameExpr? a b = true := by
  cases a <;> cases b
  · rfl
  · cases h
  · cases h
  · exact Expr.same_of_fold _ _ (Option.some.inj h)

namespace TypedName

/-- A typed name with its identifiers in lower case. -/
def fold (n : TypedName) : TypedName :=
  ⟨n.name.fold, n.type.fold, n.default.map Expr.fold⟩

theorem isConsistent_fold (n : TypedName) : n.fold.isConsistent = n.isConsistent := by
  obtain ⟨name, type, default⟩ := n
  cases default with
  | none => rfl
  | some value => exact TypeMark.admits_fold type value

theorem readTyped_fold (room : Nat) (name : Ident) (t : Text) :
    readTyped room name.fold (Text.fold t) = (readTyped room name t).map fold := by
  have hcheck : ∀ n : TypedName, (if n.fold.isConsistent then some n.fold else none)
      = (if n.isConsistent then some n else none).map fold := fun n => by
    rw [isConsistent_fold]
    split <;> rfl
  rw [readTyped, readTyped, cutOuter?_fold (by decide)]
  cases cutOuter? ":=".toList t with
  | none =>
    simp only [Option.map_none, TypeMark.read_fold]
    cases TypeMark.read room t with
    | none => rfl
    | some type => exact hcheck ⟨name, type, none⟩
  | some parts =>
    simp only [Option.map_some, Prod.map_fst, Prod.map_snd, TypeMark.read_fold, Expr.read_fold]
    cases TypeMark.read room parts.1 with
    | none => rfl
    | some type =>
      cases Expr.read room parts.2 with
      | none => rfl
      | some value => exact hcheck ⟨name, type, some value⟩

theorem splitName?_fold (t : Text) :
    splitName? (Text.fold t) = (splitName? t).map (Prod.map Ident.fold Text.fold) := by
  rw [splitName?, splitName?, splitOnce_fold (by decide)]
  cases splitOnce ':' t with
  | none => rfl
  | some parts =>
    simp only [Option.map_some, Option.bind_eq_bind, Option.bind_some, Prod.map_fst, Prod.map_snd,
      head?_beq_fold (k := '=') (by decide), trim_fold, Ident.ofText?_fold]
    split
    · rfl
    · cases Ident.ofText? (trim parts.1) <;> rfl

end TypedName

namespace ObjectDecl

/-- A declaration with its identifiers and its comment in lower case. -/
def fold (d : ObjectDecl) : ObjectDecl :=
  ⟨d.objectClass, d.name.fold, d.type.fold, d.default.map Expr.fold, d.comment.map Comment.fold,
    fun h => by rw [Option.isSome_map]; exact d.valued h⟩

/-- The comment of a declaration. -/
def comments (d : ObjectDecl) : List Comment := d.comment.toList

theorem same_of_fold {a b : ObjectDecl} (h : a.fold = b.fold) (hnone : a.comments = []) :
    a.same b = true := by
  simp only [fold, mk.injEq] at h
  obtain ⟨hclass, hname, htype, hdefault, hcomment⟩ := h
  have ha : a.comment = none := by simpa [comments] using hnone
  have hb : b.comment = none := by simpa [ha, eq_comm] using hcomment
  simp [same, hclass, Ident.same_of_fold hname, TypeMark.same_of_fold htype,
    sameExpr?_of_fold hdefault, ha, hb]

theorem ofTyped?_fold (c : ObjectClass) (n : TypedName) (comment : Option Comment) :
    ofTyped? c n.fold (comment.map Comment.fold) = (ofTyped? c n comment).map fold := by
  have hvalue : n.fold.default.isSome = n.default.isSome := Option.isSome_map ..
  by_cases h : c = .constant → n.default.isSome = true
  · rw [ofTyped?, dif_pos (by rwa [hvalue]), ofTyped?, dif_pos h]
    rfl
  · rw [ofTyped?, dif_neg (by rwa [hvalue]), ofTyped?, dif_neg h]
    rfl

theorem readAs_fold (room : Nat) (c : ObjectClass) (t : Text) :
    readAs room c (Text.fold t) = (readAs room c t).map fold := by
  rw [readAs, readAs, fits_fold, Comment.splitTrailer_fold]
  split
  · rfl
  · simp only [Prod.map_fst, Prod.map_snd, afterWord?_fold, Option.bind_eq_bind]
    cases afterWord? c.keyword.toList (Comment.splitTrailer t).1 with
    | none => rfl
    | some body =>
      simp only [Option.map_some, Option.bind_some, dropFinal?_fold (k := ';') (by decide)]
      cases dropFinal? ';' body with
      | none => rfl
      | some body =>
        simp only [Option.map_some, Option.bind_some, trimEnd_fold, TypedName.splitName?_fold]
        cases TypedName.splitName? (trimEnd body) with
        | none => rfl
        | some parts =>
          simp only [Option.map_some, Option.bind_some, Prod.map_fst, Prod.map_snd,
            TypedName.readTyped_fold]
          cases TypedName.readTyped room parts.1 parts.2 with
          | none => rfl
          | some typed => exact ofTyped?_fold c typed _

theorem read_fold (room : Nat) (t : Text) : read room (Text.fold t) = (read room t).map fold := by
  have hclass : ∀ u, ObjectClass.ofDeclaration? (Text.fold u) = ObjectClass.ofDeclaration? u :=
    fun u => by simp only [ObjectClass.ofDeclaration?, startsWith_fold]
  simp only [read, trimStart_fold, hclass]
  cases ObjectClass.ofDeclaration? (trimStart t) with
  | none => rfl
  | some c => exact readAs_fold room c (trimStart t)

theorem readWithTrailer_fold (room : Nat) (t : Text) (trailer : Option Text) :
    readWithTrailer room (Text.fold t) (trailer.map Text.fold)
      = (readWithTrailer room t trailer).map fold := by
  rw [readWithTrailer, readWithTrailer, read_fold, Option.map_map, Option.map_map]
  congr 1
  funext d
  cases trailer with
  | none => rfl
  | some comment =>
    have hnone : d.fold.comment.isNone = d.comment.isNone := Option.isNone_map ..
    simp only [Function.comp_apply, Option.map_some, hnone, Comment.ofText?_fold]
    split <;> rfl

end ObjectDecl

/-! ## Statements -/

theorem labelled?_fold (t : Text) :
    labelled? (Text.fold t) = (labelled? t).map (Prod.map Ident.fold Text.fold) := by
  rw [labelled?, labelled?, trimStart_fold, splitOnce_fold (by decide)]
  cases splitOnce ':' (trimStart t) with
  | none => rfl
  | some parts =>
    simp only [Option.map_some, Option.bind_eq_bind, Option.bind_some, Prod.map_fst, Prod.map_snd,
      head?_beq_fold (k := '=') (by decide), trimEnd_fold, trimStart_fold, Ident.ofText?_fold]
    split
    · rfl
    · cases Ident.ofText? (trimEnd parts.1) <;> rfl

namespace Statement

/-- A statement with its identifiers and its comments in lower case. -/
def fold : Statement → Statement
  | declaration d => declaration d.fold
  | assignment target kind value => assignment target.fold kind value.fold
  | comment c => comment c.fold
  | null => null
  | result value => result (value.map Expr.fold)

/-- The comments of a statement. -/
def comments : Statement → List Comment
  | declaration d => d.comments
  | comment c => [c]
  | assignment .. | null | result _ => []

theorem same_of_fold {a b : Statement} (h : a.fold = b.fold) (hnone : a.comments = []) :
    a.same b = true := by
  cases a <;> cases b <;> simp only [fold, reduceCtorEq, declaration.injEq, assignment.injEq,
    result.injEq] at h
  · exact ObjectDecl.same_of_fold h hnone
  · simp [same, Reference.same_of_fold _ _ h.1, h.2.1, Expr.same_of_fold _ _ h.2.2]
  · cases hnone
  · rfl
  · exact sameExpr?_of_fold h

theorem sameAll_of_fold {as bs : List Statement} (h : as.map fold = bs.map fold)
    (hnone : as.flatMap comments = []) : sameAll as bs = true := by
  induction as generalizing bs with
  | nil =>
    cases bs with
    | nil => rfl
    | cons b bs => cases h
  | cons a as ih =>
    cases bs with
    | nil => cases h
    | cons b bs =>
      rw [List.map_cons, List.map_cons, List.cons.injEq] at h
      rw [List.flatMap_cons, List.append_eq_nil_iff] at hnone
      rw [sameAll, same_of_fold h.1 hnone.1, ih h.2 hnone.2, Bool.and_self]

theorem readBody_fold (room : Nat) (t : Text) :
    readBody room (Text.fold t) = (readBody room t).map fold := by
  have hfirst : firstAssignment? (Text.fold t) = firstAssignment? t := by
    rw [firstAssignment?, firstAssignment?, outerMatch?_fold (by decide), outerMatch?_fold (by decide)]
  simp only [readBody, sameWord_fold, afterWord?_fold, hfirst]
  split
  · rfl
  · cases afterWord? "return".toList t with
    | some value =>
      simp only [Option.map_some, isEmpty_fold, Expr.read_fold]
      split
      · rfl
      · cases Expr.read room value <;> rfl
    | none =>
      simp only [Option.map_none]
      cases firstAssignment? t with
      | none => rfl
      | some first =>
        simp only [Option.bind_eq_bind, Option.bind_some, take_fold, drop_fold, Reference.read_fold,
          Expr.read_fold]
        cases Reference.read room (t.take first.1) with
        | none => rfl
        | some target => cases Expr.read room (t.drop (first.1 + 2)) <;> rfl

theorem read_fold (room : Nat) (t : Text) : read room (Text.fold t) = (read room t).map fold := by
  simp only [read, trim_fold, fits_fold, Comment.read_fold, ObjectDecl.read_fold,
    withoutComments_fold, isConstruct_fold, dropFinal?_fold (k := ';') (by decide)]
  split
  · rfl
  · cases Comment.read (trim t) with
    | some c => rfl
    | none =>
      cases ObjectDecl.read room (trim t) with
      | some d => rfl
      | none =>
        simp only [Option.map_none]
        split
        · rfl
        · cases dropFinal? ';' (withoutComments (trim t)) with
          | none => rfl
          | some body =>
            simp only [Option.map_some, Option.bind_eq_bind, Option.bind_some, trimEnd_fold,
              readBody_fold]

theorem readDeclarations_fold (room : Nat) (t : Text) :
    readDeclarations room (Text.fold t) = (readDeclarations room t).map (List.map fold) := by
  rw [readDeclarations, readDeclarations, pieces?_fold]
  cases pieces? t with
  | none => rfl
  | some pieces =>
    refine mapM_map_of_comm (fun piece => ?_) pieces
    cases piece with
    | comment c =>
      simp only [Piece.fold, Comment.ofText?_fold]
      cases Comment.ofText? c <;> rfl
    | code code trailer =>
      simp only [Piece.fold, ObjectDecl.readWithTrailer_fold]
      cases ObjectDecl.readWithTrailer room code trailer <;> rfl

end Statement
end CanonicalVhdl
