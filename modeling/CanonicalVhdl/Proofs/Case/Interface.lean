import CanonicalVhdl.Proofs.Case.Sequential
import CanonicalVhdl.Design.Function
import CanonicalVhdl.Design.Interface
import CanonicalVhdl.Design.TypeDecl

/-!
# Declarations of types, functions and interfaces in either case

## Main definitions

* `TypeDecl.fold`, `Signature.fold`, `FunctionBody.fold`, `Interface.fold` — trees with their texts
  in lower case.
* `TypeDecl.comments`, `FunctionBody.comments`, `Interface.comments` — the comments of a tree.

## Main statements

* `TypeDecl.read_fold`, `Signature.read_fold`, `FunctionBody.read_fold`, `Interface.readAs_fold` —
  reading a folded text gives the folded tree.
* `TypeDecl.same_of_fold`, `FunctionBody.same_of_fold`, `Interface.same_of_fold` — trees without
  comments and with the same folded form.
-/

namespace CanonicalVhdl

open Text

/-! ## Lists of entries -/

/-- Lists are equal up to case when their members are, one by one.  `sameAll` is the comparison
of lists that belongs to `same`. -/
theorem sameAll_of_fold {α : Type} (fold : α → α) (comments : α → List Comment)
    {same : α → α → Bool} (sameAll : List α → List α → Bool) (hnil : sameAll [] [] = true)
    (hcons : ∀ a as b bs, sameAll (a :: as) (b :: bs) = (same a b && sameAll as bs))
    (hsame : ∀ a b, fold a = fold b → comments a = [] → same a b = true) {as bs : List α}
    (h : as.map fold = bs.map fold) (hnone : as.flatMap comments = []) : sameAll as bs = true := by
  induction as generalizing bs with
  | nil =>
    cases bs with
    | nil => exact hnil
    | cons b bs => cases h
  | cons a as ih =>
    cases bs with
    | nil => cases h
    | cons b bs =>
      rw [List.map_cons, List.map_cons, List.cons.injEq] at h
      rw [List.flatMap_cons, List.append_eq_nil_iff] at hnone
      rw [hcons, hsame a b h.1 hnone.1, ih h.2 hnone.2, Bool.and_self]

/-- A comment that folding leaves out was not there. -/
theorem eq_none_of_fold {a b : Option Comment} (h : a.map Comment.fold = b.map Comment.fold)
    (hnone : a.toList = []) : a = none ∧ b = none := by
  have ha : a = none := by simpa using hnone
  exact ⟨ha, by simpa [ha, eq_comm] using h⟩

/-! ## Types -/

namespace RecordField

/-- A field with its texts in lower case. -/
def fold (f : RecordField) : RecordField :=
  ⟨f.name.fold, f.type.fold, f.comment.map Comment.fold⟩

/-- The comment of a field. -/
def comments (f : RecordField) : List Comment := f.comment.toList

theorem same_of_fold {f g : RecordField} (h : f.fold = g.fold) (hnone : f.comments = []) :
    f.same g = true := by
  simp only [fold, mk.injEq] at h
  obtain ⟨hf, hg⟩ := eq_none_of_fold h.2.2 hnone
  simp [same, Ident.same_of_fold h.1, TypeMark.same_of_fold h.2.1, hf, hg]

theorem read_fold (room : Nat) (t : Text) : read room (Text.fold t) = (read room t).map fold := by
  rw [read, read, fits_fold, Comment.splitTrailer_fold]
  split
  · rfl
  · simp only [Prod.map_fst, Prod.map_snd, dropFinal?_fold (k := ';') (by decide), Option.bind_eq_bind]
    cases dropFinal? ';' (Comment.splitTrailer t).1 with
    | none => rfl
    | some body =>
      simp only [Option.map_some, Option.bind_some, splitOnce_fold (k := ':') (by decide)]
      cases splitOnce ':' body with
      | none => rfl
      | some parts =>
        simp only [Option.map_some, Option.bind_some, Prod.map_fst, Prod.map_snd, trim_fold,
          Ident.ofText?_fold, TypeMark.read_fold]
        cases Ident.ofText? (trim parts.1) with
        | none => rfl
        | some name => cases TypeMark.read room parts.2 <;> rfl

theorem readWithTrailer_fold (room : Nat) (t : Text) (trailer : Option Text) :
    readWithTrailer room (Text.fold t) (trailer.map Text.fold)
      = (readWithTrailer room t trailer).map fold := by
  rw [readWithTrailer, readWithTrailer, read_fold, Option.map_map, Option.map_map]
  congr 1
  funext f
  have hnone : f.fold.comment.isNone = f.comment.isNone := Option.isNone_map ..
  have htrailer : (trailer.map Text.fold).bind Comment.ofText?
      = (trailer.bind Comment.ofText?).map Comment.fold := by
    cases trailer with
    | none => rfl
    | some comment => exact Comment.ofText?_fold comment
  simp only [Function.comp_apply, hnone, htrailer]
  split <;> rfl

end RecordField

namespace TypeDecl

/-- A declaration of a type with its texts in lower case. -/
def fold : TypeDecl → TypeDecl
  | enumeration name values => enumeration name.fold (values.map Ident.fold)
  | record name fields => record name.fold (fields.map RecordField.fold)
  | array name range element => array name.fold range.fold element.fold

/-- The comments of a declaration of a type. -/
def comments : TypeDecl → List Comment
  | record _ fields => fields.flatMap RecordField.comments
  | enumeration .. | array .. => []

theorem declaredName_fold (d : TypeDecl) : d.fold.declaredName = d.declaredName.fold := by
  cases d <;> rfl

theorem same_of_fold {a b : TypeDecl} (h : a.fold = b.fold) (hnone : a.comments = []) :
    a.same b = true := by
  cases a <;> cases b <;> simp only [fold, reduceCtorEq, enumeration.injEq, record.injEq,
    array.injEq] at h
  · simp [same, Ident.same_of_fold h.1, Ident.sameAll_of_fold h.2]
  · simp [same, Ident.same_of_fold h.1, sameAll_of_fold RecordField.fold RecordField.comments RecordField.sameAll rfl
      (fun _ _ _ _ => rfl) (fun _ _ => RecordField.same_of_fold) h.2 hnone]
  · simp [same, Ident.same_of_fold h.1, Range.same_of_fold _ _ h.2.1, TypeMark.same_of_fold h.2.2]

theorem enumeration?_fold (name : Ident) (values : List Ident) :
    enumeration? name.fold (values.map Ident.fold) = (enumeration? name values).map fold := by
  rw [enumeration?, enumeration?, List.isEmpty_map, Ident.distinct_fold]
  split <;> rfl

theorem record?_fold (name : Ident) (fields : List RecordField) :
    record? name.fold (fields.map RecordField.fold) = (record? name fields).map fold := by
  have hnames : (fields.map RecordField.fold).map (·.name) = (fields.map (·.name)).map Ident.fold := by
    rw [List.map_map, List.map_map]
    rfl
  rw [record?, record?, List.isEmpty_map, hnames, Ident.distinct_fold]
  split <;> rfl

theorem readEnumeration_fold (name : Ident) (t : Text) :
    readEnumeration name.fold (Text.fold t) = (readEnumeration name t).map fold := by
  have hname : ∀ value, Ident.ofText? (trim (Text.fold value))
      = (Ident.ofText? (trim value)).map Ident.fold := fun value => by
    rw [trim_fold, Ident.ofText?_fold]
  have hend : ∀ u : Text, (Text.fold u != [';']) = (u != [';']) := fun u => by
    rw [bne, bne, fold_beq_singleton (by decide)]
  rw [readEnumeration, readEnumeration, parenthesised?_fold]
  cases parenthesised? t with
  | none => rfl
  | some parts =>
    simp only [Option.map_some, Option.bind_eq_bind, Option.bind_some, Prod.map_fst, Prod.map_snd,
      trim_fold, hend, splitOuter_fold (k := ',') (by decide)]
    rw [mapM_map_of_comm hname]
    split
    · rfl
    · cases (splitOuter ',' parts.1).mapM fun value => Ident.ofText? (trim value) with
      | none => rfl
      | some values => exact enumeration?_fold name values

theorem readField_fold (room : Nat) (piece : Piece) :
    readField room piece.fold = (readField room piece).map (Option.map RecordField.fold) := by
  cases piece with
  | comment c => rfl
  | code code trailer =>
    simp only [Piece.fold, readField, RecordField.readWithTrailer_fold]
    cases RecordField.readWithTrailer room code trailer <;> rfl

theorem readRecord_fold (room : Nat) (name : Ident) (whole t : Text) :
    readRecord room name.fold (Text.fold whole) (Text.fold t)
      = (readRecord room name whole t).map fold := by
  have hend : ∀ u : Text,
      beforeEnd? ["record".toList] true (some (Text.fold name.text)) (Text.fold u)
        = (beforeEnd? ["record".toList] true (some name.text) u).map Text.fold := fun u =>
    beforeEnd?_fold ["record".toList] true (some name.text) u
  rw [readRecord, readRecord, isConstruct_fold, afterWord?_fold]
  split
  · rfl
  · cases afterWord? "record".toList t with
    | none => rfl
    | some body =>
      simp only [Option.map_some, Option.bind_eq_bind, Option.bind_some, Ident.text_fold, hend]
      cases beforeEnd? ["record".toList] true (some name.text) body with
      | none => rfl
      | some body =>
        simp only [Option.map_some, Option.bind_some, pieces?_fold]
        cases pieces? body with
        | none => rfl
        | some pieces =>
          simp only [Option.map_some, Option.bind_some, mapM_map_of_comm (readField_fold room)]
          cases pieces.mapM (readField room) with
          | none => rfl
          | some fields =>
            have hfields : (fields.map (Option.map RecordField.fold)).filterMap id
                = (fields.filterMap id).map RecordField.fold := by
              rw [List.filterMap_map, List.map_filterMap]
              rfl
            simp only [Option.map_some, Option.bind_some, hfields, record?_fold]

theorem readArray_fold (room : Nat) (name : Ident) (t : Text) :
    readArray room name.fold (Text.fold t) = (readArray room name t).map fold := by
  rw [readArray, readArray, afterWord?_fold]
  cases afterWord? "array".toList t with
  | none => rfl
  | some rest =>
    simp only [Option.map_some, Option.bind_eq_bind, Option.bind_some, parenthesised?_fold]
    cases parenthesised? rest with
    | none => rfl
    | some parts =>
      simp only [Option.map_some, Option.bind_some, Prod.map_fst, Prod.map_snd, afterWord?_fold]
      cases afterWord? "of".toList parts.2 with
      | none => rfl
      | some element =>
        simp only [Option.map_some, Option.bind_some, Range.read_fold,
          dropFinal?_fold (k := ';') (by decide)]
        cases Range.read room parts.1 with
        | none => rfl
        | some range =>
          cases dropFinal? ';' element with
          | none => rfl
          | some element =>
            simp only [Option.map_some, Option.bind_some, TypeMark.read_fold]
            cases TypeMark.read room element <;> rfl

theorem read_fold (room : Nat) (t : Text) : read room (Text.fold t) = (read room t).map fold := by
  simp only [read, trim_fold, fits_fold, afterWord?_fold]
  split
  · rfl
  · cases afterWord? "type".toList (trim t) with
    | none => rfl
    | some rest =>
      simp only [Option.map_some, Option.bind_eq_bind, Option.bind_some, splitAtWord?_fold]
      cases splitAtWord? "is".toList rest with
      | none => rfl
      | some parts =>
        simp only [Option.map_some, Option.bind_some, Prod.map_fst, Prod.map_snd, trim_fold,
          trimStart_fold, Ident.ofText?_fold, startsWith_fold, stripComments_fold,
          head?_beq_fold (k := '(') (by decide)]
        cases Ident.ofText? (trim parts.1) with
        | none => rfl
        | some name =>
          simp only [Option.map_some, Option.bind_some, readRecord_fold, readEnumeration_fold,
            readArray_fold]
          split
          · rfl
          · split <;> rfl

end TypeDecl

/-! ## Functions -/

namespace Parameter

/-- A parameter with its identifiers in lower case. -/
def fold (p : Parameter) : Parameter := ⟨p.name.fold, p.type.fold⟩

theorem sameAll_of_fold {ps qs : List Parameter} (h : ps.map fold = qs.map fold) :
    sameAll ps qs = true := by
  induction ps generalizing qs with
  | nil =>
    cases qs with
    | nil => rfl
    | cons q qs => cases h
  | cons p ps ih =>
    cases qs with
    | nil => cases h
    | cons q qs =>
      simp only [List.map_cons, List.cons.injEq, fold, mk.injEq] at h
      simp [sameAll, same, Ident.same_of_fold h.1.1, TypeMark.same_of_fold h.1.2, ih h.2]

theorem readMode_fold (t : Text) :
    (firstWord? (Text.fold t)).bind Mode.read = (firstWord? t).bind Mode.read := by
  rw [firstWord?_fold]
  cases firstWord? t with
  | none => rfl
  | some word => simp only [Option.map_some, Option.bind_some, Mode.read, trim_fold, sameWord_fold]

theorem afterMode?_fold (t : Text) : afterMode? (Text.fold t) = (afterMode? t).map Text.fold := by
  rw [afterMode?, afterMode?, readMode_fold]
  rcases (firstWord? t).bind Mode.read with _ | (_ | _ | _ | _ | _)
  · rfl
  · exact afterWord?_fold _ _
  all_goals rfl

theorem read_fold (room : Nat) (t : Text) : read room (Text.fold t) = (read room t).map fold := by
  have hconstant : (afterWord? "constant".toList (Text.fold t)).getD (Text.fold t)
      = Text.fold ((afterWord? "constant".toList t).getD t) := by
    rw [afterWord?_fold]
    cases afterWord? "constant".toList t <;> rfl
  simp only [read, hconstant, splitOnce_fold (k := ':') (by decide), Option.bind_eq_bind]
  cases splitOnce ':' ((afterWord? "constant".toList t).getD t) with
  | none => rfl
  | some parts =>
    simp only [Option.map_some, Option.bind_some, Prod.map_fst, Prod.map_snd, trimStart_fold,
      afterMode?_fold, trim_fold, Ident.ofText?_fold]
    cases afterMode? (trimStart parts.2) with
    | none => rfl
    | some type =>
      simp only [Option.map_some, Option.bind_some, TypeMark.read_fold]
      cases Ident.ofText? (trim parts.1) with
      | none => rfl
      | some name => cases TypeMark.read room type <;> rfl

end Parameter

namespace Signature

/-- A signature with its identifiers in lower case. -/
def fold (s : Signature) : Signature :=
  ⟨s.name.fold, s.parameters.map Parameter.fold, s.result.fold⟩

theorem same_of_fold {s t : Signature} (h : s.fold = t.fold) : s.same t = true := by
  simp only [fold, mk.injEq] at h
  simp [same, Ident.same_of_fold h.1, Parameter.sameAll_of_fold h.2.1, TypeMark.same_of_fold h.2.2]

theorem ofParameters?_fold (name : Ident) (parameters : List Parameter) (result : TypeMark) :
    ofParameters? name.fold (parameters.map Parameter.fold) result.fold
      = (ofParameters? name parameters result).map fold := by
  have hnames : (parameters.map Parameter.fold).map (·.name)
      = (parameters.map (·.name)).map Ident.fold := by
    rw [List.map_map, List.map_map]
    rfl
  rw [ofParameters?, ofParameters?, hnames, Ident.distinct_fold]
  split <;> rfl

theorem splitParameters?_fold (room : Nat) (t : Text) :
    splitParameters? room (Text.fold t)
      = (splitParameters? room t).map (Prod.map (List.map Parameter.fold) Text.fold) := by
  rw [splitParameters?, splitParameters?, head?_beq_fold (by decide), parenthesised?_fold]
  split
  · cases parenthesised? t with
    | none => rfl
    | some parts =>
      simp only [Option.map_some, Option.bind_eq_bind, Option.bind_some, Prod.map_fst, Prod.map_snd,
        splitOuter_fold (k := ';') (by decide), mapM_map_of_comm (Parameter.read_fold room)]
      cases (splitOuter ';' parts.1).mapM (Parameter.read room) <;> rfl
  · rfl

theorem readOpen_fold (room : Nat) (t : Text) :
    readOpen room (Text.fold t) = (readOpen room t).map fold := by
  have hend : ∀ c : Char, (!(isBlank c.toLower || c.toLower == '(')) = !(isBlank c || c == '(') :=
    fun c => by rw [isBlank_toLower, beq_toLower (by decide)]
  simp only [readOpen, afterWord?_fold, Option.bind_eq_bind]
  cases afterWord? "function".toList t with
  | none => rfl
  | some rest =>
    simp only [Option.map_some, Option.bind_some,
      takeWhile_fold (p := fun c => !(isBlank c || c == '(')) hend,
      dropWhile_fold (p := fun c => !(isBlank c || c == '(')) hend, Ident.ofText?_fold, trimStart_fold,
      splitParameters?_fold]
    cases Ident.ofText? (rest.takeWhile fun c => !(isBlank c || c == '(')) with
    | none => rfl
    | some name =>
      cases splitParameters? room (trimStart (rest.dropWhile fun c => !(isBlank c || c == '('))) with
      | none => rfl
      | some parts =>
        simp only [Option.map_some, Option.bind_some, Prod.map_fst, Prod.map_snd, afterWord?_fold]
        cases afterWord? "return".toList parts.2 with
        | none => rfl
        | some result =>
          simp only [Option.map_some, Option.bind_some, TypeMark.read_fold]
          cases TypeMark.read room result with
          | none => rfl
          | some result => exact ofParameters?_fold name parts.1 result

theorem read_fold (room : Nat) (t : Text) : read room (Text.fold t) = (read room t).map fold := by
  simp only [read, withoutComments_fold, trim_fold, fits_fold, dropFinal?_fold (k := ';') (by decide)]
  split
  · rfl
  · cases dropFinal? ';' (trim (withoutComments t)) with
    | none => rfl
    | some body => simp only [Option.map_some, Option.bind_some, trimEnd_fold, readOpen_fold]

end Signature

namespace FunctionBody

/-- A function with its texts in lower case. -/
def fold (f : FunctionBody) : FunctionBody :=
  ⟨f.signature.fold, f.declarations.map Statement.fold, f.body.fold⟩

/-- The comments of a function. -/
def comments (f : FunctionBody) : List Comment :=
  f.declarations.flatMap Statement.comments ++ f.body.comments

theorem same_of_fold {f g : FunctionBody} (h : f.fold = g.fold) (hnone : f.comments = []) :
    f.same g = true := by
  simp only [fold, mk.injEq] at h
  rw [comments, List.append_eq_nil_iff] at hnone
  simp [same, Signature.same_of_fold h.1, Statement.sameAll_of_fold h.2.1 hnone.1,
    Sequential.same_of_fold _ _ h.2.2 hnone.2]

theorem read_fold (room : Nat) (t : Text) : read room (Text.fold t) = (read room t).map fold := by
  have hend : ∀ (name : Ident) (u : Text),
      beforeEnd? ["function".toList] false (some (Text.fold name.text)) (Text.fold u)
        = (beforeEnd? ["function".toList] false (some name.text) u).map Text.fold := fun name u =>
    beforeEnd?_fold ["function".toList] false (some name.text) u
  simp only [read, trim_fold, fits_fold, isConstruct_fold]
  split
  · rfl
  · cases room with
    | zero => rfl
    | succ room =>
      simp only [cutOuter?_fold (by decide : IsKey "is".toList), Option.bind_eq_bind]
      cases cutOuter? "is".toList (trim t) with
      | none => rfl
      | some parts =>
        simp only [Option.map_some, Option.bind_some, Prod.map_fst, Prod.map_snd,
          withoutComments_fold, trim_fold, Signature.readOpen_fold]
        cases Signature.readOpen room (trim (withoutComments parts.1)) with
        | none => rfl
        | some signature =>
          simp only [Option.map_some, Option.bind_some, Signature.fold, Ident.text_fold, hend]
          cases beforeEnd? ["function".toList] false (some signature.name.text) parts.2 with
          | none => rfl
          | some inner =>
            simp only [Option.map_some, Option.bind_some, cutClause?_fold]
            cases cutClause? "begin".toList inner with
            | none => rfl
            | some regions =>
              simp only [Option.map_some, Option.bind_some, Prod.map_fst, Prod.map_snd,
                Statement.readDeclarations_fold, Sequential.read_fold]
              cases Statement.readDeclarations room regions.1 with
              | none => rfl
              | some declarations => cases Sequential.read room regions.2 <;> rfl

end FunctionBody

/-! ## Ports and generics -/

namespace ListEntry

/-- An entry with its texts in lower case. -/
def fold (e : ListEntry) : ListEntry :=
  ⟨Text.fold e.code, e.comment.map Comment.fold⟩

theorem lineComment_fold (t : Text) :
    lineComment (Text.fold t) = (lineComment t).map Comment.fold := by
  rw [lineComment, lineComment, takeWhile_bne_fold (by decide), Comment.ofLine?_fold]

theorem ofPieces?_fold (pieces : List Text) :
    ofPieces? (pieces.map Text.fold) = (ofPieces? pieces).map (List.map fold) := by
  induction pieces with
  | nil => rfl
  | cons piece pieces ih =>
    rw [List.map_cons]
    simp only [ofPieces?, maskComments_fold, trim_fold, isEmpty_fold, trimEnd_fold, byteLength_fold,
      position?_fold, drop_fold, lineComment_fold, ih]
    split
    · rfl
    · cases pieces with
      | nil => cases ofPieces? [] <;> rfl
      | cons next pieces =>
        simp only [List.map_cons, lineComment_fold]
        cases ofPieces? (next :: pieces) <;> rfl

theorem split?_fold (t : Text) : split? (Text.fold t) = (split? t).map (List.map fold) := by
  rw [split?, split?, splitOuter_fold (by decide), ofPieces?_fold]

theorem interior?_fold (keyword t : Text) :
    interior? keyword (Text.fold t) = (interior? keyword t).map Text.fold := by
  rw [interior?, interior?, afterWord?_fold]
  cases afterWord? keyword t with
  | none => rfl
  | some rest =>
    simp only [Option.map_some, Option.bind_eq_bind, Option.bind_some, parenthesised?_fold]
    cases parenthesised? rest with
    | none => rfl
    | some parts =>
      simp only [Option.map_some, Option.bind_some, Prod.map_fst, Prod.map_snd, trim_fold,
        fold_beq_singleton (k := ';') (by decide)]
      split <;> rfl

end ListEntry

namespace Port

/-- A port with its texts in lower case. -/
def fold (p : Port) : Port :=
  ⟨p.name.fold, p.mode, p.type.fold, p.default.map Expr.fold, p.comment.map Comment.fold⟩

/-- The comment of a port. -/
def comments (p : Port) : List Comment := p.comment.toList

theorem same_of_fold {p q : Port} (h : p.fold = q.fold) (hnone : p.comments = []) :
    p.same q = true := by
  simp only [fold, mk.injEq] at h
  obtain ⟨hp, hq⟩ := eq_none_of_fold h.2.2.2.2 hnone
  simp [same, Ident.same_of_fold h.1, h.2.1, TypeMark.same_of_fold h.2.2.1,
    sameExpr?_of_fold h.2.2.2.1, hp, hq]

theorem splitMode?_fold (t : Text) :
    splitMode? (Text.fold t) = (splitMode? t).map (Prod.map id Text.fold) := by
  rw [splitMode?, splitMode?, Parameter.readMode_fold]
  cases (firstWord? t).bind Mode.read with
  | none => rfl
  | some mode =>
    simp only [afterWord?_fold]
    cases afterWord? mode.text t <;> rfl

theorem readEntry_fold (room : Nat) (e : ListEntry) :
    readEntry room e.fold = (readEntry room e).map fold := by
  rw [readEntry, readEntry, ListEntry.fold, TypedName.splitName?_fold]
  cases TypedName.splitName? e.code with
  | none => rfl
  | some parts =>
    simp only [Option.map_some, Option.bind_eq_bind, Option.bind_some, Prod.map_fst, Prod.map_snd,
      trimStart_fold, splitMode?_fold]
    cases splitMode? (trimStart parts.2) with
    | none => rfl
    | some moded =>
      simp only [Option.map_some, Option.bind_some, Prod.map_fst, Prod.map_snd, id_eq,
        TypedName.readTyped_fold]
      cases TypedName.readTyped room parts.1 moded.2 <;> rfl

end Port

namespace Generic

/-- A generic with its texts in lower case. -/
def fold (g : Generic) : Generic :=
  ⟨g.name.fold, g.type.fold, g.default.map Expr.fold, g.comment.map Comment.fold⟩

/-- The comment of a generic. -/
def comments (g : Generic) : List Comment := g.comment.toList

theorem same_of_fold {g h : Generic} (hfold : g.fold = h.fold) (hnone : g.comments = []) :
    g.same h = true := by
  simp only [fold, mk.injEq] at hfold
  obtain ⟨hg, hh⟩ := eq_none_of_fold hfold.2.2.2 hnone
  simp [same, Ident.same_of_fold hfold.1, TypeMark.same_of_fold hfold.2.1,
    sameExpr?_of_fold hfold.2.2.1, hg, hh]

theorem readEntry_fold (room : Nat) (e : ListEntry) :
    readEntry room e.fold = (readEntry room e).map fold := by
  rw [readEntry, readEntry, ListEntry.fold, TypedName.splitName?_fold]
  cases TypedName.splitName? e.code with
  | none => rfl
  | some parts =>
    simp only [Option.map_some, Option.bind_eq_bind, Option.bind_some, Prod.map_fst, Prod.map_snd,
      trimStart_fold, TypedName.readTyped_fold]
    cases TypedName.readTyped room parts.1 (trimStart parts.2) <;> rfl

end Generic

namespace PortClause

/-- A port clause with its texts in lower case. -/
def fold (c : PortClause) : PortClause := ⟨c.ports.map Port.fold⟩

/-- The comments of a port clause. -/
def comments (c : PortClause) : List Comment := c.ports.flatMap Port.comments

theorem same_of_fold {c d : PortClause} (h : c.fold = d.fold) (hnone : c.comments = []) :
    c.same d = true :=
  sameAll_of_fold Port.fold Port.comments Port.sameAll rfl (fun _ _ _ _ => rfl) (fun _ _ => Port.same_of_fold)
    (congrArg ports h) hnone

theorem ofPorts?_fold (ports : List Port) :
    ofPorts? (ports.map Port.fold) = (ofPorts? ports).map fold := by
  have hnames : (ports.map Port.fold).map (·.name) = (ports.map (·.name)).map Ident.fold := by
    rw [List.map_map, List.map_map]
    rfl
  rw [ofPorts?, ofPorts?, List.isEmpty_map, hnames, Ident.distinct_fold]
  split <;> rfl

theorem read_fold (room : Nat) (t : Text) : read room (Text.fold t) = (read room t).map fold := by
  simp only [read, trim_fold, fits_fold, ListEntry.interior?_fold]
  split
  · rfl
  · cases ListEntry.interior? "port".toList (trim t) with
    | none => rfl
    | some inner =>
      simp only [Option.map_some, Option.bind_eq_bind, Option.bind_some, ListEntry.split?_fold]
      cases ListEntry.split? inner with
      | none => rfl
      | some entries =>
        simp only [Option.map_some, Option.bind_some, mapM_map_of_comm (Port.readEntry_fold room)]
        cases entries.mapM (Port.readEntry room) with
        | none => rfl
        | some ports => exact ofPorts?_fold ports

end PortClause

namespace GenericClause

/-- A generic clause with its texts in lower case. -/
def fold (c : GenericClause) : GenericClause := ⟨c.generics.map Generic.fold⟩

/-- The comments of a generic clause. -/
def comments (c : GenericClause) : List Comment := c.generics.flatMap Generic.comments

theorem same_of_fold {c d : GenericClause} (h : c.fold = d.fold) (hnone : c.comments = []) :
    c.same d = true :=
  sameAll_of_fold Generic.fold Generic.comments Generic.sameAll rfl (fun _ _ _ _ => rfl)
    (fun _ _ => Generic.same_of_fold) (congrArg generics h) hnone

theorem ofGenerics?_fold (generics : List Generic) :
    ofGenerics? (generics.map Generic.fold) = (ofGenerics? generics).map fold := by
  have hnames : (generics.map Generic.fold).map (·.name)
      = (generics.map (·.name)).map Ident.fold := by
    rw [List.map_map, List.map_map]
    rfl
  rw [ofGenerics?, ofGenerics?, List.isEmpty_map, hnames, Ident.distinct_fold]
  split <;> rfl

theorem read_fold (room : Nat) (t : Text) : read room (Text.fold t) = (read room t).map fold := by
  simp only [read, trim_fold, fits_fold, ListEntry.interior?_fold]
  split
  · rfl
  · cases ListEntry.interior? "generic".toList (trim t) with
    | none => rfl
    | some inner =>
      simp only [Option.map_some, Option.bind_eq_bind, Option.bind_some, ListEntry.split?_fold]
      cases ListEntry.split? inner with
      | none => rfl
      | some entries =>
        simp only [Option.map_some, Option.bind_some, mapM_map_of_comm (Generic.readEntry_fold room)]
        cases entries.mapM (Generic.readEntry room) with
        | none => rfl
        | some generics => exact ofGenerics?_fold generics

end GenericClause

/-! ## Entities and components -/

namespace Interface

/-- An interface with its texts in lower case. -/
def fold (u : Interface) : Interface :=
  ⟨u.name.fold, u.generics.map GenericClause.fold, u.ports.map PortClause.fold⟩

/-- The comments of an interface. -/
def comments (u : Interface) : List Comment :=
  u.generics.elim [] GenericClause.comments ++ u.ports.elim [] PortClause.comments

theorem same_of_fold {u v : Interface} (h : u.fold = v.fold) (hnone : u.comments = []) :
    u.same v = true := by
  obtain ⟨name, generics, ports⟩ := u
  obtain ⟨name', generics', ports'⟩ := v
  simp only [fold, mk.injEq] at h
  obtain ⟨hname, hgenerics, hports⟩ := h
  rw [comments, List.append_eq_nil_iff] at hnone
  rw [same, Ident.same_of_fold hname, Bool.true_and, Bool.and_eq_true]
  constructor
  · cases generics <;> cases generics' <;>
      simp only [Option.map_some, Option.map_none, reduceCtorEq, Option.some.injEq] at hgenerics
    · rfl
    · exact GenericClause.same_of_fold hgenerics hnone.1
  · cases ports <;> cases ports' <;>
      simp only [Option.map_some, Option.map_none, reduceCtorEq, Option.some.injEq] at hports
    · rfl
    · exact PortClause.same_of_fold hports hnone.2

theorem readClauses_fold (room : Nat) (generics : Option GenericClause) (ports : Option PortClause)
    (fuel : Nat) (t : Text) :
    readClauses room (generics.map GenericClause.fold) (ports.map PortClause.fold) fuel (Text.fold t)
      = (readClauses room generics ports fuel t).map
          (Prod.map (Option.map GenericClause.fold) (Option.map PortClause.fold)) := by
  induction fuel generalizing generics ports t with
  | zero => rfl
  | succ fuel ih =>
    have hrest : (skipTrivia ⟨0, none, Text.fold t⟩).rest
        = Text.fold (skipTrivia ⟨0, none, t⟩).rest :=
      congrArg Place.rest (skipTrivia_fold ⟨0, none, t⟩)
    have hg : (generics.map GenericClause.fold).isNone = generics.isNone := Option.isNone_map ..
    have hp : (ports.map PortClause.fold).isNone = ports.isNone := Option.isNone_map ..
    simp only [readClauses, hrest, isEmpty_fold, extent?_fold, take_fold, drop_fold, startsWith_fold,
      hg, hp, GenericClause.read_fold, PortClause.read_fold]
    split
    · rfl
    · cases extent? (skipTrivia ⟨0, none, t⟩).rest with
      | none => rfl
      | some n =>
        simp only [Option.bind_eq_bind, Option.bind_some]
        split
        · cases GenericClause.read room ((skipTrivia ⟨0, none, t⟩).rest.take n) with
          | none => rfl
          | some clause => exact ih (some clause) ports _
        · split
          · cases PortClause.read room ((skipTrivia ⟨0, none, t⟩).rest.take n) with
            | none => rfl
            | some clause => exact ih generics (some clause) _
          · rfl

theorem splitUnit?_fold (keyword : Text) (requireIs : Bool) (t : Text) :
    splitUnit? keyword requireIs (Text.fold t)
      = (splitUnit? keyword requireIs t).map (Prod.map Ident.fold Text.fold) := by
  have hstop : ∀ c : Char, (!(isBlank c.toLower || c.toLower == '-')) = !(isBlank c || c == '-') :=
    fun c => by rw [isBlank_toLower, beq_toLower (by decide)]
  have hend : ∀ (name : Ident) (u : Text),
      beforeEnd? [keyword] false (some (Text.fold name.text)) (Text.fold u)
        = (beforeEnd? [keyword] false (some name.text) u).map Text.fold := fun name u =>
    beforeEnd?_fold [keyword] false (some name.text) u
  have hunit : ∀ (name : Ident) (u : Text),
      ((beforeEnd? [keyword] false (some (Text.fold name.text)) (Text.fold u)).bind fun body =>
        some (name.fold, body))
      = ((beforeEnd? [keyword] false (some name.text) u).bind fun body => some (name, body)).map
          (Prod.map Ident.fold Text.fold) := fun name u => by
    rw [hend]
    cases beforeEnd? [keyword] false (some name.text) u <;> rfl
  simp only [splitUnit?, fits_fold, isConstruct_fold, afterWord?_fold, Option.bind_eq_bind]
  split
  · rfl
  · cases afterWord? keyword t with
    | none => rfl
    | some rest =>
      simp only [Option.map_some, Option.bind_some,
        takeWhile_fold (p := fun c => !(isBlank c || c == '-')) hstop,
        dropWhile_fold (p := fun c => !(isBlank c || c == '-')) hstop, Ident.ofText?_fold,
        trimStart_fold, afterWord?_fold]
      cases Ident.ofText? (rest.takeWhile fun c => !(isBlank c || c == '-')) with
      | none => rfl
      | some name =>
        simp only [Option.map_some, Option.bind_some, Ident.text_fold]
        cases afterWord? "is".toList (trimStart (rest.dropWhile fun c => !(isBlank c || c == '-'))) with
        | some after => exact hunit name after
        | none =>
          simp only [Option.map_none]
          split
          · rfl
          · exact hunit name _

theorem readAs_fold (room : Nat) (keyword : Text) (requireIs : Bool) (t : Text) :
    readAs room keyword requireIs (Text.fold t) = (readAs room keyword requireIs t).map fold := by
  rw [readAs, readAs, trim_fold, splitUnit?_fold]
  cases splitUnit? keyword requireIs (trim t) with
  | none => rfl
  | some parts =>
    have hclauses := readClauses_fold room none none (parts.2.length + 1) parts.2
    simp only [Option.map_none] at hclauses
    simp only [Option.map_some, Option.bind_eq_bind, Option.bind_some, Prod.map_fst, Prod.map_snd,
      length_fold, hclauses]
    cases readClauses room none none (parts.2.length + 1) parts.2 <;> rfl

end Interface
end CanonicalVhdl
