import CanonicalVhdl.Proofs.Case.Concurrent
import CanonicalVhdl.Proofs.Case.Interface
import CanonicalVhdl.Design.File

/-!
# Design files in either case

## Main definitions

* `Declaration.fold`, `Package.fold`, `PackageBody.fold`, `Architecture.fold`, `ContextClause.fold`,
  `DesignFile.fold` — trees with their texts in lower case.
* `DesignFile.comments` — the comments of a file: its header and those inside its units.

## Main statements

* `SourceUnit.split_fold` — a folded file is cut into the folded units.
* **`DesignFile.read_fold`** — reading a folded text gives the folded file.
* `DesignFile.same_of_fold` — files without comments and with the same folded form are equal up to
  the case of identifiers.
-/

namespace CanonicalVhdl

open Text

/-! ## Declarative parts -/

namespace Declaration

/-- An item with its texts in lower case. -/
def fold : Declaration → Declaration
  | object d => object d.fold
  | comment c => comment c.fold
  | type d => type d.fold
  | component c => component c.fold
  | signature s => signature s.fold
  | function f => function f.fold

/-- The comments of an item. -/
def comments : Declaration → List Comment
  | object d => d.comments
  | comment c => [c]
  | type d => d.comments
  | component c => c.comments
  | signature _ => []
  | function f => f.comments

theorem same_of_fold {a b : Declaration} (h : a.fold = b.fold) (hnone : a.comments = []) :
    a.same b = true := by
  cases a <;> cases b <;> simp only [fold, reduceCtorEq, object.injEq, type.injEq, component.injEq,
    signature.injEq, function.injEq] at h
  · exact ObjectDecl.same_of_fold h hnone
  · cases hnone
  · exact TypeDecl.same_of_fold h hnone
  · exact Interface.same_of_fold h hnone
  · exact Signature.same_of_fold h
  · exact FunctionBody.same_of_fold h hnone

theorem namesDistinct_fold (items : List Declaration) :
    namesDistinct (items.map fold) = namesDistinct items := by
  have hnames : (items.map fold).filterMap declaredName?
      = (items.filterMap declaredName?).map Ident.fold := by
    rw [List.filterMap_map, List.map_filterMap]
    congr 1
    funext item
    cases item with
    | type d => exact congrArg some (TypeDecl.declaredName_fold d)
    | _ => rfl
  rw [namesDistinct, namesDistinct, hnames, Ident.distinct_fold]

theorem isFunction_fold (item : Declaration) : item.fold.isFunction = item.isFunction := by
  cases item <;> rfl

theorem readItem_fold (room : Nat) (t : Text) :
    readItem room (Text.fold t) = (readItem room t).map fold := by
  rw [readItem, readItem, firstWord?_fold]
  cases firstWord? t with
  | none => rfl
  | some word =>
    simp only [Option.map_some, Option.bind_eq_bind, Option.bind_some, sameWord_fold,
      ObjectDecl.read_fold, TypeDecl.read_fold, Interface.readComponent, Interface.readAs_fold,
      FunctionBody.read_fold, Signature.read_fold]
    split
    · cases ObjectDecl.read room t <;> rfl
    · split
      · cases TypeDecl.read room t <;> rfl
      · split
        · cases Interface.readAs room "component".toList false t <;> rfl
        · split
          · cases FunctionBody.read room t with
            | some f => rfl
            | none => cases Signature.read room t <;> rfl
          · rfl

theorem readPiece_fold (room : Nat) (piece : Piece) :
    readPiece room piece.fold = (readPiece room piece).map (List.map fold) := by
  cases piece with
  | comment c =>
    simp only [Piece.fold, readPiece, Comment.ofText?_fold]
    cases Comment.ofText? c <;> rfl
  | code code trailer =>
    simp only [Piece.fold, readPiece, ObjectDecl.readWithTrailer_fold, readItem_fold]
    cases ObjectDecl.readWithTrailer room code trailer with
    | some d => rfl
    | none =>
      simp only [Option.map_none]
      cases readItem room code with
      | none => rfl
      | some item =>
        cases trailer with
        | none => rfl
        | some c =>
          simp only [Option.map_some, Option.bind_eq_bind, Option.bind_some, Comment.ofText?_fold]
          cases Comment.ofText? c <;> rfl

theorem readPart_fold (room : Nat) (t : Text) :
    readPart room (Text.fold t) = (readPart room t).map (List.map fold) := by
  rw [readPart, readPart, pieces?_fold]
  cases pieces? t with
  | none => rfl
  | some pieces =>
    simp only [Option.map_some, Option.bind_eq_bind, Option.bind_some,
      mapM_map_of_comm (readPiece_fold room)]
    cases pieces.mapM (readPiece room) with
    | none => rfl
    | some items =>
      simp only [Option.map_some, Option.bind_some]
      rw [List.map_flatten]

end Declaration

namespace DeclarativePart

/-- A declarative part with its texts in lower case. -/
def fold (p : DeclarativePart) : DeclarativePart := ⟨p.items.map Declaration.fold⟩

/-- The comments of a declarative part. -/
def comments (p : DeclarativePart) : List Comment := p.items.flatMap Declaration.comments

theorem same_of_fold {p q : DeclarativePart} (h : p.fold = q.fold) (hnone : p.comments = []) :
    p.same q = true :=
  sameAll_of_fold Declaration.fold Declaration.comments Declaration.sameAll rfl (fun _ _ _ _ => rfl)
    (fun _ _ => Declaration.same_of_fold) (congrArg items h) hnone

theorem read_fold (room : Nat) (t : Text) : read room (Text.fold t) = (read room t).map fold := by
  rw [read, read, fits_fold, Declaration.readPart_fold]
  split
  · rfl
  · cases Declaration.readPart room t with
    | none => rfl
    | some items =>
      simp only [Option.map_some, Option.bind_some, ofItems?, Declaration.namesDistinct_fold]
      split <;> rfl

end DeclarativePart

/-! ## Packages -/

theorem splitIdent?_fold (t : Text) :
    splitIdent? (Text.fold t) = (splitIdent? t).map (Prod.map Ident.fold Text.fold) := by
  simp only [splitIdent?, trimStart_fold, takeWhile_fold isIdentChar_toLower,
    dropWhile_fold isIdentChar_toLower, Ident.ofText?_fold]
  cases Ident.ofText? ((trimStart t).takeWhile isIdentChar) <;> rfl

namespace Package

/-- A package with its texts in lower case. -/
def fold (p : Package) : Package := ⟨p.name.fold, p.items.map Declaration.fold⟩

/-- The comments of a package. -/
def comments (p : Package) : List Comment := p.items.flatMap Declaration.comments

theorem same_of_fold {p q : Package} (h : p.fold = q.fold) (hnone : p.comments = []) :
    p.same q = true := by
  simp only [fold, mk.injEq] at h
  rw [same, Ident.same_of_fold h.1, sameAll_of_fold Declaration.fold Declaration.comments Declaration.sameAll rfl
    (fun _ _ _ _ => rfl) (fun _ _ => Declaration.same_of_fold) h.2 hnone, Bool.and_self]

theorem ofItems?_fold (name : Ident) (items : List Declaration) :
    ofItems? name.fold (items.map Declaration.fold) = (ofItems? name items).map fold := by
  have hany : (items.map Declaration.fold).any Declaration.isFunction
      = items.any Declaration.isFunction := by
    rw [List.any_map]
    exact congrArg items.any (funext Declaration.isFunction_fold)
  rw [ofItems?, ofItems?, hany, Declaration.namesDistinct_fold]
  split <;> rfl

theorem read_fold (room : Nat) (t : Text) : read room (Text.fold t) = (read room t).map fold := by
  have hend : ∀ (name : Ident) (u : Text),
      beforeEnd? ["package".toList] false (some (Text.fold name.text)) (Text.fold u)
        = (beforeEnd? ["package".toList] false (some name.text) u).map Text.fold := fun name u =>
    beforeEnd?_fold ["package".toList] false (some name.text) u
  simp only [read, trim_fold, fits_fold, isConstruct_fold, afterWord?_fold, Option.bind_eq_bind]
  split
  · rfl
  · cases afterWord? "package".toList (trim t) with
    | none => rfl
    | some rest =>
      simp only [Option.map_some, Option.bind_some, splitIdent?_fold]
      cases splitIdent? rest with
      | none => rfl
      | some parts =>
        simp only [Option.map_some, Option.bind_some, Prod.map_fst, Prod.map_snd, afterWord?_fold]
        cases afterWord? "is".toList parts.2 with
        | none => rfl
        | some rest =>
          simp only [Option.map_some, Option.bind_some, Ident.text_fold, hend]
          cases beforeEnd? ["package".toList] false (some parts.1.text) rest with
          | none => rfl
          | some body =>
            simp only [Option.map_some, Option.bind_some, Declaration.readPart_fold]
            cases Declaration.readPart room body with
            | none => rfl
            | some items => exact ofItems?_fold parts.1 items

end Package

/-! ## Package bodies -/

namespace BodyItem

mutual

/-- The contents of a package body with their texts in lower case. -/
def fold : BodyItem → BodyItem
  | function f => function f.fold
  | object d => object d.fold
  | type d => type d.fold
  | comment c => comment c.fold
  | items is => items (foldAll is)
termination_by structural x => x

/-- A list of items with their texts in lower case. -/
def foldAll : List BodyItem → List BodyItem
  | [] => []
  | i :: is => i.fold :: foldAll is
termination_by structural x => x

end

mutual

/-- The comments in the contents of a package body. -/
def comments : BodyItem → List Comment
  | function f => f.comments
  | object d => d.comments
  | type d => d.comments
  | comment c => [c]
  | items is => commentsAll is
termination_by structural x => x

/-- The comments of a list of items. -/
def commentsAll : List BodyItem → List Comment
  | [] => []
  | i :: is => i.comments ++ commentsAll is
termination_by structural x => x

end

theorem foldAll_eq_map (is : List BodyItem) : foldAll is = is.map fold := by
  induction is with
  | nil => rfl
  | cons i is ih => rw [foldAll, ih, List.map_cons]

mutual

theorem same_of_fold : ∀ a b : BodyItem, a.fold = b.fold → a.comments = [] → a.same b = true
  | function f, b, h, hnone => by
    cases b <;> simp only [fold, reduceCtorEq, function.injEq] at h
    exact FunctionBody.same_of_fold h hnone
  | object d, b, h, hnone => by
    cases b <;> simp only [fold, reduceCtorEq, object.injEq] at h
    exact ObjectDecl.same_of_fold h hnone
  | type d, b, h, hnone => by
    cases b <;> simp only [fold, reduceCtorEq, type.injEq] at h
    exact TypeDecl.same_of_fold h hnone
  | comment c, b, _, hnone => by cases hnone
  | items is, b, h, hnone => by
    cases b <;> simp only [fold, reduceCtorEq, items.injEq] at h
    exact sameAll_of_fold is _ h hnone
termination_by structural x => x

theorem sameAll_of_fold : ∀ as bs : List BodyItem,
    foldAll as = foldAll bs → commentsAll as = [] → sameAll as bs = true
  | [], bs, h, _ => by
    cases bs with
    | nil => rfl
    | cons b bs => cases h
  | a :: as, bs, h, hnone => by
    cases bs with
    | nil => cases h
    | cons b bs =>
      simp only [foldAll, List.cons.injEq] at h
      rw [commentsAll, List.append_eq_nil_iff] at hnone
      simp [sameAll, same_of_fold a b h.1 hnone.1, sameAll_of_fold as bs h.2 hnone.2]
termination_by structural x => x

end

theorem fold_ofElements (is : List BodyItem) : (ofElements is).fold = ofElements (is.map fold) := by
  rcases is with _ | ⟨a, _ | ⟨b, is⟩⟩
  · rfl
  · rfl
  · simp [ofElements, fold, foldAll_eq_map]

theorem readItem_fold (room : Nat) (t : Text) :
    readItem room (Text.fold t) = (readItem room t).map fold := by
  simp only [readItem, startsWith_fold, FunctionBody.read_fold, TypeDecl.read_fold,
    ObjectDecl.read_fold]
  split
  · cases FunctionBody.read room t <;> rfl
  · split
    · cases TypeDecl.read room t <;> rfl
    · cases ObjectDecl.read room t <;> rfl

theorem readPiece_fold (room : Nat) (piece : Piece) :
    readPiece room piece.fold = (readPiece room piece).map (List.map fold) := by
  cases piece with
  | comment c =>
    simp only [Piece.fold, readPiece, Comment.ofText?_fold]
    cases Comment.ofText? c <;> rfl
  | code code trailer =>
    simp only [Piece.fold, readPiece, ObjectDecl.readWithTrailer_fold, readItem_fold]
    cases ObjectDecl.readWithTrailer room code trailer with
    | some d => rfl
    | none =>
      simp only [Option.map_none]
      cases readItem room code with
      | none => rfl
      | some item =>
        cases trailer with
        | none => rfl
        | some c =>
          simp only [Option.map_some, Option.bind_eq_bind, Option.bind_some, Comment.ofText?_fold]
          cases Comment.ofText? c <;> rfl

theorem read_fold (room : Nat) (t : Text) : read room (Text.fold t) = (read room t).map fold := by
  simp only [read, fits_fold, pieces?_fold]
  split
  · rfl
  · cases room with
    | zero => rfl
    | succ room =>
      simp only
      cases pieces? t with
      | none => rfl
      | some pieces =>
        simp only [Option.map_some, Option.bind_eq_bind, Option.bind_some,
          mapM_map_of_comm (readPiece_fold room)]
        cases pieces.mapM (readPiece room) with
        | none => rfl
        | some elements =>
          simp only [Option.map_some, Option.bind_some]
          rw [fold_ofElements, List.map_flatten]

end BodyItem

namespace PackageBody

/-- A package body with its texts in lower case. -/
def fold (b : PackageBody) : PackageBody := ⟨b.name.fold, b.body.fold⟩

/-- The comments of a package body. -/
def comments (b : PackageBody) : List Comment := b.body.comments

theorem same_of_fold {b c : PackageBody} (h : b.fold = c.fold) (hnone : b.comments = []) :
    b.same c = true := by
  simp only [fold, mk.injEq] at h
  rw [same, Ident.same_of_fold h.1, BodyItem.same_of_fold _ _ h.2 hnone, Bool.and_self]

theorem read_fold (room : Nat) (t : Text) : read room (Text.fold t) = (read room t).map fold := by
  have hend : ∀ (name : Ident) (u : Text),
      beforeEnd? ["package".toList, "body".toList] false (some (Text.fold name.text)) (Text.fold u)
        = (beforeEnd? ["package".toList, "body".toList] false (some name.text) u).map Text.fold :=
    fun name u => beforeEnd?_fold ["package".toList, "body".toList] false (some name.text) u
  simp only [read, trim_fold, fits_fold, isConstruct_fold, afterWords?_fold, Option.bind_eq_bind]
  split
  · rfl
  · cases afterWords? ["package".toList, "body".toList] (trim t) with
    | none => rfl
    | some rest =>
      simp only [Option.map_some, Option.bind_some, splitIdent?_fold]
      cases splitIdent? rest with
      | none => rfl
      | some parts =>
        simp only [Option.map_some, Option.bind_some, Prod.map_fst, Prod.map_snd, afterWord?_fold]
        cases afterWord? "is".toList parts.2 with
        | none => rfl
        | some rest =>
          simp only [Option.map_some, Option.bind_some, Ident.text_fold, hend]
          cases beforeEnd? ["package".toList, "body".toList] false (some parts.1.text) rest with
          | none => rfl
          | some inner =>
            simp only [Option.map_some, Option.bind_some, BodyItem.read_fold]
            cases BodyItem.read room inner <;> rfl

end PackageBody

/-! ## Architectures -/

namespace Architecture

/-- An architecture with its texts in lower case. -/
def fold (a : Architecture) : Architecture :=
  ⟨a.name.fold, a.entity.fold, a.head.fold, a.body.fold⟩

/-- The comments of an architecture. -/
def comments (a : Architecture) : List Comment := a.head.comments ++ a.body.comments

theorem same_of_fold {a b : Architecture} (h : a.fold = b.fold) (hnone : a.comments = []) :
    a.same b = true := by
  simp only [fold, mk.injEq] at h
  rw [comments, List.append_eq_nil_iff] at hnone
  simp [same, Ident.same_of_fold h.1, Ident.same_of_fold h.2.1,
    DeclarativePart.same_of_fold h.2.2.1 hnone.1, Concurrent.same_of_fold _ _ h.2.2.2 hnone.2]

theorem read_fold (room : Nat) (t : Text) : read room (Text.fold t) = (read room t).map fold := by
  have hend : ∀ (name : Ident) (u : Text),
      beforeEnd? ["architecture".toList] false (some (Text.fold name.text)) (Text.fold u)
        = (beforeEnd? ["architecture".toList] false (some name.text) u).map Text.fold := fun name u =>
    beforeEnd?_fold ["architecture".toList] false (some name.text) u
  simp only [read, trim_fold, fits_fold, isConstruct_fold]
  split
  · rfl
  · cases room with
    | zero => rfl
    | succ room =>
      simp only [afterWord?_fold, Option.bind_eq_bind]
      cases afterWord? "architecture".toList (trim t) with
      | none => rfl
      | some rest =>
        simp only [Option.map_some, Option.bind_some, splitIdent?_fold]
        cases splitIdent? rest with
        | none => rfl
        | some named =>
          simp only [Option.map_some, Option.bind_some, Prod.map_fst, Prod.map_snd, afterWord?_fold]
          cases afterWord? "of".toList named.2 with
          | none => rfl
          | some rest =>
            simp only [Option.map_some, Option.bind_some, splitIdent?_fold]
            cases splitIdent? rest with
            | none => rfl
            | some owned =>
              simp only [Option.map_some, Option.bind_some, Prod.map_fst, Prod.map_snd,
                afterWord?_fold]
              cases afterWord? "is".toList owned.2 with
              | none => rfl
              | some rest =>
                simp only [Option.map_some, Option.bind_some, Ident.text_fold, hend]
                cases beforeEnd? ["architecture".toList] false (some named.1.text) rest with
                | none => rfl
                | some inner =>
                  simp only [Option.map_some, Option.bind_some, cutClause?_fold]
                  cases cutClause? "begin".toList inner with
                  | none => rfl
                  | some regions =>
                    simp only [Option.map_some, Option.bind_some, Prod.map_fst, Prod.map_snd,
                      DeclarativePart.read_fold, Concurrent.read_fold]
                    cases DeclarativePart.read room regions.1 with
                    | none => rfl
                    | some head => cases Concurrent.read room regions.2 <;> rfl

end Architecture

/-! ## Context clauses -/

namespace ContextClause

/-- A context clause with its identifiers in lower case. -/
def fold : ContextClause → ContextClause
  | library name => library name.fold
  | use path all => use (path.map Ident.fold) all

theorem same_of_fold {a b : ContextClause} (h : a.fold = b.fold) : a.same b = true := by
  cases a <;> cases b <;> simp only [fold, reduceCtorEq, library.injEq, use.injEq] at h
  · exact Ident.same_of_fold h
  · simp [same, Ident.sameAll_of_fold h.1, h.2]

theorem readUse_fold (t : Text) : readUse (Text.fold t) = (readUse t).map fold := by
  have hsegments : (splitOn '.' (Text.fold t)).map trim = ((splitOn '.' t).map trim).map Text.fold := by
    rw [splitOn_fold (by decide), List.map_map, List.map_map]
    exact List.map_congr_left fun u _ => trim_fold u
  have hall : ∀ segments : List Text,
      (segments.map Text.fold).getLast?.any (fun s => sameWord s "all".toList)
        = segments.getLast?.any fun s => sameWord s "all".toList := fun segments => by
    rw [List.getLast?_map, Option.any_map]
    congr 1
    funext s
    exact sameWord_fold s _
  simp only [readUse, hsegments, hall, ← List.map_dropLast, ← apply_ite (List.map Text.fold),
    mapM_map_of_comm Ident.ofText?_fold]
  generalize ((splitOn '.' t).map trim).getLast?.any (fun s => sameWord s "all".toList) = all
  generalize List.mapM (m := Option) Ident.ofText? _ = path
  cases path with
  | none => rfl
  | some path =>
    simp only [Option.map_some, Option.bind_eq_bind, Option.bind_some, List.length_map]
    split <;> rfl

theorem read_fold (t : Text) : read (Text.fold t) = (read t).map fold := by
  simp only [read, withoutComments_fold, trim_fold, fits_fold, dropFinal?_fold (k := ';') (by decide),
    Option.bind_eq_bind]
  split
  · rfl
  · cases dropFinal? ';' (trim (withoutComments t)) with
    | none => rfl
    | some body =>
      simp only [Option.map_some, Option.bind_some, trimEnd_fold, afterWord?_fold]
      cases afterWord? "library".toList (trimEnd body) with
      | some name =>
        simp only [Option.map_some, Ident.ofText?_fold]
        cases Ident.ofText? name <;> rfl
      | none =>
        simp only [Option.map_none]
        cases afterWord? "use".toList (trimEnd body) with
        | none => rfl
        | some path => exact readUse_fold path

end ContextClause

/-! ## Units -/

namespace SourceUnit

/-- A unit with its text in lower case. -/
def fold (u : SourceUnit) : SourceUnit := ⟨u.kind, u.start, Text.fold u.text⟩

theorem kind_ofText_fold (t : Text) : UnitKind.ofText (Text.fold t) = UnitKind.ofText t := by
  simp only [UnitKind.ofText, isPrefixOf_fold (by decide : ("--".toList).all (!·.isAlpha) = true),
    startsWith_fold, afterWords?_fold, Option.isSome_map]

theorem lengthAt_fold (t : Text) : lengthAt (Text.fold t) = lengthAt t := by
  have hat := Lexeme.at_fold none t
  rw [Option.map_none] at hat
  simp only [lengthAt, hat, extent?_fold, length_fold]

theorem splitFrom_fold (found : List SourceUnit) (start fuel : Nat) (t : Text) :
    splitFrom (found.map fold) start fuel (Text.fold t)
      = (splitFrom found start fuel t).map fold := by
  induction fuel generalizing found start t with
  | zero => exact List.map_reverse.symm
  | succ fuel ih =>
    simp only [splitFrom, dropWhile_fold isAsciiBlank_toLower, takeWhile_fold isAsciiBlank_toLower,
      isEmpty_fold, byteLength_fold, lengthAt_fold, take_fold, drop_fold, kind_ofText_fold]
    split
    · exact List.map_reverse.symm
    · rw [← ih]
      simp [fold, stop]

/-- A folded file is cut into the folded units. -/
theorem split_fold (t : Text) : split (Text.fold t) = (split t).map fold := by
  rw [split, split, length_fold]
  exact splitFrom_fold [] 0 (t.length + 1) t

theorem kept_fold (units : List SourceUnit) : kept (units.map fold) = (kept units).map fold := by
  rw [kept, kept, List.takeWhile_map, List.dropWhile_map, List.filter_map, List.map_append]
  rfl

end SourceUnit

namespace DesignUnit

/-- A unit with its texts in lower case. -/
def fold : DesignUnit → DesignUnit
  | comment c => comment c.fold
  | context c => context c.fold
  | package p => package p.fold
  | packageBody b => packageBody b.fold
  | entity e => entity e.fold
  | architecture a => architecture a.fold

theorem read_fold (room : Nat) (u : SourceUnit) : read room u.fold = (read room u).map fold := by
  obtain ⟨kind, start, t⟩ := u
  cases kind with
  | comment =>
    simp only [read, SourceUnit.fold, Comment.read_fold]
    cases Comment.read t <;> rfl
  | context =>
    simp only [read, SourceUnit.fold, ContextClause.read_fold]
    cases ContextClause.read t <;> rfl
  | entity =>
    simp only [read, SourceUnit.fold, Interface.readEntity, Interface.readAs_fold]
    cases Interface.readAs room "entity".toList true t <;> rfl
  | architecture =>
    simp only [read, SourceUnit.fold, Architecture.read_fold]
    cases Architecture.read room t <;> rfl
  | package =>
    simp only [read, SourceUnit.fold, Package.read_fold]
    cases Package.read room t <;> rfl
  | packageBody =>
    simp only [read, SourceUnit.fold, PackageBody.read_fold]
    cases PackageBody.read room t <;> rfl
  | unknown => rfl

end DesignUnit

/-! ## Files -/

namespace DesignFile

/-- A file with its texts in lower case. -/
def fold (f : DesignFile) : DesignFile where
  header := f.header.map Comment.fold
  context := f.context.map ContextClause.fold
  packages := f.packages.map Package.fold
  packageBodies := f.packageBodies.map PackageBody.fold
  entities := f.entities.map Interface.fold
  architectures := f.architectures.map Architecture.fold

/-- The comments of a file: its header, and those inside its units. -/
def comments (f : DesignFile) : List Comment :=
  f.header ++ f.packages.flatMap Package.comments ++ f.packageBodies.flatMap PackageBody.comments
    ++ f.entities.flatMap Interface.comments ++ f.architectures.flatMap Architecture.comments

/-- The units of one kind among folded units. -/
theorem filterMap_fold {α : Type} {kind? : DesignUnit → Option α} {g : α → α}
    (h : ∀ u : DesignUnit, kind? u.fold = (kind? u).map g) (units : List DesignUnit) :
    (units.map DesignUnit.fold).filterMap kind? = (units.filterMap kind?).map g := by
  rw [List.filterMap_map, List.map_filterMap]
  exact congrArg (List.filterMap · units) (funext h)

theorem ofUnits_fold (units : List DesignUnit) :
    ofUnits (units.map DesignUnit.fold) = (ofUnits units).fold := by
  rw [ofUnits, filterMap_fold (g := Comment.fold) fun u => by cases u <;> rfl,
    filterMap_fold (g := ContextClause.fold) fun u => by cases u <;> rfl,
    filterMap_fold (g := Package.fold) fun u => by cases u <;> rfl,
    filterMap_fold (g := PackageBody.fold) fun u => by cases u <;> rfl,
    filterMap_fold (g := Interface.fold) fun u => by cases u <;> rfl,
    filterMap_fold (g := Architecture.fold) fun u => by cases u <;> rfl]
  rfl

/-- **Files are read in either case**: the folded text as the folded file. -/
theorem read_fold (room : Nat) (t : Text) : read room (Text.fold t) = (read room t).map fold := by
  rw [read, read, fits_fold, SourceUnit.split_fold, SourceUnit.kept_fold,
    mapM_map_of_comm (DesignUnit.read_fold room)]
  split
  · rfl
  · cases (SourceUnit.kept (SourceUnit.split t)).mapM (DesignUnit.read room) with
    | none => rfl
    | some units => exact congrArg some (ofUnits_fold units)

theorem same_of_fold {f g : DesignFile} (h : f.fold = g.fold) (hnone : f.comments = []) :
    f.same g = true := by
  simp only [fold, mk.injEq] at h
  obtain ⟨hheader, hcontext, hpackages, hbodies, hentities, harchitectures⟩ := h
  simp only [comments, List.append_eq_nil_iff] at hnone
  obtain ⟨⟨⟨⟨hf, hp⟩, hb⟩, he⟩, ha⟩ := hnone
  have hg : g.header = [] := by simpa [hf, eq_comm] using hheader
  have hcontextAll : ContextClause.sameAll f.context g.context = true :=
    sameAll_of_fold ContextClause.fold (fun _ => []) ContextClause.sameAll rfl (fun _ _ _ _ => rfl)
      (fun _ _ h _ => ContextClause.same_of_fold h) hcontext (by simp)
  have hpackagesAll : Package.sameAll f.packages g.packages = true :=
    sameAll_of_fold Package.fold Package.comments Package.sameAll rfl (fun _ _ _ _ => rfl)
      (fun _ _ => Package.same_of_fold) hpackages hp
  have hbodiesAll : PackageBody.sameAll f.packageBodies g.packageBodies = true :=
    sameAll_of_fold PackageBody.fold PackageBody.comments PackageBody.sameAll rfl (fun _ _ _ _ => rfl)
      (fun _ _ => PackageBody.same_of_fold) hbodies hb
  have hentitiesAll : Interface.sameAll f.entities g.entities = true :=
    sameAll_of_fold Interface.fold Interface.comments Interface.sameAll rfl (fun _ _ _ _ => rfl)
      (fun _ _ => Interface.same_of_fold) hentities he
  have harchitecturesAll : Architecture.sameAll f.architectures g.architectures = true :=
    sameAll_of_fold Architecture.fold Architecture.comments Architecture.sameAll rfl (fun _ _ _ _ => rfl)
      (fun _ _ => Architecture.same_of_fold) harchitectures ha
  simp [same, hf, hg, hcontextAll, hpackagesAll, hbodiesAll, hentitiesAll, harchitecturesAll]

end DesignFile
end CanonicalVhdl
