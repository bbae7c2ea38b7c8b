import CanonicalVhdl.Proofs.Case.Sequential
import CanonicalVhdl.Concurrent.Read

/-!
# Concurrent code in either case

## Main definitions

* `Waveform.fold`, `ProcessStatement.fold`, `Instance.fold`, `Concurrent.fold` — trees with their
  texts in lower case.
* `ProcessStatement.comments`, `Concurrent.comments` — the comments of a tree, in order.

## Main statements

* `Concurrent.same_of_fold` — trees without comments and with the same folded form.
* `ProcessStatement.read_fold`, `Instance.read_fold` — processes and instances.
* **`Concurrent.read_fold`** — reading a folded text gives the folded tree.
-/

namespace CanonicalVhdl

open Text

/-! ## Assignments -/

namespace ConditionalWaveform

/-- A chain with its identifiers in lower case. -/
def fold : ConditionalWaveform → ConditionalWaveform
  | value e => value e.fold
  | choose v c rest => choose v.fold c.fold rest.fold

theorem same_of_fold {a b : ConditionalWaveform} (h : a.fold = b.fold) : a.same b = true := by
  induction a generalizing b with
  | value e =>
    cases b <;> simp only [fold, reduceCtorEq, value.injEq] at h
    exact Expr.same_of_fold e _ h
  | choose v c rest ih =>
    cases b <;> simp only [fold, reduceCtorEq, choose.injEq] at h
    simp [same, Expr.same_of_fold v _ h.1, Expr.same_of_fold c _ h.2.1, ih h.2.2]

theorem keywords_fold (t : Text) : keywords (Text.fold t) = keywords t := by
  rw [keywords, keywords, outerPoints_fold, List.filterMap_map]
  congr 1
  funext p
  simp only [Function.comp_apply, matchesAt_fold (by decide : IsKey "when".toList),
    matchesAt_fold (by decide : IsKey "else".toList), CodePoint.position_fold]

theorem segments_fold (start : Nat) (t : Text) (cuts : List Nat) :
    segments start (Text.fold t) cuts = (segments start t cuts).map Text.fold := by
  induction cuts generalizing start t with
  | nil => rfl
  | cons i cuts ih => simp only [segments, List.map_cons, take_fold, drop_fold, ih]

theorem readParts_fold (room : Nat) (parts : List Text) :
    readParts room (parts.map Text.fold) = (readParts room parts).map fold := by
  induction parts using readParts.induct with
  | case1 => rfl
  | case2 last =>
    simp only [List.map_cons, List.map_nil, readParts, Expr.read_fold]
    cases Expr.read room last <;> rfl
  | case3 v c rest ih =>
    simp only [List.map_cons, readParts, Expr.read_fold, ih]
    cases Expr.read room v with
    | none => rfl
    | some value =>
      cases Expr.read room c with
      | none => rfl
      | some condition => cases readParts room rest <;> rfl

theorem read_fold (room : Nat) (t : Text) : read room (Text.fold t) = (read room t).map fold := by
  simp only [read, withoutComments_fold, trim_fold, fits_fold, keywords_fold, segments_fold,
    readParts_fold]
  split <;> rfl

end ConditionalWaveform

namespace Waveform

/-- A waveform with its identifiers in lower case. -/
def fold : Waveform → Waveform
  | plain e => plain e.fold
  | conditional chain => conditional chain.fold

theorem same_of_fold {a b : Waveform} (h : a.fold = b.fold) : a.same b = true := by
  cases a <;> cases b <;> simp only [fold, reduceCtorEq, plain.injEq, conditional.injEq] at h
  · exact Expr.same_of_fold _ _ h
  · exact ConditionalWaveform.same_of_fold h

theorem read_fold (room : Nat) (t : Text) : read room (Text.fold t) = (read room t).map fold := by
  rw [read, read, ConditionalWaveform.read_fold]
  rcases ConditionalWaveform.read room t with _ | (_ | _) <;> rfl

end Waveform

namespace ConcurrentStatement

/-- A simple statement with its identifiers and its comment in lower case. -/
def fold : ConcurrentStatement → ConcurrentStatement
  | assignment target value => assignment target.fold value.fold
  | comment c => comment c.fold

/-- The comments of a simple statement. -/
def comments : ConcurrentStatement → List Comment
  | assignment .. => []
  | comment c => [c]

theorem same_of_fold {a b : ConcurrentStatement} (h : a.fold = b.fold) (hnone : a.comments = []) :
    a.same b = true := by
  cases a <;> cases b <;> simp only [fold, reduceCtorEq, assignment.injEq] at h
  · simp [same, Reference.same_of_fold _ _ h.1, Waveform.same_of_fold h.2]
  · cases hnone

theorem read_fold (room : Nat) (t : Text) : read room (Text.fold t) = (read room t).map fold := by
  simp only [read, trim_fold, fits_fold, Comment.read_fold, withoutComments_fold, isConstruct_fold,
    dropFinal?_fold (k := ';') (by decide)]
  split
  · rfl
  · cases Comment.read (trim t) with
    | some c => rfl
    | none =>
      simp only [Option.map_none]
      split
      · rfl
      · cases dropFinal? ';' (withoutComments (trim t)) with
        | none => rfl
        | some body =>
          simp only [Option.map_some, Option.bind_eq_bind, Option.bind_some,
            cutOuter?_fold (by decide : IsKey "<=".toList)]
          cases cutOuter? "<=".toList body with
          | none => rfl
          | some parts =>
            simp only [Option.map_some, Option.bind_some, Prod.map_fst, Prod.map_snd,
              Reference.read_fold, Waveform.read_fold]
            cases Reference.read room parts.1 with
            | none => rfl
            | some target => cases Waveform.read room parts.2 <;> rfl

end ConcurrentStatement

/-! ## Processes -/

namespace ProcessStatement

/-- A process with its identifiers and its comments in lower case. -/
def fold (p : ProcessStatement) : ProcessStatement :=
  ⟨p.label.map Ident.fold, p.sensitivity.map Ident.fold, p.declarations.map Statement.fold,
    p.body.fold⟩

/-- The comments of a process. -/
def comments (p : ProcessStatement) : List Comment :=
  p.declarations.flatMap Statement.comments ++ p.body.comments

theorem same_of_fold {p q : ProcessStatement} (h : p.fold = q.fold) (hnone : p.comments = []) :
    p.same q = true := by
  simp only [fold, mk.injEq] at h
  obtain ⟨hlabel, hsensitivity, hdeclarations, hbody⟩ := h
  rw [comments, List.append_eq_nil_iff] at hnone
  simp [same, Ident.sameIdent?_of_fold hlabel, Ident.sameAll_of_fold hsensitivity,
    Statement.sameAll_of_fold hdeclarations hnone.1, Sequential.same_of_fold _ _ hbody hnone.2]

theorem readSensitivity_fold (t : Text) :
    readSensitivity (Text.fold t) = (readSensitivity t).map (List.map Ident.fold) := by
  have hname : ∀ name, Ident.ofText? (trim (Text.fold name))
      = (Ident.ofText? (trim name)).map Ident.fold := fun name => by
    rw [trim_fold, Ident.ofText?_fold]
  rw [readSensitivity, readSensitivity, splitOuter_fold (by decide), mapM_map_of_comm hname]
  cases (splitOuter ',' t).mapM fun name => Ident.ofText? (trim name) with
  | none => rfl
  | some names =>
    simp only [Option.map_some, Option.bind_eq_bind, Option.bind_some, Ident.distinct_fold]
    split <;> rfl

theorem splitSensitivity?_fold (t : Text) :
    splitSensitivity? (Text.fold t)
      = (splitSensitivity? t).map (Prod.map (List.map Ident.fold) Text.fold) := by
  rw [splitSensitivity?, splitSensitivity?, head?_beq_fold (by decide), parenthesised?_fold]
  split
  · cases parenthesised? t with
    | none => rfl
    | some parts =>
      simp only [Option.map_some, Option.bind_eq_bind, Option.bind_some, Prod.map_fst, Prod.map_snd,
        readSensitivity_fold, trimStart_fold]
      cases readSensitivity parts.1 <;> rfl
  · rfl

theorem readLabelled_fold (room : Nat) (label : Option Ident) (t : Text) :
    readLabelled room (label.map Ident.fold) (Text.fold t)
      = (readLabelled room label t).map fold := by
  have hlabel : (label.map Ident.fold).map (·.text) = (label.map (·.text)).map Text.fold := by
    cases label <;> rfl
  have his : ∀ u, (afterWord? "is".toList (Text.fold u)).getD (Text.fold u)
      = Text.fold ((afterWord? "is".toList u).getD u) := fun u => by
    rw [afterWord?_fold]
    cases afterWord? "is".toList u <;> rfl
  rw [readLabelled, readLabelled, afterWord?_fold, hlabel]
  cases afterWord? "process".toList t with
  | none => rfl
  | some rest =>
    simp only [Option.map_some, Option.bind_eq_bind, Option.bind_some, beforeEnd?_fold]
    cases beforeEnd? ["process".toList] true (label.map (·.text)) rest with
    | none => rfl
    | some rest =>
      simp only [Option.map_some, Option.bind_some, splitSensitivity?_fold]
      cases splitSensitivity? rest with
      | none => rfl
      | some parts =>
        simp only [Option.map_some, Option.bind_some, Prod.map_fst, Prod.map_snd, his,
          cutClause?_fold]
        cases cutClause? "begin".toList ((afterWord? "is".toList parts.2).getD parts.2) with
        | none => rfl
        | some regions =>
          simp only [Option.map_some, Option.bind_some, Prod.map_fst, Prod.map_snd,
            Statement.readDeclarations_fold, Sequential.read_fold]
          cases Statement.readDeclarations room regions.1 with
          | none => rfl
          | some declarations => cases Sequential.read room regions.2 <;> rfl

theorem read_fold (room : Nat) (t : Text) : read room (Text.fold t) = (read room t).map fold := by
  simp only [read, trim_fold, fits_fold, isConstruct_fold, labelled?_fold]
  split
  · rfl
  · cases room with
    | zero => rfl
    | succ room =>
      cases labelled? (trim t) with
      | none => exact readLabelled_fold room none (trim t)
      | some parts => exact readLabelled_fold room (some parts.1) parts.2

end ProcessStatement

/-! ## Instances -/

namespace Actual

/-- An actual with its identifiers in lower case. -/
def fold : Actual → Actual
  | value e => value e.fold
  | unconnected => unconnected

theorem same_of_fold {a b : Actual} (h : a.fold = b.fold) : a.same b = true := by
  cases a <;> cases b <;> simp only [fold, reduceCtorEq, value.injEq] at h
  · exact Expr.same_of_fold _ _ h
  · rfl

end Actual

namespace Association

/-- An association with its identifiers in lower case. -/
def fold (a : Association) : Association :=
  ⟨a.formal.map Reference.fold, a.actual.fold⟩

theorem same_of_fold {a b : Association} (h : a.fold = b.fold) : a.same b = true := by
  obtain ⟨formal, actual⟩ := a
  obtain ⟨formal', actual'⟩ := b
  simp only [fold, mk.injEq] at h
  obtain ⟨hformal, hactual⟩ := h
  cases formal <;> cases formal' <;>
    simp only [Option.map_some, Option.map_none, reduceCtorEq, Option.some.injEq] at hformal
  · simp [same, Actual.same_of_fold hactual]
  · simp [same, Reference.same_of_fold _ _ hformal, Actual.same_of_fold hactual]

theorem sameAll_of_fold {as bs : List Association} (h : as.map fold = bs.map fold) :
    sameAll as bs = true := by
  induction as generalizing bs with
  | nil =>
    cases bs with
    | nil => rfl
    | cons b bs => cases h
  | cons a as ih =>
    cases bs with
    | nil => cases h
    | cons b bs =>
      rw [List.map_cons, List.map_cons, List.cons.injEq] at h
      rw [sameAll, same_of_fold h.1, ih h.2, Bool.and_self]

theorem read_fold (room : Nat) (t : Text) : read room (Text.fold t) = (read room t).map fold := by
  have hactual : ∀ (formal : Option Reference) (actual : Text),
      (if sameWord actual "open".toList then some (⟨formal.map Reference.fold, .unconnected⟩ : Association)
        else ((Expr.read room actual).map Expr.fold).bind fun value =>
          some ⟨formal.map Reference.fold, .value value⟩)
      = (if sameWord actual "open".toList then some (⟨formal, .unconnected⟩ : Association)
        else (Expr.read room actual).bind fun value => some ⟨formal, .value value⟩).map fold :=
    fun formal actual => by
      split
      · rfl
      · cases Expr.read room actual <;> rfl
  simp only [read, trim_fold, cutOuter?_fold (by decide : IsKey "=>".toList), Option.bind_eq_bind]
  cases cutOuter? "=>".toList (trim t) with
  | none =>
    simp only [Option.map_none, Option.bind_some, sameWord_fold, Expr.read_fold]
    exact hactual none (trim t)
  | some parts =>
    simp only [Option.map_some, Prod.map_fst, Prod.map_snd, Reference.read_fold]
    cases Reference.read room parts.1 with
    | none => rfl
    | some formal =>
      simp only [Option.map_some, Option.bind_some, trim_fold, sameWord_fold, Expr.read_fold]
      exact hactual (some formal) (trim parts.2)

end Association

namespace InstanceSource

/-- The source of an instance with its identifiers in lower case. -/
def fold : InstanceSource → InstanceSource
  | component name => component name.fold
  | entity library name architecture => entity library.fold name.fold (architecture.map Ident.fold)

theorem same_of_fold {a b : InstanceSource} (h : a.fold = b.fold) : a.same b = true := by
  cases a <;> cases b <;> simp only [fold, reduceCtorEq, component.injEq, entity.injEq] at h
  · exact Ident.same_of_fold h
  · simp [same, Ident.same_of_fold h.1, Ident.same_of_fold h.2.1, Ident.sameIdent?_of_fold h.2.2]

theorem splitArchitecture?_fold (t : Text) :
    splitArchitecture? (Text.fold t)
      = (splitArchitecture? t).map (Prod.map Text.fold (Option.map Ident.fold)) := by
  rw [splitArchitecture?, splitArchitecture?, splitOnce_fold (by decide)]
  cases splitOnce '(' t with
  | none => rfl
  | some parts =>
    simp only [Option.map_some, Prod.map_fst, Prod.map_snd, trimEnd_fold,
      dropFinal?_fold (k := ')') (by decide)]
    cases dropFinal? ')' (trimEnd parts.2) with
    | none => rfl
    | some inner =>
      simp only [Option.map_some, Option.bind_eq_bind, Option.bind_some, trim_fold, Ident.ofText?_fold]
      cases Ident.ofText? (trim inner) <;> rfl

theorem read_fold (t : Text) : read (Text.fold t) = (read t).map fold := by
  simp only [read, trim_fold, afterWord?_fold]
  cases afterWord? "entity".toList (trim t) with
  | none =>
    simp only [Option.map_none]
    cases afterWord? "component".toList (trim t) with
    | none =>
      simp only [Option.map_none, Option.getD_none, Ident.ofText?_fold]
      cases Ident.ofText? (trim t) <;> rfl
    | some name =>
      simp only [Option.map_some, Option.getD_some, Ident.ofText?_fold]
      cases Ident.ofText? name <;> rfl
  | some rest =>
    simp only [Option.map_some, splitArchitecture?_fold]
    cases splitArchitecture? rest with
    | none => rfl
    | some parts =>
      simp only [Option.map_some, Option.bind_eq_bind, Option.bind_some, Prod.map_fst, Prod.map_snd,
        splitOnce_fold (k := '.') (by decide)]
      cases splitOnce '.' parts.1 with
      | none => rfl
      | some names =>
        simp only [Option.map_some, Option.bind_some, Prod.map_fst, Prod.map_snd, trim_fold,
          Ident.ofText?_fold]
        cases Ident.ofText? (trim names.1) with
        | none => rfl
        | some lib => cases Ident.ofText? (trim names.2) <;> rfl

end InstanceSource

namespace Instance

/-- An instance with its identifiers in lower case. -/
def fold (i : Instance) : Instance :=
  ⟨i.label.fold, i.source.fold, i.generics.map Association.fold, i.ports.map Association.fold⟩

theorem same_of_fold {i j : Instance} (h : i.fold = j.fold) : i.same j = true := by
  simp only [fold, mk.injEq] at h
  simp [same, Ident.same_of_fold h.1, InstanceSource.same_of_fold h.2.1,
    Association.sameAll_of_fold h.2.2.1, Association.sameAll_of_fold h.2.2.2]

theorem splitMap?_fold (room : Nat) (keyword t : Text) :
    splitMap? room keyword (Text.fold t)
      = (splitMap? room keyword t).map (Prod.map (List.map Association.fold) Text.fold) := by
  rw [splitMap?, splitMap?, afterWords?_fold]
  cases afterWords? [keyword, "map".toList] t with
  | none => rfl
  | some rest =>
    simp only [Option.map_some, Option.bind_eq_bind, Option.bind_some, parenthesised?_fold]
    cases parenthesised? rest with
    | none => rfl
    | some parts =>
      simp only [Option.map_some, Option.bind_some, Prod.map_fst, Prod.map_snd, trimStart_fold,
        splitOuter_fold (k := ',') (by decide), mapM_map_of_comm (Association.read_fold room)]
      cases (splitOuter ',' parts.1).mapM (Association.read room) <;> rfl

/-- The associations of a map that may be left out, and the rest. -/
theorem splitMap?_getD_fold (room : Nat) (keyword t : Text) :
    (splitMap? room keyword (Text.fold t)).getD ([], Text.fold t)
      = Prod.map (List.map Association.fold) Text.fold ((splitMap? room keyword t).getD ([], t)) := by
  rw [splitMap?_fold]
  cases splitMap? room keyword t <;> rfl

theorem read_fold (room : Nat) (t : Text) : read room (Text.fold t) = (read room t).map fold := by
  simp only [read, withoutComments_fold, trim_fold, fits_fold, labelled?_fold]
  split
  · rfl
  · cases labelled? (trim (withoutComments t)) with
    | none => rfl
    | some parts =>
      simp only [Option.map_some, Option.bind_eq_bind, Option.bind_some, Prod.map_fst, Prod.map_snd,
        dropFinal?_fold (k := ';') (by decide)]
      cases dropFinal? ';' parts.2 with
      | none => rfl
      | some body =>
        simp only [Option.map_some, Option.bind_some, trimEnd_fold, length_fold, take_fold, drop_fold,
          outerMatches_fold (by decide : IsKey "generic".toList),
          outerMatches_fold (by decide : IsKey "port".toList), InstanceSource.read_fold,
          splitMap?_getD_fold, Prod.map_fst, Prod.map_snd, isEmpty_fold]
        generalize (outerMatches "generic".toList (trimEnd body)
          ++ outerMatches "port".toList (trimEnd body)).min?.getD (trimEnd body).length = i
        cases InstanceSource.read ((trimEnd body).take i) with
        | none => rfl
        | some source =>
          simp only [Option.map_some, Option.bind_some]
          split <;> rfl

end Instance

/-! ## Regions -/

namespace Concurrent

mutual

/-- Concurrent code with its identifiers and its comments in lower case. -/
def fold : Concurrent → Concurrent
  | simple s => simple s.fold
  | process p => process p.fold
  | component i => component i.fold
  | generate l p r b => generate l.fold p.fold r.fold b.fold
  | region cs => region (foldAll cs)
termination_by structural x => x

/-- A list of concurrent code with its identifiers and its comments in lower case. -/
def foldAll : List Concurrent → List Concurrent
  | [] => []
  | c :: cs => c.fold :: foldAll cs
termination_by structural x => x

end

mutual

/-- The comments of concurrent code. -/
def comments : Concurrent → List Comment
  | simple s => s.comments
  | process p => p.comments
  | component _ => []
  | generate _ _ _ b => b.comments
  | region cs => commentsAll cs
termination_by structural x => x

/-- The comments of a list of concurrent code. -/
def commentsAll : List Concurrent → List Comment
  | [] => []
  | c :: cs => c.comments ++ commentsAll cs
termination_by structural x => x

end

theorem foldAll_eq_map (cs : List Concurrent) : foldAll cs = cs.map fold := by
  induction cs with
  | nil => rfl
  | cons c cs ih => rw [foldAll, ih, List.map_cons]

mutual

theorem same_of_fold : ∀ a b : Concurrent, a.fold = b.fold → a.comments = [] → a.same b = true
  | simple s, b, h, hnone => by
    cases b <;> simp only [fold, reduceCtorEq, simple.injEq] at h
    exact ConcurrentStatement.same_of_fold h hnone
  | process p, b, h, hnone => by
    cases b <;> simp only [fold, reduceCtorEq, process.injEq] at h
    exact ProcessStatement.same_of_fold h hnone
  | component i, b, h, _ => by
    cases b <;> simp only [fold, reduceCtorEq, component.injEq] at h
    exact Instance.same_of_fold h
  | generate l p r s, b, h, hnone => by
    cases b <;> simp only [fold, reduceCtorEq, generate.injEq] at h
    simp [same, Ident.same_of_fold h.1, Ident.same_of_fold h.2.1, Range.same_of_fold r _ h.2.2.1,
      same_of_fold s _ h.2.2.2 hnone]
  | region cs, b, h, hnone => by
    cases b <;> simp only [fold, reduceCtorEq, region.injEq] at h
    exact sameAll_of_fold cs _ h hnone
termination_by structural x => x

theorem sameAll_of_fold : ∀ as bs : List Concurrent,
    foldAll as = foldAll bs → commentsAll as = [] → sameAll as bs = true
  | [], bs, h, _ => by
    cases bs with
    | nil => rfl
    | cons b bs => cases h
  | a :: as, bs, h, hnone => by
    cases bs with
    | nil => cases h
    | cons b bs =>
      simp only [foldAll, List.cons.injEq] at h
      rw [commentsAll, List.append_eq_nil_iff] at hnone
      simp [sameAll, same_of_fold a b h.1 hnone.1, sameAll_of_fold as bs h.2 hnone.2]
termination_by structural x => x

end

theorem fold_ofElements (cs : List Concurrent) :
    (ofElements cs).fold = ofElements (cs.map fold) := by
  rcases cs with _ | ⟨a, _ | ⟨b, cs⟩⟩
  · rfl
  · rfl
  · simp [ofElements, fold, foldAll_eq_map]

theorem readPieceWith_fold {statement : Text → Option Concurrent}
    (hstatement : ∀ t, statement (Text.fold t) = (statement t).map fold) (piece : Piece) :
    readPieceWith statement piece.fold = (readPieceWith statement piece).map (List.map fold) := by
  cases piece with
  | comment c =>
    simp only [Piece.fold, readPieceWith, Comment.ofText?_fold]
    cases Comment.ofText? c <;> rfl
  | code code trailer =>
    simp only [Piece.fold, readPieceWith, hstatement]
    cases statement code with
    | none => rfl
    | some element =>
      cases trailer with
      | none => rfl
      | some c =>
        simp only [Option.map_some, Option.bind_eq_bind, Option.bind_some, Comment.ofText?_fold]
        cases Comment.ofText? c <;> rfl

theorem readGenerateWith_fold {room : Nat} {body : Text → Option Concurrent}
    (hbody : ∀ t, body (Text.fold t) = (body t).map fold) (t : Text) :
    readGenerateWith room body (Text.fold t) = (readGenerateWith room body t).map fold := by
  have hbegin : ∀ u, (afterWord? "begin".toList (Text.fold u)).getD (Text.fold u)
      = Text.fold ((afterWord? "begin".toList u).getD u) := fun u => by
    rw [afterWord?_fold]
    cases afterWord? "begin".toList u <;> rfl
  have hend : ∀ (label : Ident) (u : Text),
      beforeEnd? ["generate".toList] true (some (Text.fold label.text)) (Text.fold u)
        = (beforeEnd? ["generate".toList] true (some label.text) u).map Text.fold := fun label u =>
    beforeEnd?_fold ["generate".toList] true (some label.text) u
  simp only [readGenerateWith, trim_fold, fits_fold, isConstruct_fold, labelled?_fold]
  split
  · rfl
  · cases labelled? (trim t) with
    | none => rfl
    | some parts =>
      simp only [Option.map_some, Option.bind_eq_bind, Option.bind_some, Prod.map_fst, Prod.map_snd,
        afterWord?_fold, Ident.text_fold]
      cases afterWord? "for".toList parts.2 with
      | none => rfl
      | some rest =>
        simp only [Option.map_some, Option.bind_some, hend]
        cases beforeEnd? ["generate".toList] true (some parts.1.text) rest with
        | none => rfl
        | some inner =>
          simp only [Option.map_some, Option.bind_some,
            Sequential.splitIteration?_fold (by decide : IsKey "generate".toList)]
          cases Sequential.splitIteration? "generate".toList inner with
          | none => rfl
          | some pieces =>
            simp only [Option.map_some, Option.bind_some, Prod.map_fst, Prod.map_snd, trim_fold,
              Ident.ofText?_fold, Range.read_fold, hbegin, hbody]
            cases Ident.ofText? (trim pieces.1) with
            | none => rfl
            | some parameter =>
              cases Range.read room pieces.2.1 with
              | none => rfl
              | some range =>
                cases body ((afterWord? "begin".toList pieces.2.2).getD pieces.2.2) <;> rfl

/-- The readers of regions and generated regions, which call each other. -/
theorem readers_fold (room : Nat) :
    (∀ t, read room (Text.fold t) = (read room t).map fold)
      ∧ ∀ t, readGenerate room (Text.fold t) = (readGenerate room t).map fold := by
  induction room with
  | zero => exact ⟨fun _ => rfl, fun _ => rfl⟩
  | succ room ih =>
    obtain ⟨hread, hgenerate⟩ := ih
    refine ⟨fun t => ?_, readGenerateWith_fold hread⟩
    rw [read, read, fits_fold, pieces?_fold]
    split
    · rfl
    · cases pieces? t with
      | none => rfl
      | some pieces =>
        simp only [Option.map_some, Option.bind_eq_bind, Option.bind_some]
        rw [mapM_map_of_comm (g := List.map fold)]
        · generalize List.mapM (m := Option) _ pieces = elements
          cases elements with
          | none => rfl
          | some elements =>
            simp only [Option.map_some, Option.bind_some]
            rw [fold_ofElements, List.map_flatten]
        · refine readPieceWith_fold fun u => ?_
          simp only [labelled?_fold, startsWith_fold, ProcessStatement.read_fold, hgenerate,
            Instance.read_fold, ConcurrentStatement.read_fold]
          cases labelled? u with
          | none =>
            simp only [Option.map_none]
            split
            · cases ProcessStatement.read room u <;> rfl
            · cases ConcurrentStatement.read room u <;> rfl
          | some parts =>
            simp only [Option.map_some, Prod.map_snd, startsWith_fold]
            split
            · cases ProcessStatement.read room u <;> rfl
            · split
              · rfl
              · cases Instance.read room u <;> rfl

/-- **Concurrent code is read in either case**: the folded text as the folded tree. -/
theorem read_fold (room : Nat) (t : Text) : read room (Text.fold t) = (read room t).map fold :=
  (readers_fold room).1 t

end Concurrent
end CanonicalVhdl
