import CanonicalVhdl.Proofs.Case.Statement
import CanonicalVhdl.Sequential.Read

/-!
# Sequential code in either case

## Main definitions

* `Choice.fold`, `Sequential.fold`, `Branch.fold` — trees with their texts in lower case.
* `Sequential.comments`, `Branch.comments` — the comments of a tree, in order.

## Main statements

* `Sequential.same_of_fold` — trees without comments and with the same folded form.
* **`Sequential.read_fold`** — reading a folded text gives the folded tree.
-/

namespace CanonicalVhdl

open Text

/-! ## Choices -/

namespace Choice

mutual

/-- A choice with its identifiers in lower case. -/
def fold : Choice → Choice
  | value e => value e.fold
  | range r => range r.fold
  | alternatives choices => alternatives (foldAll choices)
  | others => others
termination_by structural x => x

/-- A list of choices with their identifiers in lower case. -/
def foldAll : List Choice → List Choice
  | [] => []
  | c :: cs => c.fold :: foldAll cs
termination_by structural x => x

end

theorem foldAll_eq_map (cs : List Choice) : foldAll cs = cs.map fold := by
  induction cs with
  | nil => rfl
  | cons c cs ih => rw [foldAll, ih, List.map_cons]

mutual

theorem same_of_fold : ∀ a b : Choice, a.fold = b.fold → a.same b = true
  | value e, b, h => by
    cases b <;> simp only [fold, reduceCtorEq, value.injEq] at h
    exact Expr.same_of_fold e _ h
  | range r, b, h => by
    cases b <;> simp only [fold, reduceCtorEq, range.injEq] at h
    exact Range.same_of_fold r _ h
  | alternatives cs, b, h => by
    cases b <;> simp only [fold, reduceCtorEq, alternatives.injEq] at h
    exact sameAll_of_fold cs _ h
  | others, b, h => by
    cases b <;> simp only [fold, reduceCtorEq] at h
    rfl
termination_by structural x => x

theorem sameAll_of_fold : ∀ as bs : List Choice, foldAll as = foldAll bs → sameAll as bs = true
  | [], bs, h => by
    cases bs with
    | nil => rfl
    | cons b bs => cases h
  | a :: as, bs, h => by
    cases bs with
    | nil => cases h
    | cons b bs =>
      simp only [foldAll, List.cons.injEq] at h
      simp [sameAll, same_of_fold a b h.1, sameAll_of_fold as bs h.2]
termination_by structural x => x

end

theorem readSingle_fold (room : Nat) (t : Text) :
    readSingle room (Text.fold t) = (readSingle room t).map fold := by
  simp only [readSingle, trim_fold, sameWord_fold, Range.read_fold, Expr.read_fold]
  split
  · rfl
  · cases Range.read room (trim t) with
    | some r => rfl
    | none => cases Expr.read room (trim t) <;> rfl

theorem readAlternative_fold (room : Nat) (t : Text) :
    readAlternative room (Text.fold t) = (readAlternative room t).map fold := by
  rw [readAlternative, readAlternative, readSingle_fold]
  rcases readSingle room t with _ | (_ | _ | _ | _) <;> rfl

theorem read_fold (room : Nat) (t : Text) : read room (Text.fold t) = (read room t).map fold := by
  rw [read, read, trim_fold, splitOuter_fold (by decide)]
  have hseveral : ∀ several : List Text,
      ((several.map Text.fold).mapM (readAlternative room)).map alternatives
        = ((several.mapM (readAlternative room)).map alternatives).map fold := fun several => by
    rw [mapM_map_of_comm (readAlternative_fold room), Option.map_map, Option.map_map]
    congr 1
    funext choices
    simp [fold, foldAll_eq_map]
  rcases splitOuter '|' (trim t) with _ | ⟨a, _ | ⟨b, parts⟩⟩
  · exact hseveral []
  · exact readSingle_fold room a
  · exact hseveral (a :: b :: parts)

end Choice

/-! ## Trees -/

mutual

/-- Sequential code with its identifiers and its comments in lower case. -/
def Sequential.fold : Sequential → Sequential
  | .simple s => .simple s.fold
  | .conditional c b o => .conditional c.fold b.fold (Sequential.fold? o)
  | .selection s bs => .selection s.fold (Branch.foldAll bs)
  | .loop p r b => .loop p.fold r.fold b.fold
  | .region ss => .region (Sequential.foldAll ss)
termination_by structural x => x

/-- Optional sequential code with its identifiers and its comments in lower case. -/
def Sequential.fold? : Option Sequential → Option Sequential
  | none => none
  | some s => some s.fold
termination_by structural x => x

/-- A list of sequential code with its identifiers and its comments in lower case. -/
def Sequential.foldAll : List Sequential → List Sequential
  | [] => []
  | s :: ss => s.fold :: Sequential.foldAll ss
termination_by structural x => x

/-- A branch with its identifiers and its comments in lower case. -/
def Branch.fold : Branch → Branch
  | .mk c b => .mk c.fold b.fold
termination_by structural x => x

/-- A list of branches with their identifiers and their comments in lower case. -/
def Branch.foldAll : List Branch → List Branch
  | [] => []
  | b :: bs => b.fold :: Branch.foldAll bs
termination_by structural x => x

end

mutual

/-- The comments of sequential code. -/
def Sequential.comments : Sequential → List Comment
  | .simple s => s.comments
  | .conditional _ b o => b.comments ++ Sequential.comments? o
  | .selection _ bs => Branch.commentsAll bs
  | .loop _ _ b => b.comments
  | .region ss => Sequential.commentsAll ss
termination_by structural x => x

/-- The comments of optional sequential code. -/
def Sequential.comments? : Option Sequential → List Comment
  | none => []
  | some s => s.comments
termination_by structural x => x

/-- The comments of a list of sequential code. -/
def Sequential.commentsAll : List Sequential → List Comment
  | [] => []
  | s :: ss => s.comments ++ Sequential.commentsAll ss
termination_by structural x => x

/-- The comments of a branch. -/
def Branch.comments : Branch → List Comment
  | .mk _ b => b.comments
termination_by structural x => x

/-- The comments of a list of branches. -/
def Branch.commentsAll : List Branch → List Comment
  | [] => []
  | b :: bs => b.comments ++ Branch.commentsAll bs
termination_by structural x => x

end

theorem Sequential.foldAll_eq_map (ss : List Sequential) :
    Sequential.foldAll ss = ss.map Sequential.fold := by
  induction ss with
  | nil => rfl
  | cons s ss ih => rw [Sequential.foldAll, ih, List.map_cons]

theorem Branch.foldAll_eq_map (bs : List Branch) : Branch.foldAll bs = bs.map Branch.fold := by
  induction bs with
  | nil => rfl
  | cons b bs ih => rw [Branch.foldAll, ih, List.map_cons]

mutual

theorem Sequential.same_of_fold :
    ∀ a b : Sequential, a.fold = b.fold → a.comments = [] → a.same b = true
  | .simple s, b, h, hnone => by
    cases b <;> simp only [Sequential.fold, reduceCtorEq, Sequential.simple.injEq] at h
    exact Statement.same_of_fold h hnone
  | .conditional c s o, b, h, hnone => by
    cases b <;> simp only [Sequential.fold, reduceCtorEq, Sequential.conditional.injEq] at h
    rw [Sequential.comments, List.append_eq_nil_iff] at hnone
    simp [Sequential.same, Expr.same_of_fold c _ h.1,
      Sequential.same_of_fold s _ h.2.1 hnone.1, Sequential.same?_of_fold o _ h.2.2 hnone.2]
  | .selection s bs, b, h, hnone => by
    cases b <;> simp only [Sequential.fold, reduceCtorEq, Sequential.selection.injEq] at h
    simp [Sequential.same, Expr.same_of_fold s _ h.1, Branch.sameAll_of_fold bs _ h.2 hnone]
  | .loop p r s, b, h, hnone => by
    cases b <;> simp only [Sequential.fold, reduceCtorEq, Sequential.loop.injEq] at h
    simp [Sequential.same, Ident.same_of_fold h.1, Range.same_of_fold r _ h.2.1,
      Sequential.same_of_fold s _ h.2.2 hnone]
  | .region ss, b, h, hnone => by
    cases b <;> simp only [Sequential.fold, reduceCtorEq, Sequential.region.injEq] at h
    exact Sequential.sameAll_of_fold ss _ h hnone
termination_by structural x => x

theorem Sequential.same?_of_fold : ∀ a b : Option Sequential,
    Sequential.fold? a = Sequential.fold? b → Sequential.comments? a = [] →
      Sequential.same? a b = true
  | none, b, h, _ => by
    cases b with
    | none => rfl
    | some b => cases h
  | some a, b, h, hnone => by
    cases b with
    | none => cases h
    | some b => exact Sequential.same_of_fold a b (Option.some.inj h) hnone
termination_by structural x => x

theorem Sequential.sameAll_of_fold : ∀ as bs : List Sequential,
    Sequential.foldAll as = Sequential.foldAll bs → Sequential.commentsAll as = [] →
      Sequential.sameAll as bs = true
  | [], bs, h, _ => by
    cases bs with
    | nil => rfl
    | cons b bs => cases h
  | a :: as, bs, h, hnone => by
    cases bs with
    | nil => cases h
    | cons b bs =>
      simp only [Sequential.foldAll, List.cons.injEq] at h
      rw [Sequential.commentsAll, List.append_eq_nil_iff] at hnone
      simp [Sequential.sameAll, Sequential.same_of_fold a b h.1 hnone.1,
        Sequential.sameAll_of_fold as bs h.2 hnone.2]
termination_by structural x => x

theorem Branch.same_of_fold : ∀ a b : Branch, a.fold = b.fold → a.comments = [] → a.same b = true
  | .mk c s, .mk d r, h, hnone => by
    simp only [Branch.fold, Branch.mk.injEq] at h
    simp [Branch.same, Choice.same_of_fold c d h.1, Sequential.same_of_fold s r h.2 hnone]
termination_by structural x => x

theorem Branch.sameAll_of_fold : ∀ as bs : List Branch,
    Branch.foldAll as = Branch.foldAll bs → Branch.commentsAll as = [] →
      Branch.sameAll as bs = true
  | [], bs, h, _ => by
    cases bs with
    | nil => rfl
    | cons b bs => cases h
  | a :: as, bs, h, hnone => by
    cases bs with
    | nil => cases h
    | cons b bs =>
      simp only [Branch.foldAll, List.cons.injEq] at h
      rw [Branch.commentsAll, List.append_eq_nil_iff] at hnone
      simp [Branch.sameAll, Branch.same_of_fold a b h.1 hnone.1,
        Branch.sameAll_of_fold as bs h.2 hnone.2]
termination_by structural x => x

end

/-! ## Readers -/

namespace Sequential

theorem fold_ofElements (ss : List Sequential) :
    (ofElements ss).fold = ofElements (ss.map fold) := by
  rcases ss with _ | ⟨a, _ | ⟨b, ss⟩⟩
  · rfl
  · rfl
  · simp [ofElements, fold, foldAll_eq_map]

section Regions

variable {room : Nat} {statement : Text → Option Sequential}
  (hstatement : ∀ t, statement (Text.fold t) = (statement t).map fold)
  {region conditional : Text → Option Sequential}
  (hregion : ∀ t, region (Text.fold t) = (region t).map fold)
  (hconditional : ∀ t, conditional (Text.fold t) = (conditional t).map fold)

include hstatement in
theorem readPieceWith_fold (piece : Piece) :
    readPieceWith room statement piece.fold
      = (readPieceWith room statement piece).map (List.map fold) := by
  cases piece with
  | comment c =>
    simp only [Piece.fold, readPieceWith, Comment.ofText?_fold]
    cases Comment.ofText? c <;> rfl
  | code code trailer =>
    simp only [Piece.fold, readPieceWith, ObjectDecl.readWithTrailer_fold, hstatement]
    cases ObjectDecl.readWithTrailer room code trailer with
    | some d => rfl
    | none =>
      simp only [Option.map_none]
      cases statement code with
      | none => rfl
      | some element =>
        cases trailer with
        | none => rfl
        | some c =>
          simp only [Option.map_some, Option.bind_eq_bind, Option.bind_some, Comment.ofText?_fold]
          cases Comment.ofText? c <;> rfl

include hstatement in
theorem readRegionWith_fold (t : Text) :
    readRegionWith room statement (Text.fold t) = (readRegionWith room statement t).map fold := by
  rw [readRegionWith, readRegionWith, fits_fold, pieces?_fold]
  split
  · rfl
  · cases pieces? t with
    | none => rfl
    | some pieces =>
      simp only [Option.map_some, Option.bind_eq_bind, Option.bind_some,
        mapM_map_of_comm (readPieceWith_fold hstatement)]
      cases pieces.mapM (readPieceWith room statement) with
      | none => rfl
      | some elements =>
        simp only [Option.map_some, Option.bind_some]
        rw [fold_ofElements, List.map_flatten]

theorem interior?_fold (opening closing t : Text) :
    interior? opening closing (Text.fold t) = (interior? opening closing t).map Text.fold := by
  simp only [interior?, trim_fold, fits_fold, isConstruct_fold, afterWord?_fold]
  split
  · rfl
  · cases afterWord? opening (trim t) with
    | none => rfl
    | some rest => exact beforeEnd?_fold [closing] true none rest

include hregion hconditional in
theorem readConditionalWith_fold (t : Text) :
    readConditionalWith room region conditional (Text.fold t)
      = (readConditionalWith room region conditional t).map fold := by
  rw [readConditionalWith, readConditionalWith, interior?_fold]
  cases interior? "if".toList "if".toList t with
  | none => rfl
  | some inner =>
    simp only [Option.map_some, Option.bind_eq_bind, Option.bind_some,
      cutOuter?_fold (by decide : IsKey "then".toList)]
    cases cutOuter? "then".toList inner with
    | none => rfl
    | some parts =>
      simp only [Option.map_some, Option.bind_some, Prod.map_fst, Prod.map_snd, Expr.read_fold,
        clause?_fold, take_fold, drop_fold, dropBytes_fold, hregion]
      cases Expr.read room parts.1 with
      | none => rfl
      | some condition =>
        simp only [Option.map_some, Option.bind_some]
        split
        · cases region parts.2 <;> rfl
        · rename_i i _
          have hrest : "if ".toList ++ Text.fold (dropBytes 5 (parts.2.drop i)) ++ " end if;".toList
              = Text.fold ("if ".toList ++ dropBytes 5 (parts.2.drop i) ++ " end if;".toList) := by
            simp only [fold_append]
            rfl
          rw [hrest, hconditional]
          cases region (parts.2.take i) with
          | none => rfl
          | some body =>
            cases conditional ("if ".toList ++ dropBytes 5 (parts.2.drop i) ++ " end if;".toList) <;>
              rfl
        · rename_i i _ _ _
          cases region (parts.2.take i) with
          | none => rfl
          | some body => cases region (dropBytes 4 (parts.2.drop i)) <;> rfl

include hregion in
theorem readBranch_fold (t : Text) :
    Branch.readWith room region (Text.fold t) = (Branch.readWith room region t).map Branch.fold := by
  rw [Branch.readWith, Branch.readWith, afterWord?_fold]
  cases afterWord? "when".toList t with
  | none => rfl
  | some rest =>
    simp only [Option.map_some, Option.bind_eq_bind, Option.bind_some,
      cutOuter?_fold (by decide : IsKey "=>".toList)]
    cases cutOuter? "=>".toList rest with
    | none => rfl
    | some parts =>
      simp only [Option.map_some, Option.bind_some, Prod.map_fst, Prod.map_snd, Choice.read_fold,
        hregion]
      cases Choice.read room parts.1 with
      | none => rfl
      | some choice => cases region parts.2 <;> rfl

theorem splitBranches_fold (fuel : Nat) (t : Text) :
    Branch.split? fuel (Text.fold t) = (Branch.split? fuel t).map (List.map Text.fold) := by
  induction fuel generalizing t with
  | zero => rfl
  | succ fuel ih =>
    rw [Branch.split?, Branch.split?, dropBytes_fold, cutOuter?_fold (by decide)]
    cases cutOuter? "=>".toList (dropBytes 4 t) with
    | none => rfl
    | some parts =>
      simp only [Option.map_some, Option.bind_eq_bind, Option.bind_some, Prod.map_snd, clause?_fold,
        length_fold, take_fold, drop_fold, ih]
      split
      · rfl
      · rename_i i _ _
        cases Branch.split? fuel (t.drop (t.length - parts.2.length + i)) <;> rfl

include hregion in
theorem readSelectionWith_fold (t : Text) :
    readSelectionWith room region (Text.fold t) = (readSelectionWith room region t).map fold := by
  rw [readSelectionWith, readSelectionWith, interior?_fold]
  cases interior? "case".toList "case".toList t with
  | none => rfl
  | some inner =>
    simp only [Option.map_some, Option.bind_eq_bind, Option.bind_some,
      cutOuter?_fold (by decide : IsKey "is".toList)]
    cases cutOuter? "is".toList inner with
    | none => rfl
    | some parts =>
      simp only [Option.map_some, Option.bind_some, Prod.map_fst, Prod.map_snd, Expr.read_fold,
        clause?_fold, take_fold, drop_fold, trim_fold, isEmpty_fold, length_fold, splitBranches_fold]
      cases Expr.read room parts.1 with
      | none => rfl
      | some selector =>
        simp only [Option.map_some, Option.bind_some]
        cases clause? ["when".toList] parts.2 with
        | none => rfl
        | some first =>
          simp only [Option.bind_some]
          split
          · rfl
          · cases Branch.split? (parts.2.length + 1) (parts.2.drop first.1) with
            | none => rfl
            | some branches =>
              simp only [Option.map_some, Option.bind_some, mapM_map_of_comm (readBranch_fold hregion)]
              cases branches.mapM (Branch.readWith room region) with
              | none => rfl
              | some branches => simp [fold, Branch.foldAll_eq_map]

theorem splitIteration?_fold {opening : Text} (h : IsKey opening) (t : Text) :
    splitIteration? opening (Text.fold t)
      = (splitIteration? opening t).map (Prod.map Text.fold (Prod.map Text.fold Text.fold)) := by
  rw [splitIteration?, splitIteration?, outerMatch?_fold (by decide), outerMatch?_fold h]
  cases outerMatch? "in".toList t with
  | none => rfl
  | some i =>
    cases outerMatch? opening t with
    | none => rfl
    | some j =>
      simp only [Option.bind_eq_bind, Option.bind_some, take_fold, drop_fold]
      split <;> rfl

include hregion in
theorem readLoopWith_fold (t : Text) :
    readLoopWith room region (Text.fold t) = (readLoopWith room region t).map fold := by
  rw [readLoopWith, readLoopWith, interior?_fold]
  cases interior? "for".toList "loop".toList t with
  | none => rfl
  | some inner =>
    simp only [Option.map_some, Option.bind_eq_bind, Option.bind_some,
      splitIteration?_fold (by decide : IsKey "loop".toList)]
    cases splitIteration? "loop".toList inner with
    | none => rfl
    | some parts =>
      simp only [Option.map_some, Option.bind_some, Prod.map_fst, Prod.map_snd, trim_fold,
        Ident.ofText?_fold, Range.read_fold, hregion]
      cases Ident.ofText? (trim parts.1) with
      | none => rfl
      | some parameter =>
        cases Range.read room parts.2.1 with
        | none => rfl
        | some range => cases region parts.2.2 <;> rfl

end Regions

/-- The readers of regions and compound statements, which call one another. -/
theorem readers_fold (room : Nat) :
    (∀ t, read room (Text.fold t) = (read room t).map fold)
      ∧ (∀ t, readConditional room (Text.fold t) = (readConditional room t).map fold)
      ∧ (∀ t, readSelection room (Text.fold t) = (readSelection room t).map fold)
      ∧ ∀ t, readLoop room (Text.fold t) = (readLoop room t).map fold := by
  induction room with
  | zero => exact ⟨fun _ => rfl, fun _ => rfl, fun _ => rfl, fun _ => rfl⟩
  | succ room ih =>
    obtain ⟨hread, hconditional, hselection, hloop⟩ := ih
    refine ⟨fun t => ?_, fun t => ?_, fun t => ?_, fun t => ?_⟩
    · refine readRegionWith_fold (fun u => ?_) t
      simp only [startsWith_fold, hconditional, hselection, hloop, Statement.read_fold]
      split
      · rfl
      · split
        · rfl
        · split
          · rfl
          · cases Statement.read room u <;> rfl
    · exact readConditionalWith_fold hread hconditional t
    · exact readSelectionWith_fold hread t
    · exact readLoopWith_fold hread t

/-- **Sequential code is read in either case**: the folded text as the folded tree. -/
theorem read_fold (room : Nat) (t : Text) : read room (Text.fold t) = (read room t).map fold :=
  (readers_fold room).1 t

end Sequential
end CanonicalVhdl
