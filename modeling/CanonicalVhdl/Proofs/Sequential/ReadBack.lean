import CanonicalVhdl.Proofs.Object.Type
import CanonicalVhdl.Proofs.Sequential.Layout

/-!
# Sequential code reads back

The text of a region is read as the region it was printed from, however its statements
are nested, if every part of it reads back and it is not too long.  An `elsif` is read
as the conditional statement that it stands for, put together again from what is left of
the text; its closing clause then follows on the last line of its last branch, so that
branch must not end with a comment.

## Main definitions

* `Sequential.readElement` — the reader of the elements of a region.
* `Sequential.ReadsUpTo room` — a reader with some room returns regions, conditional
  statements and elements.

## Main statements

* `Sequential.readsUpTo` — the induction on the room of the reader.
* `Sequential.read_text_of_isRegion` — sequential code is read from its text.
-/

namespace CanonicalVhdl

open Text Token

namespace Sequential

/-! ## Regions -/

/-- Reads an element of a region by its first word. -/
def readElement (room : Nat) (code : Text) : Option Sequential :=
  if startsWith "if".toList code then readConditional room code
  else if startsWith "case".toList code then readSelection room code
  else if startsWith "for".toList code then readLoop room code
  else (Statement.read room code).map simple

theorem read_succ (room : Nat) (t : Text) :
    read (room + 1) t = readRegionWith room (readElement room) t := rfl

theorem IsRegion.ofElements {room : Nat} {s : Sequential} (h : IsRegion room s) :
    ofElements s.elements = s := by
  cases h with
  | single he => rw [he.elements]; rfl
  | @several room es hlen _ =>
    rw [elements]
    rcases es with _ | ⟨e, _ | ⟨e', es⟩⟩
    · rfl
    · exact absurd rfl hlen
    · rfl

/-- A region is read if its elements are. -/
theorem read_of_region {room k : Nat} {s : Sequential} {t : Text} (hs : IsRegion (room + 1) s)
    (hregion : Region true (s.elements.map (piece k)) t)
    (hfits : fits Limits.blockBytes t = true)
    (helements : ∀ e ∈ s.elements, readPieceWith room (readElement room) (e.piece k) = some [e]) :
    read (room + 1) t = some s := by
  have hmap : (s.elements.map (piece k)).mapM (readPieceWith room (readElement room))
      = some (s.elements.map ([·])) := by
    refine mapM_of_forall₂ ?_
    rw [List.forall₂_map_left_iff, List.forall₂_map_right_iff, List.forall₂_same]
    exact helements
  have hflatten : (s.elements.map ([·])).flatten = s.elements := by
    rw [← List.flatMap_def, List.flatMap_singleton']
  rw [read_succ, readRegionWith, hfits]
  simp only [Bool.not_true, Bool.false_eq_true, if_false, hregion.pieces?, hmap, Option.bind_eq_bind,
    Option.bind_some, hflatten, hs.ofElements]

/-! ## Simple statements -/

theorem readPieceWith_simple {room k : Nat} {s : Statement} (h : s.ReadsBack room) :
    readPieceWith room (readElement room) ((simple s).piece k) = some [simple s] := by
  rcases h.cases with ⟨d, rfl, hd⟩ | ⟨c, rfl, hc⟩ | hs
  · have hpiece : (simple (.declaration d)).piece k = .code d.code (d.comment.map (·.text)) := rfl
    rw [hpiece, readPieceWith, hd.readWithTrailer]
  · have hpiece : (simple (.comment c)).piece k = .comment c.text := rfl
    rw [hpiece, readPieceWith, hc.ofText?]
    rfl
  · have hpiece : (simple s).piece k = .code s.text none := hs.piece_eq
    have hobject := ObjectDecl.readWithTrailer_eq_none hs.isStatement.solid.head
      (fun c => hs.startsWith _ c.mem_openingWords) room none
    have helement : readElement room s.text = some (simple s) := by
      simp only [readElement, hs.startsWith "if".toList (by decide),
        hs.startsWith "case".toList (by decide), hs.startsWith "for".toList (by decide), hs.read_text,
        Bool.false_eq_true, if_false, Option.map_some]
    rw [hpiece, readPieceWith, hobject]
    simp only [helement, Option.bind_eq_bind, Option.bind_some]

/-! ## Compound statements -/

section Construct

variable {w g x v inner g' k : Text} {ks : List Text}

/-- The first word of a construct. -/
theorem startsWith_construct {w' : Text} (hw : IsRun w) (hw' : IsRun w') (hg : IsPad g)
    (hne : g ≠ []) : startsWith w' (construct w g x v inner g' ks) = sameWord w' w := by
  have hu : (g ++ (x ++ ' ' :: v) ++ (inner ++ (g' ++ ("end".toList ++ clauseEnd ks)))).head?.any
      isIdentChar = false := by
    obtain ⟨c, r, rfl⟩ := List.exists_cons_of_ne_nil hne
    rcases hg c List.mem_cons_self with rfl | rfl <;> rfl
  have := startsWith_run (g := []) rfl hw' hw hu
  rw [List.nil_append, ← List.append_assoc] at this
  exact this

/-- A piece that starts with a word of its own is no declaration. -/
theorem readPieceWith_construct {room : Nat} {statement : Text → Option Sequential}
    (hw : IsRun w) (hg : IsPad g) (hne : g ≠ []) (hhead : w.head?.any isBlank = false)
    (hclass : ∀ c : ObjectClass, sameWord c.keyword.toList w = false) :
    readPieceWith room statement (.code (construct w g x v inner g' ks) none)
      = (statement (construct w g x v inner g' ks)).map ([·]) := by
  have hblank : (construct w g x v inner g' ks).head?.any isBlank = false := by
    obtain ⟨c, r, rfl⟩ := List.exists_cons_of_ne_nil hw.ne_nil
    exact hhead
  have hobject := ObjectDecl.readWithTrailer_eq_none hblank (fun c => by
    rw [startsWith_construct hw c.isName.isRun hg hne, hclass c]) room none
  rw [readPieceWith, hobject]
  cases statement (construct w g x v inner g' ks) <;> rfl

/-- The interior of a construct between its first word and its closing clause. -/
theorem interior?_construct (hw : IsRun w) (hg : IsPad g) (hne : g ≠ []) (hg' : IsPad g')
    (hne' : g' ≠ []) (hk : IsRun k) (hx : Solid ((x ++ ' ' :: v) ++ inner))
    (hstatement : IsStatement true (construct w g x v inner g' [k]))
    (hfits : fits Limits.blockBytes (construct w g x v inner g' [k]) = true) :
    interior? w k (construct w g x v inner g' [k]) = some ((x ++ ' ' :: v) ++ inner) := by
  have hsplit : construct w g x v inner g' [k]
      = w ++ (g ++ (((x ++ ' ' :: v) ++ inner) ++ (g' ++ ("end".toList ++ clauseEnd [k])))) := by
    simp only [construct, List.append_assoc]
  have hu : (g ++ (((x ++ ' ' :: v) ++ inner) ++ (g' ++ ("end".toList ++ clauseEnd [k])))).head?.any
      isIdentChar = false := by
    obtain ⟨c, r, rfl⟩ := List.exists_cons_of_ne_nil hne
    rcases hg c List.mem_cons_self with rfl | rfl <;> rfl
  have hafter : afterWord? w (construct w g x v inner g' [k])
      = some (((x ++ ' ' :: v) ++ inner) ++ (g' ++ ("end".toList ++ clauseEnd [k]))) := by
    have := afterWord?_run (g := []) rfl hw hw hu
    rw [List.nil_append, sameWord_self, if_pos rfl, trimStart_append hg.all_isBlank] at this
    rw [hsplit, this, trimStart_eq_self]
    rw [List.head?_append_of_ne_nil _ hx.ne_nil]
    exact hx.head
  have hclosing : "end".toList ++ clauseEnd [k] = "end ".toList ++ k ++ [';'] := by
    have hend : "end ".toList = "end".toList ++ [' '] := rfl
    rw [hend]
    simp [clauseEnd]
  have hbefore := beforeEnd?_clause (x := (x ++ ' ' :: v) ++ inner) hk hg'.all_isBlank hne'
  rw [trimEnd_eq_self hx.last] at hbefore
  rw [interior?, trim_eq_self hstatement.solid.toTrimmed]
  simp only [hfits, hstatement.isConstruct, hafter, Bool.not_true, Bool.or_self, Bool.false_eq_true,
    if_false, Option.bind_eq_bind, Option.bind_some]
  rw [hclosing]
  simpa only [List.append_assoc] using hbefore

end Construct

/-! ## The induction -/

/-- A reader with some room returns regions, conditional statements and elements. -/
structure ReadsUpTo (room : Nat) : Prop where
  /-- Regions in blocks, with padding behind them. -/
  region : ∀ {s : Sequential}, IsRegion room s → ∀ (k : Nat) {g : Text}, IsPad g → AtLineEnd g →
    fits Limits.blockBytes (block k s ++ g) = true → read room (block k s ++ g) = some s
  /-- Conditional statements with padding after the first word and before the last clause. -/
  conditional : ∀ {condition : Expr} {body : Sequential} {otherwise : Option Sequential},
    IsElement room (.conditional condition body otherwise) → ∀ (k : Nat) {g g' : Text},
    IsPad g → g ≠ [] → IsPad g' → g' ≠ [] →
    ((Sequential.conditional condition body otherwise).finalBranch.endsWithComment = true →
      AtLineEnd g') →
    fits Limits.blockBytes (construct "if".toList g condition.text "then".toList
      (block (k + 1) body ++ rest k otherwise) g' ["if".toList]) = true →
    readConditional room (construct "if".toList g condition.text "then".toList
      (block (k + 1) body ++ rest k otherwise) g' ["if".toList])
        = some (.conditional condition body otherwise)
  /-- Elements as pieces of a region. -/
  element : ∀ {e : Sequential}, IsElement room e → ∀ k : Nat,
    fits Limits.blockBytes (shift k e.text) = true →
    readPieceWith room (readElement room) (e.piece k) = some [e]

/-! ### Conditional statements -/

section Conditional

variable {room k : Nat} {condition : Expr} {body : Sequential} {otherwise : Option Sequential}
  {g g' : Text}

theorem newline_head_block (s : Sequential) (k : Nat) {u : Text} (hu : AtLineEnd u) :
    (block k s ++ u).head?.any isIdentChar = false :=
  (IsBlock.atLineEnd s k hu).ident

theorem atLineEnd_rest (ho : IsLaidRest body otherwise) (k : Nat) :
    AtLineEnd (rest k otherwise) := by
  obtain h | ⟨t, -, h⟩ := ho.tail
  · rw [rest, h]
    exact atLineEnd_nil
  · rw [rest, h, ← List.singleton_append, shift_append]
    exact atLineEnd_newline _

/-- Reads what follows the header of a conditional statement. -/
def readBranches (region conditional : Text → Option Sequential) (condition : Expr)
    (branches : Text) : Option Sequential :=
  match clause? ["elsif".toList, "else".toList] branches with
  | none => (region branches).map fun body => .conditional condition body none
  | some (i, 0) => do
    let body ← region (branches.take i)
    let rest ← conditional ("if ".toList ++ dropBytes 5 (branches.drop i) ++ " end if;".toList)
    some (.conditional condition body (some rest))
  | some (i, _) => do
    let body ← region (branches.take i)
    let rest ← region (dropBytes 4 (branches.drop i))
    some (.conditional condition body (some rest))

/-- The condition is cut off at `then`. -/
theorem readConditionalWith_construct {region conditional' : Text → Option Sequential}
    (hc : condition.ReadsBack room) (hb : body.IsBlock) (ho : IsLaidRest body otherwise)
    (hg : IsPad g) (hne : g ≠ []) (hg' : IsPad g') (hne' : g' ≠ [])
    (hline : (conditional condition body otherwise).finalBranch.endsWithComment = true → AtLineEnd g')
    (hfits : fits Limits.blockBytes (construct "if".toList g condition.text "then".toList
      (block (k + 1) body ++ rest k otherwise) g' ["if".toList]) = true) :
    readConditionalWith room region conditional' (construct "if".toList g condition.text "then".toList
        (block (k + 1) body ++ rest k otherwise) g' ["if".toList])
      = readBranches region conditional' condition (block (k + 1) body ++ rest k otherwise) := by
  have hthen : IsName "then".toList := by decide
  have hsolid : Solid ((condition.text ++ ' ' :: "then".toList)
      ++ (block (k + 1) body ++ rest k otherwise)) := by
    rw [← List.append_assoc]
    exact ho.solid k (hb.solid (k + 1) (hc.solid.between hthen.isRun.solid [' ']))
  have hinner := interior?_construct (by decide) hg hne hg' hne' (by decide) hsolid
    (isStatement_conditional hc ho k hg hne hg' hne' hline) hfits
  have hcut := cutOuter?_phrase hc.isPhrase
    (lacks_of_isCalm (isForeign_words _ (by decide)) hc.isCalm) hthen
    (newline_head_block body (k + 1) (atLineEnd_rest ho k))
  have hcondition := hc.reads [] [' '] isPad_nil isPad_blank
  rw [condition.render_tokens] at hcut
  rw [List.nil_append] at hcondition
  rw [List.append_assoc, List.cons_append] at hinner
  simp only [readConditionalWith, hinner, hcut, hcondition, Option.bind_eq_bind, Option.bind_some]
  rfl

/-- A dividing word is found behind the first branch. -/
theorem clause?_block (hb : body.IsBlock) {w after : Text} {i : Nat} (hw : IsName w)
    (hafter : after.head?.any isIdentChar = false)
    (hfind : (["elsif".toList, "else".toList].findIdx? fun w' => sameWord w' w) = some i) :
    clause? ["elsif".toList, "else".toList] (block (k + 1) body ++ (lineBreak k ++ (w ++ after)))
      = some ((block (k + 1) body ++ lineBreak k).length, i) := by
  have hregion := hb.region (k + 1) isPad_nil atLineEnd_nil
  rw [List.append_nil] at hregion
  exact hregion.clause?_append (by decide) (isPad_lineBreak k) (atLineEnd_lineBreak k [])
    (List.cons_ne_nil _ _) hw hafter hfind

/-- The first branch and what follows the dividing word. -/
theorem take_drop_block (body : Sequential) (k : Nat) (after : Text) :
    (block (k + 1) body ++ (lineBreak k ++ after)).take (block (k + 1) body ++ lineBreak k).length
        = block (k + 1) body ++ lineBreak k ∧
      (block (k + 1) body ++ (lineBreak k ++ after)).drop (block (k + 1) body ++ lineBreak k).length
        = after := by
  rw [← List.append_assoc]
  exact ⟨List.take_left, List.drop_left⟩

variable (h : ReadsUpTo room) (hbody : IsRegion room body)
include h hbody

theorem readBranches_none (hfits : fits Limits.blockBytes (block (k + 1) body) = true) :
    readBranches (read room) (readConditional room) condition (block (k + 1) body)
      = some (.conditional condition body none) := by
  have hregion := hbody.isBlock.region (k + 1) isPad_nil atLineEnd_nil
  have hread := h.region hbody (k + 1) isPad_nil atLineEnd_nil
  rw [List.append_nil] at hregion hread
  rw [readBranches, hregion.clause?_eq_none (by decide), hread hfits, Option.map_some]

theorem readBranches_other {s : Sequential} (hs : s.isConditional = false)
    (hregion : IsRegion room s)
    (hfits : fits Limits.blockBytes (block (k + 1) body ++ rest k (some s)) = true) :
    readBranches (read room) (readConditional room) condition (block (k + 1) body ++ rest k (some s))
      = some (.conditional condition body (some s)) := by
  have hrest : rest k (some s) = lineBreak k ++ ("else".toList ++ block (k + 1) s) := by
    rw [rest_other hs hregion.isBlock, List.append_assoc]
  have hhead := newline_head_block s (k + 1) atLineEnd_nil
  rw [List.append_nil] at hhead
  have hclause := clause?_block (k := k) hbody.isBlock (w := "else".toList) (i := 1) (by decide) hhead (by decide)
  obtain ⟨htake, hdrop⟩ := take_drop_block body k ("else".toList ++ block (k + 1) s)
  have hbytes : dropBytes 4 ("else".toList ++ block (k + 1) s) = block (k + 1) s :=
    dropBytes_append "else".toList _
  rw [hrest] at hfits ⊢
  have hfirst := h.region hbody (k + 1) (isPad_lineBreak k) (atLineEnd_lineBreak k [])
    (fits_of_isInfix hfits ⟨[], "else".toList ++ block (k + 1) s, by simp⟩)
  have hsecond := h.region hregion (k + 1) isPad_nil atLineEnd_nil
    (fits_of_isInfix hfits ⟨block (k + 1) body ++ (lineBreak k ++ "else".toList), [], by simp⟩)
  rw [List.append_nil] at hsecond
  simp only [readBranches, hclause, htake, hdrop, hbytes, hfirst, hsecond, Option.bind_eq_bind,
    Option.bind_some]

/-- What follows `elsif` becomes a conditional statement of its own, no longer than the
one that holds it. -/
theorem readBranches_elsif {condition' : Expr} {body' : Sequential} {otherwise' : Option Sequential}
    (he : IsElement room (.conditional condition' body' otherwise'))
    (hline : (Sequential.conditional condition' body' otherwise').finalBranch.endsWithComment = false)
    (hfits : byteLength (block (k + 1) body
      ++ rest k (some (.conditional condition' body' otherwise'))) + 5 ≤ Limits.blockBytes) :
    readBranches (read room) (readConditional room) condition
        (block (k + 1) body ++ rest k (some (.conditional condition' body' otherwise')))
      = some (.conditional condition body (some (.conditional condition' body' otherwise'))) := by
  obtain ⟨hcondition, hb⟩ : '\n' ∉ condition'.text ∧ body'.IsBlock := by
    cases he with
    | conditional hc hb _ _ => exact ⟨hc.newline_not_mem, hb.isBlock⟩
  obtain ⟨after, hafter⟩ : ∃ after, after = [' '] ++ (condition'.text ++ ' ' :: "then".toList)
      ++ (block (k + 1) body' ++ rest k otherwise') := ⟨_, rfl⟩
  have hrest : rest k (some (.conditional condition' body' otherwise'))
      = lineBreak k ++ ("elsif".toList ++ after) := by
    rw [rest_elsif hcondition hb, hafter]
    simp only [List.append_assoc]
  have hagain : "if ".toList ++ after ++ " end if;".toList
      = construct "if".toList "  ".toList condition'.text "then".toList
        (block (k + 1) body' ++ rest k otherwise') " ".toList ["if".toList] := by
    have hif : "if ".toList = "if".toList ++ [' '] := rfl
    have hend : " end if;".toList = " ".toList ++ ("end".toList ++ clauseEnd ["if".toList]) := rfl
    have hblanks : "  ".toList = [' '] ++ [' '] := rfl
    rw [hif, hend, hafter, construct, hblanks]
    simp only [List.append_assoc]
  have hhead : after.head?.any isIdentChar = false := by rw [hafter]; rfl
  have hclause := clause?_block (k := k) hbody.isBlock (w := "elsif".toList) (i := 0) (by decide) hhead
    (by decide)
  obtain ⟨htake, hdrop⟩ := take_drop_block body k ("elsif".toList ++ after)
  have hbytes : dropBytes 5 ("elsif".toList ++ after) = after := dropBytes_append "elsif".toList _
  rw [hrest] at hfits ⊢
  have hshort : byteLength "if ".toList = 3 ∧ byteLength " end if;".toList = 8
      ∧ byteLength "elsif".toList = 5 ∧ 1 ≤ byteLength (lineBreak k) := by
    refine ⟨by decide, by decide, by decide, ?_⟩
    rw [lineBreak, byteLength_cons]
    exact Nat.le_add_right_of_le (by decide)
  have hfirst := h.region hbody (k + 1) (isPad_lineBreak k) (atLineEnd_lineBreak k []) (by
    rw [fits, decide_eq_true_eq]
    simp only [byteLength_append] at hfits ⊢
    omega)
  have hsecond : Sequential.readConditional room (construct "if".toList "  ".toList condition'.text
      "then".toList (block (k + 1) body' ++ rest k otherwise') " ".toList ["if".toList])
        = some (.conditional condition' body' otherwise') := by
    refine h.conditional he k (by simp [IsPad]) (by decide) (by simp [IsPad]) (by decide)
      (fun h => ?_) ?_
    · rw [hline] at h
      cases h
    · rw [← hagain, fits, decide_eq_true_eq]
      simp only [byteLength_append] at hfits ⊢
      omega
  simp only [readBranches, hclause, htake, hdrop, hbytes, hagain, hfirst, hsecond,
    Option.bind_eq_bind, Option.bind_some]

end Conditional

/-- A conditional statement is read if its parts are. -/
theorem ReadsUpTo.readConditional {room k : Nat} {condition : Expr} {body : Sequential}
    {otherwise : Option Sequential} {g g' : Text} (h : ReadsUpTo room)
    (he : IsElement (room + 1) (.conditional condition body otherwise))
    (hg : IsPad g) (hne : g ≠ []) (hg' : IsPad g') (hne' : g' ≠ [])
    (hline : (Sequential.conditional condition body otherwise).finalBranch.endsWithComment = true →
      AtLineEnd g')
    (hfits : fits Limits.blockBytes (construct "if".toList g condition.text "then".toList
      (block (k + 1) body ++ rest k otherwise) g' ["if".toList]) = true) :
    Sequential.readConditional (room + 1) (construct "if".toList g condition.text "then".toList
      (block (k + 1) body ++ rest k otherwise) g' ["if".toList])
        = some (.conditional condition body otherwise) := by
  cases he with
  | conditional hc hbody ho hfinal =>
    have hpart := fits_of_isInfix hfits (isInfix_construct ..)
    rw [Sequential.readConditional, readConditionalWith_construct hc hbody.isBlock
      (ho.isLaidRest hbody.isBlock) hg hne hg' hne' hline hfits]
    cases ho with
    | none =>
      rw [rest_none, List.append_nil] at hpart ⊢
      exact readBranches_none h hbody hpart
    | elsif he' =>
      refine readBranches_elsif h hbody he' (hfinal rfl) ?_
      have hwords : byteLength "if".toList = 2 ∧ byteLength "then".toList = 4 := by decide
      rw [fits, decide_eq_true_eq, construct] at hfits
      simp only [byteLength_append, byteLength_cons] at hfits hwords ⊢
      omega
    | other hs hregion => exact readBranches_other h hbody hs hregion hpart

/-! ### Loops -/

/-- The parts of a header with a parameter and a range. -/
theorem splitIteration?_header {room : Nat} {parameter : Ident} {range : Range} {opening u : Text}
    (hr : range.ReadsBack room) (hopening : IsName opening)
    (hlacks : Lacks opening (loopTokens parameter range)) (hu : u.head?.any isIdentChar = false) :
    splitIteration? opening ((parameter.text ++ ' ' :: ("in".toList ++ ' ' :: range.text))
        ++ ' ' :: (opening ++ u))
      = some (parameter.text ++ [' '], ' ' :: (range.text ++ [' ']), u) := by
  have hin : IsName "in".toList := by decide
  have hname := parameter.lacks_word (w := "in".toList) (by decide)
  have hi := outerMatch?_phrase (u := ' ' :: range.text ++ ' ' :: (opening ++ u))
    (isPhrase_word parameter.isName) hname hin rfl
  have hj := outerMatch?_phrase (isPhrase_loopTokens hr) hlacks hopening hu
  rw [render_loopTokens] at hj
  rw [render_cons, render_nil, text_word, List.append_nil] at hi
  have hsplit : (parameter.text ++ ' ' :: ("in".toList ++ ' ' :: range.text)) ++ ' ' :: (opening ++ u)
      = parameter.text ++ ' ' :: ("in".toList ++ (' ' :: range.text ++ ' ' :: (opening ++ u))) := by
    simp only [List.append_assoc, List.cons_append]
  rw [← hsplit] at hi
  have hlt : ¬ (parameter.text ++ ' ' :: ("in".toList ++ ' ' :: range.text)).length + 1
      < parameter.text.length + 1 := by
    simp only [List.length_append, List.length_cons]
    omega
  have htake : ((parameter.text ++ ' ' :: ("in".toList ++ ' ' :: range.text))
      ++ ' ' :: (opening ++ u)).take (parameter.text.length + 1) = parameter.text ++ [' '] := by
    have hassoc : (parameter.text ++ ' ' :: ("in".toList ++ ' ' :: range.text)) ++ ' ' :: (opening ++ u)
        = (parameter.text ++ [' ']) ++ ("in".toList ++ (' ' :: range.text ++ ' ' :: (opening ++ u))) := by
      simp
    rw [hassoc]
    exact List.take_left' (by simp)
  have hmiddle : (((parameter.text ++ ' ' :: ("in".toList ++ ' ' :: range.text))
      ++ ' ' :: (opening ++ u)).take
        ((parameter.text ++ ' ' :: ("in".toList ++ ' ' :: range.text)).length + 1)).drop
          (parameter.text.length + 1 + 2) = ' ' :: (range.text ++ [' ']) := by
    have hassoc : (parameter.text ++ ' ' :: ("in".toList ++ ' ' :: range.text)) ++ ' ' :: (opening ++ u)
        = ((parameter.text ++ ' ' :: "in".toList) ++ ' ' :: (range.text ++ [' '])) ++ (opening ++ u) := by
      simp
    rw [hassoc, List.take_left' (by simp; omega)]
    exact List.drop_left' (by simp)
  have hdrop : ((parameter.text ++ ' ' :: ("in".toList ++ ' ' :: range.text))
      ++ ' ' :: (opening ++ u)).drop
        ((parameter.text ++ ' ' :: ("in".toList ++ ' ' :: range.text)).length + 1 + opening.length)
          = u := by
    have hassoc : (parameter.text ++ ' ' :: ("in".toList ++ ' ' :: range.text)) ++ ' ' :: (opening ++ u)
        = ((parameter.text ++ ' ' :: ("in".toList ++ ' ' :: range.text)) ++ ' ' :: opening) ++ u := by
      simp
    rw [hassoc]
    exact List.drop_left' (by simp; omega)
  simp only [splitIteration?, hi, hj, Option.bind_eq_bind, Option.bind_some, hlt, if_false, htake,
    hmiddle, hdrop]

/-- A loop is read if its body is. -/
theorem ReadsUpTo.readLoop {room k : Nat} {parameter : Ident} {range : Range} {body : Sequential}
    (h : ReadsUpTo room) (hr : range.ReadsBack room) (hbody : IsRegion room body)
    (hfits : fits Limits.blockBytes (shift k (Sequential.loop parameter range body).text) = true) :
    Sequential.readLoop (room + 1) (shift k (Sequential.loop parameter range body).text)
      = some (.loop parameter range body) := by
  have hb := hbody.isBlock
  have hloop : IsName "loop".toList := by decide
  have hin : IsName "in".toList := by decide
  have hstatement : IsStatement true (shift k (Sequential.loop parameter range body).text) :=
    isStatement_loop hr hb k
  rw [shift_loop hr hb] at hfits hstatement ⊢
  have hpart := fits_of_isInfix hfits (isInfix_construct ..)
  have hsolid : Solid (((parameter.text ++ ' ' :: ("in".toList ++ ' ' :: range.text))
      ++ ' ' :: "loop".toList) ++ block (k + 1) body) := by
    refine hb.solid (k + 1) ?_
    have := parameter.isRun.solid.between hloop.isRun.solid
      (' ' :: ("in".toList ++ ' ' :: range.text) ++ [' '])
    simpa using this
  have hinner := interior?_construct (by decide) isPad_blank (List.cons_ne_nil _ _)
    (isPad_lineBreak k) (List.cons_ne_nil _ _) hloop.isRun hsolid hstatement hfits
  have hhead := newline_head_block body (k + 1) atLineEnd_nil
  rw [List.append_nil] at hhead
  have hlacks : Lacks "loop".toList (loopTokens parameter range) := by
    refine lacks_append.2 ⟨parameter.lacks_word (by decide),
      lacks_append.2 ⟨by decide, range.lacks (isForeign_words _ (by decide)) (by decide) hr.designators⟩⟩
  have hsplit := splitIteration?_header hr hloop hlacks hhead
  have hrange := hr.reads [' '] [' '] isPad_blank isPad_blank
  have hname : trim (parameter.text ++ [' ']) = parameter.text := by
    have : trim ([] ++ parameter.text ++ [' ']) = parameter.text :=
      trim_pad_trimmed rfl parameter.isRun.trimmed rfl
    rwa [List.nil_append] at this
  have hread := h.region hbody (k + 1) isPad_nil atLineEnd_nil
  rw [List.append_nil] at hread
  rw [List.append_assoc, List.cons_append] at hinner
  simp only [Sequential.readLoop, readLoopWith, hinner, hsplit, hname, parameter.ofText?_text, hread hpart,
    Option.bind_eq_bind, Option.bind_some]
  rw [← List.singleton_append, hrange]
  rfl

end Sequential

/-! ### Branches -/

namespace Branch

variable {room k : Nat} {choice : Choice} {body : Sequential}

/-- A branch is cut at the arrow after its choice. -/
theorem cutOuter?_arrow (hc : choice.ReadsBack room) {g u : Text} (hg : IsPad g) (hu : AtLineEnd u) :
    cutOuter? "=>".toList (g ++ (choice.text ++ ' ' :: ("=>".toList ++ u)))
      = some (g ++ (choice.text ++ [' ']), u) := by
  have hnext : u.head?.all isAsciiBlank = true := by
    obtain rfl | ⟨v, rfl⟩ := hu.cases <;> rfl
  have hfit : FitAll none (pad g ++ (choice.tokens ++ [mark ' ']) ++ [symbol "=>".toList]) u.head? := by
    rw [List.append_assoc, List.append_assoc]
    refine fitAll_append.2 ⟨hg.fitAll, ?_⟩
    rw [render_pad]
    exact fitAll_arrow hc (hg.opens rfl) hnext
  have hlacks : Lacks "=>".toList (pad g ++ (choice.tokens ++ [mark ' '])) :=
    lacks_append.2 ⟨lacks_pad (by decide) hg, lacks_append.2 ⟨hc.lacks_arrow, by decide⟩⟩
  have := cutOuter?_token (.inr (by decide)) hfit hlacks (by decide) rfl
  simpa [hc.render_tokens] using this

/-- Where the next branch starts. -/
theorem clause?_when (hb : body.IsBlock) {after : Text} (hafter : after.head?.any isIdentChar = false) :
    clause? ["when".toList]
        (Sequential.block (k + 1) body ++ (lineBreak k ++ ("when".toList ++ after)))
      = some ((Sequential.block (k + 1) body ++ lineBreak k).length, 0) := by
  have hregion := hb.region (k + 1) isPad_nil atLineEnd_nil
  rw [List.append_nil] at hregion
  exact hregion.clause?_append (by decide) (isPad_lineBreak k) (atLineEnd_lineBreak k [])
    (List.cons_ne_nil _ _) (by decide) hafter (by decide)

/-- One branch is cut off where the next one starts. -/
theorem split?_head (hc : choice.ReadsBack room) (fuel : Nat) {u : Text} (hu : AtLineEnd u) :
    split? (fuel + 1) (head choice ++ u) = match clause? ["when".toList] u with
      | none => some [head choice ++ u]
      | some (i, _) => (split? fuel (u.drop i)).map ((head choice ++ u.take i) :: ·) := by
  have hbytes : dropBytes 4 (head choice ++ u)
      = [' '] ++ (choice.text ++ ' ' :: ("=>".toList ++ u)) := by
    have hword := dropBytes_append "when".toList ([' '] ++ (choice.text ++ ' ' :: ("=>".toList ++ u)))
    have hlength : byteLength "when".toList = 4 := by decide
    rw [hlength] at hword
    rw [← hword, head]
    simp only [List.append_assoc, List.cons_append, List.nil_append]
  have hlength : ∀ i, (head choice ++ u).length - u.length + i = (head choice).length + i := by
    intro i
    rw [List.length_append]
    omega
  rw [split?, hbytes, cutOuter?_arrow hc isPad_blank hu]
  simp only [Option.bind_eq_bind, Option.bind_some, hlength, List.take_length_add_append,
    List.drop_length_add_append]
  cases clause? ["when".toList] u with
  | none => rfl
  | some p =>
    obtain ⟨i, j⟩ := p
    simp only [Option.map_eq_bind]
    rfl

theorem exists_when (k : Nat) (b : Branch) (u : Text) : ∃ after,
    b.block k ++ u = "when".toList ++ after ∧ after.head?.any isIdentChar = false := by
  obtain ⟨choice, body⟩ := b
  refine ⟨' ' :: (choice.text ++ ' ' :: "=>".toList) ++ Sequential.block (k + 1) body ++ u, ?_, rfl⟩
  rw [block, head]
  simp only [List.append_assoc]

/-- **The branches of a `case` statement are cut apart**, each with the line break after it. -/
theorem split?_stack {whole : Text} (b : Branch) (bs : List Branch)
    (h : ∀ b' ∈ b :: bs, b'.IsLaid room) {fuel : Nat} (hfuel : bs.length < fuel)
    (hwhole : b.block k ++ stack k (bs.map (Branch.block k)) <:+: whole) :
    ∃ parts, split? fuel (b.block k ++ stack k (bs.map (Branch.block k))) = some parts ∧
      List.Forall₂ (fun part b' => part <:+: whole ∧
        ∃ g, IsPad g ∧ AtLineEnd g ∧ part = Branch.block k b' ++ g) parts (b :: bs) := by
  obtain ⟨choice, body⟩ := b
  obtain ⟨hc, hb⟩ := h _ List.mem_cons_self
  obtain ⟨fuel, rfl⟩ : ∃ n, fuel = n + 1 := ⟨fuel - 1, by omega⟩
  induction bs generalizing choice body fuel with
  | nil =>
    have hregion := hb.region (k + 1) isPad_nil atLineEnd_nil
    have hline := Sequential.IsBlock.atLineEnd body (k + 1) atLineEnd_nil
    rw [List.append_nil] at hregion hline
    rw [List.map_nil, stack_nil, List.append_nil] at hwhole ⊢
    refine ⟨[Branch.block k (.mk choice body)], ?_,
      .cons ⟨hwhole, [], isPad_nil, atLineEnd_nil, (List.append_nil _).symm⟩ .nil⟩
    rw [block, split?_head hc fuel hline, hregion.clause?_eq_none (by decide)]
  | cons next bs ih =>
    obtain ⟨choice', body'⟩ := next
    obtain ⟨hc', hb'⟩ := h _ (List.mem_cons_of_mem _ List.mem_cons_self)
    obtain ⟨fuel, rfl⟩ : ∃ n, fuel = n + 1 := ⟨fuel - 1, by simp at hfuel; omega⟩
    obtain ⟨after, hafter⟩ := exists_when k (.mk choice' body') (stack k (bs.map (Branch.block k)))
    have hsplit : Branch.block k (.mk choice body)
        ++ stack k ((Branch.mk choice' body' :: bs).map (Branch.block k))
          = head choice ++ (Sequential.block (k + 1) body ++ (lineBreak k ++ ("when".toList ++ after))) := by
      rw [List.map_cons, stack_cons, hafter.1, block, List.append_assoc]
    have hnext := clause?_when (k := k) hb hafter.2
    obtain ⟨htake, hdrop⟩ := Sequential.take_drop_block body k ("when".toList ++ after)
    rw [hsplit] at hwhole ⊢
    obtain ⟨parts, hparts, hall⟩ := ih choice' body'
      (fun b' hb' => h b' (List.mem_cons_of_mem _ hb')) (by
        rw [hafter.1]
        exact List.IsInfix.trans
          ⟨head choice ++ (Sequential.block (k + 1) body ++ lineBreak k), [], by simp⟩ hwhole)
      hc' hb' fuel (by simpa using hfuel)
    rw [hafter.1] at hparts
    refine ⟨(head choice ++ (Sequential.block (k + 1) body ++ lineBreak k)) :: parts, ?_, ?_⟩
    · rw [split?_head hc _ (Sequential.IsBlock.atLineEnd body (k + 1) (atLineEnd_lineBreak k _)), hnext]
      simp only [htake, hdrop, hparts, Option.map_some]
    · refine .cons ⟨?_, lineBreak k, isPad_lineBreak k, atLineEnd_lineBreak k [], ?_⟩ hall
      · exact List.IsInfix.trans ⟨[], "when".toList ++ after, by simp⟩ hwhole
      · rw [block, List.append_assoc]

/-- A branch is read if its body is. -/
theorem readWith_block {region : Text → Option Sequential} (hc : choice.ReadsBack room) {g : Text}
    (hline : AtLineEnd g)
    (hbody : region (Sequential.block (k + 1) body ++ g) = some body) :
    readWith room region (Branch.block k (.mk choice body) ++ g) = some (.mk choice body) := by
  have hu := Sequential.IsBlock.atLineEnd body (k + 1) hline
  have hsplit : Branch.block k (.mk choice body) ++ g = "when".toList ++ ' ' :: ([] ++
      (choice.text ++ ' ' :: ("=>".toList ++ (Sequential.block (k + 1) body ++ g)))) := by
    rw [block, head]
    simp only [List.append_assoc, List.cons_append, List.nil_append]
  have hhead : ([] ++ (choice.text ++ ' ' :: ("=>".toList
      ++ (Sequential.block (k + 1) body ++ g)))).head?.any isBlank = false := by
    rw [List.nil_append, List.head?_append_of_ne_nil _ hc.solid.ne_nil]
    exact hc.solid.head
  have hwhen : IsRun "when".toList := by decide
  have hword := afterWord?_blank hwhen hhead
  have hchoice := hc.reads [] [' '] isPad_nil isPad_blank
  rw [readWith, hsplit, hword]
  simp only [cutOuter?_arrow hc isPad_nil hu, hchoice, hbody, Option.bind_eq_bind, Option.bind_some]

end Branch

namespace Sequential

/-- The branches of a `case` statement are found, cut apart and read. -/
theorem ReadsUpTo.exists_branches {room k : Nat} {branches : List Branch} (h : ReadsUpTo room)
    (hne : branches ≠ [])
    (hchoices : ∀ choice body, Branch.mk choice body ∈ branches → choice.ReadsBack room)
    (hbodies : ∀ choice body, Branch.mk choice body ∈ branches → IsRegion room body)
    (hfits : fits Limits.blockBytes (stack k (branches.map (Branch.block k))) = true) :
    ∃ parts, clause? ["when".toList] (stack k (branches.map (Branch.block k)))
        = some ((lineBreak k).length, 0) ∧
      (trim ((stack k (branches.map (Branch.block k))).take (lineBreak k).length)).isEmpty = true ∧
      Branch.split? ((stack k (branches.map (Branch.block k))).length + 1)
        ((stack k (branches.map (Branch.block k))).drop (lineBreak k).length) = some parts ∧
      parts.mapM (Branch.readWith room (read room)) = some branches := by
  have hlaid : ∀ b ∈ branches, b.IsLaid room := by
    rintro ⟨choice, body⟩ hb
    exact ⟨hchoices choice body hb, (hbodies choice body hb).isBlock⟩
  have hlength := length_le_stack k (branches.map (Branch.block k))
  rw [List.length_map] at hlength
  obtain ⟨b, bs, rfl⟩ := List.exists_cons_of_ne_nil hne
  obtain ⟨after, hafter, hhead⟩ := Branch.exists_when k b (stack k (bs.map (Branch.block k)))
  have hfuel : bs.length < (stack k ((b :: bs).map (Branch.block k))).length + 1 := by
    rw [List.length_cons] at hlength
    omega
  have hwhole : b.block k ++ stack k (bs.map (Branch.block k))
      <:+: stack k ((b :: bs).map (Branch.block k)) :=
    ⟨lineBreak k, [], by rw [List.map_cons, stack_cons, List.append_nil]⟩
  obtain ⟨parts, hparts, hall⟩ := Branch.split?_stack b bs hlaid hfuel hwhole
  refine ⟨parts, ?_, ?_, ?_, ?_⟩
  · have hempty : Region true [] [] := .nil isPad_nil
    have hfound : clause? ["when".toList] ([] ++ (lineBreak k ++ ("when".toList ++ after)))
        = some (([] ++ lineBreak k).length, 0) :=
      hempty.clause?_append (by decide) (isPad_lineBreak k) (atLineEnd_lineBreak k [])
        (List.cons_ne_nil _ _) (by decide) hhead (by decide)
    rw [List.map_cons, stack_cons, hafter]
    simpa using hfound
  · have htrim : trim (lineBreak k) = [] := by
      have : trim (lineBreak k ++ [] ++ []) = [] :=
        trim_pad_trimmed (isPad_lineBreak k).all_isBlank trimmed_nil rfl
      rwa [List.append_nil, List.append_nil] at this
    rw [List.map_cons, stack_cons, List.take_left, htrim]
    rfl
  · have hdrop : (stack k ((b :: bs).map (Branch.block k))).drop (lineBreak k).length
        = b.block k ++ stack k (bs.map (Branch.block k)) := by
      rw [List.map_cons, stack_cons, List.drop_left]
    rw [hdrop, hparts]
  · refine mapM_of_forall₂ ?_
    have hmem := (List.forall₂_and_left _ _).2 ⟨fun b' (hb' : b' ∈ b :: bs) => hb', hall.flip⟩
    refine hmem.flip.imp ?_
    rintro part ⟨choice, body⟩ ⟨hb, hinfix, g, hg, hline, rfl⟩
    refine Branch.readWith_block (hchoices choice body hb) hline ?_
    refine h.region (hbodies choice body hb) (k + 1) hg hline (fits_of_isInfix hfits ?_)
    exact List.IsInfix.trans ⟨Branch.head choice, [], by simp [Branch.block]⟩ hinfix

/-- A `case` statement is read if the bodies of its branches are. -/
theorem ReadsUpTo.readSelection {room k : Nat} {selector : Expr} {branches : List Branch}
    (h : ReadsUpTo room) (he : IsElement (room + 1) (.selection selector branches))
    (hfits : fits Limits.blockBytes (shift k (Sequential.selection selector branches).text) = true) :
    Sequential.readSelection (room + 1) (shift k (Sequential.selection selector branches).text)
      = some (.selection selector branches) := by
  cases he with
  | selection hs hne hchoices hbodies =>
    have hlaid : ∀ b ∈ branches, b.IsLaid room := by
      rintro ⟨choice, body⟩ hb
      exact ⟨hchoices choice body hb, (hbodies choice body hb).isBlock⟩
    have his : IsName "is".toList := by decide
    have hstatement := isStatement_selection hs hlaid k
    rw [shift_selection hs hlaid] at hfits hstatement ⊢
    have hpart := fits_of_isInfix hfits (isInfix_construct ..)
    have hsolid : Solid ((selector.text ++ ' ' :: "is".toList)
        ++ stack (k + 1) (branches.map (Branch.block (k + 1)))) := by
      refine (hs.solid.between his.isRun.solid [' ']).stack (fun x hx => ?_) (k + 1)
      obtain ⟨⟨choice, body⟩, hb, rfl⟩ := List.mem_map.1 hx
      exact (hlaid _ hb).2.solid _ (Branch.solid_head choice)
    have hinner := interior?_construct (by decide) isPad_blank (List.cons_ne_nil _ _)
      (isPad_lineBreak k) (List.cons_ne_nil _ _) (by decide) hsolid hstatement hfits
    have hcut := cutOuter?_phrase hs.isPhrase
      (lacks_of_isCalm (isForeign_words _ (by decide)) hs.isCalm) his
      (atLineEnd_stack (k + 1) (branches.map (Branch.block (k + 1))) atLineEnd_nil).ident
    have hselector := hs.reads [] [' '] isPad_nil isPad_blank
    obtain ⟨parts, hfirst, hempty, hparts, hread⟩ := h.exists_branches hne hchoices hbodies hpart
    rw [selector.render_tokens, List.append_nil] at hcut
    rw [List.nil_append] at hselector
    rw [List.append_assoc, List.cons_append] at hinner
    simp only [Sequential.readSelection, readSelectionWith, hinner, hcut, hselector, hfirst, hempty,
      hparts, hread, Bool.not_true, Bool.false_eq_true, if_false, Option.bind_eq_bind,
      Option.bind_some]

/-! ### The induction on the room -/

theorem IsRegion.isElement {room : Nat} {s e : Sequential} (h : IsRegion (room + 1) s)
    (he : e ∈ s.elements) : IsElement room e := by
  cases h with
  | single hs =>
    rw [hs.elements, List.mem_singleton] at he
    rwa [he]
  | several _ hes => exact hes e he

/-- A compound statement is read by the reader that its first word selects. -/
theorem readPieceWith_word {room : Nat} {w g x v inner g' : Text} {ks : List Text}
    (hw : w ∈ ["if".toList, "case".toList, "for".toList]) (hg : IsPad g) (hne : g ≠ []) :
    readPieceWith room (readElement room) (.code (construct w g x v inner g' ks) none)
      = (if w = "if".toList then readConditional room (construct w g x v inner g' ks)
        else if w = "case".toList then readSelection room (construct w g x v inner g' ks)
        else readLoop room (construct w g x v inner g' ks)).map ([·]) := by
  have hwords : ∀ w ∈ ["if".toList, "case".toList, "for".toList], IsRun w
      ∧ w.head?.any isBlank = false ∧ (∀ c ∈ ObjectClass.all, sameWord c.keyword.toList w = false)
      ∧ sameWord "if".toList w = (w == "if".toList)
      ∧ sameWord "case".toList w = (w == "case".toList)
      ∧ sameWord "for".toList w = (w == "for".toList) := by decide
  obtain ⟨hrun, hhead, hclass, hif, hcase, hfor⟩ := hwords w hw
  rw [readPieceWith_construct hrun hg hne hhead fun c => hclass c (by cases c <;> decide),
    readElement, startsWith_construct hrun (by decide) hg hne,
    startsWith_construct hrun (by decide) hg hne, startsWith_construct hrun (by decide) hg hne, hif,
    hcase, hfor]
  simp only [List.mem_cons, List.not_mem_nil, or_false] at hw
  rcases hw with rfl | rfl | rfl <;> rfl

/-- **A reader with some room returns what reads back within it.** -/
theorem readsUpTo (room : Nat) : ReadsUpTo room := by
  induction room with
  | zero =>
    refine ⟨fun hs => ?_, fun he => ?_, fun he => ?_⟩
    · cases hs
    · cases he
    · cases he with
      | simple h => exact fun _ _ => readPieceWith_simple h
  | succ room ih =>
    refine ⟨fun {s} hs k g hg hline hfits => ?_, fun he k _ _ hg hne hg' hne' hline hfits =>
      ih.readConditional he hg hne hg' hne' hline hfits, fun {e} he k hfits => ?_⟩
    · refine read_of_region hs (hs.isBlock.region k hg hline) hfits fun e he => ?_
      refine ih.element (hs.isElement he) k (fits_of_isInfix hfits (isInfix_stack ?_ k g))
      exact List.mem_map.2 ⟨e, he, rfl⟩
    · have hall := he
      cases he with
      | simple h => exact readPieceWith_simple h
      | @conditional _ condition body otherwise hc hb ho hfinal =>
        have hpiece : (conditional condition body otherwise).piece k
            = .code (shift k (conditional condition body otherwise).text) none := rfl
        rw [shift_conditional hc hb.isBlock] at hfits
        rw [hpiece, shift_conditional hc hb.isBlock,
          readPieceWith_word (by decide) isPad_blank (List.cons_ne_nil _ _), if_pos rfl,
          ih.readConditional hall isPad_blank (List.cons_ne_nil _ _) (isPad_lineBreak k)
            (List.cons_ne_nil _ _) (fun _ => atLineEnd_lineBreak k []) hfits, Option.map_some]
      | @selection _ selector branches hs hne hchoices hbodies =>
        have hpiece : (selection selector branches).piece k
            = .code (shift k (selection selector branches).text) none := rfl
        have hread := ih.readSelection hall hfits
        have hlaid : ∀ b ∈ branches, b.IsLaid room := by
          rintro ⟨choice, body⟩ hb
          exact ⟨hchoices choice body hb, (hbodies choice body hb).isBlock⟩
        rw [shift_selection hs hlaid] at hread
        rw [hpiece, shift_selection hs hlaid,
          readPieceWith_word (by decide) isPad_blank (List.cons_ne_nil _ _), if_neg (by decide),
          if_pos rfl, hread, Option.map_some]
      | @loop _ parameter range body hr hb =>
        have hpiece : (loop parameter range body).piece k
            = .code (shift k (loop parameter range body).text) none := rfl
        have hread := ih.readLoop hr hb hfits
        rw [shift_loop hr hb.isBlock] at hread
        rw [hpiece, shift_loop hr hb.isBlock,
          readPieceWith_word (by decide) isPad_blank (List.cons_ne_nil _ _), if_neg (by decide),
          if_neg (by decide), hread, Option.map_some]

/-- **Sequential code is read from its text.** -/
theorem read_text_of_isRegion {room : Nat} {s : Sequential} (h : s.IsRegion room)
    (hfits : fits Limits.blockBytes s.text = true) : read room s.text = some s := by
  cases room with
  | zero => cases h
  | succ room =>
    have hregion : Region true (s.elements.map (piece 0)) s.text := by
      have := region_join (h.isBlock.forall₂_shows 0)
      simp only [shift_zero] at this
      rwa [text_eq_join]
    refine read_of_region h hregion hfits fun e he => ?_
    refine (readsUpTo room).element (h.isElement he) 0 (fits_of_isInfix hfits ?_)
    rw [shift_zero, text_eq_join s]
    exact isInfix_join (List.mem_map.2 ⟨e, he, rfl⟩)

/-! ## A region -/

theorem isIdent_probeName : isIdent ['a'] = true := by decide +kernel

/-- The name `a`. -/
def probeName : Ident := ⟨['a'], isIdent_probeName⟩

/-- The expression `a`. -/
def probeExpr : Expr := .reference (.name probeName)

theorem readsBack_probeExpr (room : Nat) : probeExpr.ReadsBack (room + 1) :=
  Expr.readsBack_of_isCanonical (by decide) (Nat.succ_le_succ (Nat.zero_le room)) (by decide)

theorem valued_probe : ObjectClass.var = .constant → (none : Option Expr).isSome = true := by decide

/-- A declaration with the comment ` end if; (`, and a conditional statement with an
`elsif` that holds a `case` statement and a loop. -/
def probe : Sequential :=
  .region [
    .simple (.declaration
      ⟨.var, probeName, .builtin (.scalar .bit), none, some ⟨" end if; (".toList⟩, valued_probe⟩),
    .conditional probeExpr (.region []) (some (.conditional probeExpr
      (.region [.simple (.comment ⟨" \"else".toList⟩), .simple .null])
      (some (.selection probeExpr [
        .mk (.alternatives [.value probeExpr, .range (.ascending probeExpr probeExpr)])
          (.simple (.assignment (.name probeName) .var probeExpr)),
        .mk .others (.loop probeName (.descending probeExpr probeExpr)
          (.simple (.result (some probeExpr))))]))))]

theorem read_probe : probe.IsRegion Limits.depth ∧ fits Limits.blockBytes probe.text = true ∧
    read Limits.depth probe.text = some probe := by
  have hrange : ∀ room, (Range.ascending probeExpr probeExpr).ReadsBack (room + 1)
      ∧ (Range.descending probeExpr probeExpr).ReadsBack (room + 1) := fun room =>
    ⟨Range.readsBack_of_isCanonical (by decide) (Nat.succ_le_succ (Nat.zero_le room)) (by decide),
      Range.readsBack_of_isCanonical (by decide) (Nat.succ_le_succ (Nat.zero_le room)) (by decide)⟩
  have hexpr := readsBack_probeExpr
  have hname : ∀ room, (Reference.name probeName).ReadsBack room := fun _ =>
    Reference.readsBack_name probeName (by decide)
  have hcomment : ∀ c ∈ [" end if; (", " \"else"], IsCommentText c.toList := by
    intro c hc
    have key : ∀ c ∈ [" end if; (", " \"else"], '\n' ∉ c.toList ∧ '\r' ∉ c.toList
        ∧ trimEnd c.toList = c.toList := by decide
    exact ⟨(key c hc).1, (key c hc).2.1, (key c hc).2.2⟩
  have hregion : probe.IsRegion Limits.depth := by
    refine .several (by decide) fun e he => ?_
    simp only [List.mem_cons, List.not_mem_nil, or_false] at he
    rcases he with rfl | rfl
    · exact .simple (.declaration ⟨⟨rfl, TypeMark.readsBack_scalar .bit, by simp⟩,
        fun c hc => Option.some.inj hc ▸ hcomment " end if; (" (by simp), by decide⟩)
    · refine .conditional (hexpr _) (.several (by decide) (by simp)) (.elsif ?_) (fun _ => by decide)
      refine .conditional (hexpr _) (.several (by decide) ?_) (.other rfl (.single ?_)) (by decide)
      · simp only [List.mem_cons, List.not_mem_nil, or_false, forall_eq_or_imp, forall_eq]
        exact ⟨.simple (.comment (hcomment _ (by simp))), .simple .null⟩
      · refine .selection (hexpr _) (by simp) ?_ ?_
        · simp only [List.mem_cons, List.not_mem_nil, or_false, Branch.mk.injEq]
          rintro choice body (⟨rfl, rfl⟩ | ⟨rfl, rfl⟩)
          · refine .alternatives (by decide) ?_
            simp only [List.mem_cons, List.not_mem_nil, or_false, forall_eq_or_imp, forall_eq]
            exact ⟨.value (hexpr _), .range (hrange _).1⟩
          · exact .others
        · simp only [List.mem_cons, List.not_mem_nil, or_false, Branch.mk.injEq]
          rintro choice body (⟨rfl, rfl⟩ | ⟨rfl, rfl⟩)
          · exact .single (.simple (.assignment (hname _) (hexpr _) (by decide)))
          · exact .single (.loop (hrange _).2 (.single (.simple (.result (hexpr _) (by decide)))))
  have hfits : fits Limits.blockBytes probe.text = true := by decide +kernel
  exact ⟨hregion, hfits, read_text_of_isRegion hregion hfits⟩

/-- A `case` statement with one branch that does nothing. -/
def selecting (choice : Choice) : Sequential :=
  .selection probeExpr [.mk choice (.simple .null)]

/-- Choices with a bar that the reader refuses or takes apart, though their parts read
back: `others` among several, a choice among several that has bars itself, and a single
choice where several are expected. -/
theorem read_selecting_ne :
    probeExpr.ReadsBack (Limits.depth - 2) ∧
      (Sequential.simple .null).IsRegion (Limits.depth - 2) ∧
      ∀ choice ∈ [Choice.alternatives [.value probeExpr, .others],
          Choice.alternatives [.value probeExpr, .alternatives [.value probeExpr, .value probeExpr]],
          Choice.alternatives [.value probeExpr]],
        fits Limits.blockBytes (selecting choice).text = true ∧
          read Limits.depth (selecting choice).text ≠ some (selecting choice) := by
  refine ⟨readsBack_probeExpr _, .single (.simple .null), fun choice hchoice => ?_⟩
  have key : ∀ choice ∈ [Choice.alternatives [.value probeExpr, .others],
      Choice.alternatives [.value probeExpr, .alternatives [.value probeExpr, .value probeExpr]],
      Choice.alternatives [.value probeExpr]],
      fits Limits.blockBytes (selecting choice).text = true ∧
        (selecting choice).same (selecting choice) = true ∧
        (read Limits.depth (selecting choice).text).any (·.same (selecting choice)) = false := by
    decide +kernel
  obtain ⟨hfits, hsame, hread⟩ := key choice hchoice
  refine ⟨hfits, fun h => ?_⟩
  rw [h, Option.any_some, hsame] at hread
  cases hread

end Sequential
end CanonicalVhdl
