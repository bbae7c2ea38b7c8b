import CanonicalVhdl.Proofs.Concurrent.Layout
import CanonicalVhdl.Proofs.Region.Concatenation
import CanonicalVhdl.Proofs.Sequential.ReadBack

/-!
# Concurrent code reads back

The text of a region is read as the region it was printed from, however its generated regions
are nested, if every part of it reads back and it is not too long.  What an element is shows
in its label and the word behind that: an assignment has neither a label nor the word
`process`, and the source of an instance starts with `component` or `entity`.

## Main definitions

* `Concurrent.ReadsUpTo room` — a reader with some room returns regions and elements.

## Main statements

* `ProcessStatement.ReadsBack.read_shift` — a process is read from its text.
* `Concurrent.readsUpTo` — the induction on the room of the reader.
* `Concurrent.read_region_text` — concurrent code is read from its text.
-/

namespace CanonicalVhdl

open Text Token

/-! ## The first word -/

/-- A clause is found at the head of a text that starts with its word. -/
theorem Text.clause?_first {k u : Text} (hk : IsName k) (hu : u.head?.any isIdentChar = false) :
    clause? [k] (k ++ u) = some (0, 0) := by
  have hfind : ([k].findIdx? fun w => sameWord w k) = some 0 := by
    rw [List.findIdx?_cons, sameWord_self]
    rfl
  exact clauseFrom?_word (List.forall_mem_singleton.2 hk.isRun) hk hu hfind _ 0 none

/-! ## Sensitivity lists -/

namespace ProcessStatement

theorem forall₂_nameTokens (names : List Ident) :
    List.Forall₂ (fun ts n => trim (render ts) = n.text) (nameTokens names) names := by
  have hname : ∀ n : Ident, trim n.text = n.text := fun n => trim_eq_self n.isRun.trimmed
  cases names with
  | nil => exact .nil
  | cons n ns =>
    refine .cons (by simp [hname]) ?_
    rw [List.forall₂_map_left_iff, List.forall₂_same]
    intro m _
    have hpad : trim ([' '] ++ m.text ++ []) = m.text := trim_pad_trimmed rfl m.isRun.trimmed rfl
    simpa using hpad

/-- The names of a sensitivity list are cut apart and read. -/
theorem readSensitivity_names {names : List Ident} (hne : names ≠ [])
    (hdistinct : Ident.distinct names = true) :
    readSensitivity (render (commas (nameTokens names))) = some names := by
  have hpieces : nameTokens names ≠ [] := by
    obtain ⟨n, ns, rfl⟩ := List.exists_cons_of_ne_nil hne
    exact List.cons_ne_nil _ _
  have hmap : ((nameTokens names).map render).mapM (fun name => Ident.ofText? (trim name))
      = some names := by
    refine mapM_of_forall₂ ?_
    rw [List.forall₂_map_left_iff]
    refine (forall₂_nameTokens names).imp fun ts n htrim => ?_
    rw [htrim, n.ofText?_text]
  rw [readSensitivity, splitOuter_commas hpieces
    (fun ts hts => (isPhrase_lacks_nameTokens names ts hts).1)
    fun ts hts => (isPhrase_lacks_nameTokens names ts hts).2, hmap]
  simp only [Option.bind_eq_bind, Option.bind_some, hdistinct, if_true]

/-! ## Declarative parts -/

variable {room : Nat} {p : ProcessStatement}

/-- A declaration or a comment line starts with neither the word `is` nor a parenthesis. -/
theorem Declares.first {s : Statement} (h : Declares room s) (u : Text) :
    afterWord? "is".toList (s.text ++ u) = none ∧ (s.text ++ u).head? ≠ some '(' := by
  have his : IsRun "is".toList := by decide
  cases h with
  | @declaration d h =>
    have hclass : ∀ c : ObjectClass, sameWord "is".toList c.keyword.toList = false
        ∧ c.keyword.toList.head? ≠ some '(' := by
      intro c
      cases c <;> decide
    obtain ⟨r, hr⟩ : ∃ r, d.text = d.objectClass.keyword.toList ++ ' ' :: r := by
      rw [ObjectDecl.text_eq, ObjectDecl.code_eq, List.append_assoc, List.append_assoc, List.cons_append]
      exact ⟨_, rfl⟩
    have hrun := d.objectClass.isName.isRun
    have htext : (Statement.declaration d).text = d.text := rfl
    rw [htext, hr, List.append_assoc, afterWord?_first his hrun rfl, (hclass _).1,
      List.head?_append_of_ne_nil _ hrun.ne_nil]
    exact ⟨rfl, (hclass _).2⟩
  | @comment c h =>
    have htext : (Statement.comment c).text = '-' :: '-' :: c.text := rfl
    rw [htext, List.cons_append]
    exact ⟨afterWord?_eq_none his (by decide) (by decide), by simp⟩

theorem ReadsBack.forall₂_shows (h : p.ReadsBack room) :
    List.Forall₂ (Shows true) (p.declarations.map Statement.piece)
      (p.declarations.map Statement.text) := by
  rw [List.forall₂_map_left_iff, List.forall₂_map_right_iff, List.forall₂_same]
  exact fun s hs => (h.declarations s hs).readsBack.shows

/-- The block of the declarations is a stack of their texts, each of one line. -/
theorem ReadsBack.block_declarativePart (h : p.ReadsBack room) (k : Nat) :
    Sequential.block k p.declarativePart = stack k (p.declarations.map Statement.text) := by
  have hblock : Sequential.block k p.declarativePart
      = stack k ((p.declarations.map Sequential.simple).map fun e => shift k e.text) := rfl
  rw [hblock, List.map_map]
  congr 1
  refine List.map_congr_left fun s hs => ?_
  exact shift_of_not_mem (h.declarations s hs).readsBack.newline_not_mem k

/-- The word `begin` is found behind the declarations, the padding before them aside. -/
theorem exists_declarations {ds : List Statement} (h : ∀ s ∈ ds, Declares room s) (j k : Nat) {u : Text}
    (hu : u.head?.any isIdentChar = false) :
    ∃ d, trimStart (stack j (ds.map Statement.text) ++ (lineBreak k ++ ("begin".toList ++ u)))
        = d ++ ("begin".toList ++ u) ∧ Region true (ds.map Statement.piece) d ∧
      clause? ["begin".toList] (d ++ ("begin".toList ++ u)) = some (d.length, 0) ∧
      afterWord? "is".toList (d ++ ("begin".toList ++ u)) = none ∧
      (d ++ ("begin".toList ++ u)).head? ≠ some '(' := by
  have his : IsRun "is".toList := by decide
  have hbegin : IsName "begin".toList := by decide
  have hstart : trimStart ("begin".toList ++ u) = "begin".toList ++ u := trimStart_eq_self rfl
  cases ds with
  | nil =>
    refine ⟨[], ?_, .nil isPad_nil, ?_, ?_, by simp⟩
    · rw [List.map_nil, stack_nil, List.nil_append, trimStart_append (isPad_lineBreak k).all_isBlank,
        hstart]
      rfl
    · exact clause?_first hbegin hu
    · rw [List.nil_append, afterWord?_first his hbegin.isRun hu, if_neg (by decide)]
  | cons s ss =>
    obtain ⟨hs, hss⟩ := List.forall_mem_cons.1 h
    have hsolid := hs.readsBack.shows.solid
    have hshows : List.Forall₂ (Shows true) (ss.map Statement.piece) (ss.map Statement.text) := by
      rw [List.forall₂_map_left_iff, List.forall₂_map_right_iff, List.forall₂_same]
      exact fun s hs => (hss s hs).readsBack.shows
    have hregion : ∀ {g : Text}, IsPad g → AtLineEnd g → Region true ((s :: ss).map Statement.piece)
        (s.text ++ (stack j (ss.map Statement.text) ++ g)) := by
      intro g hg hline
      have := Region.cons (g := []) isPad_nil hs.readsBack.shows (atLineEnd_stack j _ hline)
        (region_stack hshows j hg hline)
      rwa [List.nil_append] at this
    have hwords : ∀ w ∈ ["begin".toList], w ∈ dividingWords := by decide
    have hfind : (["begin".toList].findIdx? fun w => sameWord w "begin".toList) = some 0 := by decide
    have hclause := (hregion isPad_nil atLineEnd_nil).clause?_append hwords (isPad_lineBreak k)
      (atLineEnd_lineBreak k []) (List.cons_ne_nil _ _) hbegin hu hfind
    refine ⟨s.text ++ (stack j (ss.map Statement.text) ++ lineBreak k), ?_,
      hregion (isPad_lineBreak k) (atLineEnd_lineBreak k []), ?_, ?_⟩
    · rw [List.map_cons, stack_cons, List.append_assoc, List.append_assoc,
        trimStart_append (isPad_lineBreak j).all_isBlank, trimStart_eq_self]
      · simp only [List.append_assoc]
      · rw [List.head?_append_of_ne_nil _ hsolid.ne_nil]
        exact hsolid.head
    · rw [List.append_nil] at hclause
      simpa only [List.append_assoc] using hclause
    · rw [List.append_assoc]
      exact hs.first _

/-- What stands before the closing clause of a process is cut into the sensitivity list, the
declarations and the body. -/
theorem ReadsBack.exists_cuts (h : p.ReadsBack room) (k : Nat) :
    ∃ x d, (∀ u, trimStart (p.sensitivityText ++ (p.interior k ++ u)) = x ++ u) ∧
      x.getLast?.any isBlank = false ∧
      splitSensitivity? x = some (p.sensitivity,
        d ++ ("begin".toList ++ Sequential.block (k + 1) p.body)) ∧
      afterWord? "is".toList (d ++ ("begin".toList ++ Sequential.block (k + 1) p.body)) = none ∧
      cutClause? "begin".toList (d ++ ("begin".toList ++ Sequential.block (k + 1) p.body))
        = some (d, Sequential.block (k + 1) p.body) ∧
      Region true (p.declarations.map Statement.piece) d := by
  have hb := h.body.isBlock
  have hhead := Sequential.newline_head_block p.body (k + 1) atLineEnd_nil
  rw [List.append_nil] at hhead
  obtain ⟨d, htrim, hregion, hclause, his, hparen⟩ := exists_declarations h.declarations (k + 1) k hhead
  rw [← h.block_declarativePart, ← interior] at htrim
  have hsolid : Solid ("begin".toList ++ Sequential.block (k + 1) p.body) :=
    hb.solid (k + 1) (show IsRun "begin".toList by decide).solid
  have hlast : ∀ a : Text,
      (a ++ ("begin".toList ++ Sequential.block (k + 1) p.body)).getLast?.any isBlank = false := by
    intro a
    rw [List.getLast?_append_of_ne_nil _ hsolid.ne_nil]
    exact hsolid.last
  have hcut : cutClause? "begin".toList (d ++ ("begin".toList ++ Sequential.block (k + 1) p.body))
      = some (d, Sequential.block (k + 1) p.body) := by
    rw [cutClause?, hclause, Option.map_some]
    simp only [List.take_left, List.drop_left, dropBytes_append]
  by_cases hnil : p.sensitivity = []
  · have htext : p.sensitivityText = [] := by rw [sensitivityText, hnil]; rfl
    refine ⟨_, d, fun u => ?_, hlast d, ?_, his, hcut, hregion⟩
    · have hne : (List.dropWhile isBlank (p.interior k)).isEmpty = false := by
        have : trimStart (p.interior k) ≠ [] := by
          rw [htrim]
          simp
        simpa [trimStart] using this
      have hstart : trimStart (p.interior k ++ u) = trimStart (p.interior k) ++ u := by
        rw [trimStart, List.dropWhile_append, hne]
        rfl
      rw [htext, List.nil_append, hstart, htrim]
    · rw [splitSensitivity?, if_neg (by simpa using hparen), hnil]
  · have hempty : p.sensitivity.isEmpty = false := by simpa using hnil
    have htext : p.sensitivityText = (group (commas (nameTokens p.sensitivity))).text := by
      rw [sensitivityText, hempty, text_group]
      rfl
    have hphrase : IsPhrase (commas (nameTokens p.sensitivity)) :=
      isPhrase_commas fun ts hts => (isPhrase_lacks_nameTokens p.sensitivity ts hts).1
    refine ⟨p.sensitivityText ++ p.interior k, d, fun u => ?_, ?_, ?_, his, hcut, hregion⟩
    · rw [← List.append_assoc, trimStart_eq_self]
      rw [htext]
      rfl
    · rw [interior, ← List.append_assoc, ← List.append_assoc]
      exact hlast _
    · have hparens := parenthesised?_group (u := p.interior k) (hphrase _ _ rfl rfl)
      have hopen : (p.sensitivityText ++ p.interior k).head? = some '(' := by rw [htext]; rfl
      rw [splitSensitivity?, hopen, htext, hparens]
      simp only [readSensitivity_names hnil h.distinct, htrim, Option.bind_eq_bind, Option.bind_some]
      rfl

/-- The declarations of a process are read from their region. -/
theorem ReadsBack.readDeclarations (h : p.ReadsBack room) {d : Text}
    (hregion : Region true (p.declarations.map Statement.piece) d) :
    Statement.readDeclarations room d = some p.declarations := by
  rw [Statement.readDeclarations, hregion.pieces?, Option.bind_eq_bind, Option.bind_some]
  refine mapM_of_forall₂ ?_
  rw [List.forall₂_map_left_iff, List.forall₂_same]
  intro s hs
  cases h.declarations s hs with
  | @declaration d hd =>
    have hpiece : (Statement.declaration d).piece = .code d.code (d.comment.map (·.text)) := rfl
    rw [hpiece]
    simp only [hd.readWithTrailer, Option.map_some]
  | @comment c hc =>
    have hpiece : (Statement.comment c).piece = .comment c.text := rfl
    rw [hpiece]
    simp only [hc.ofText?, Option.map_some]

/-- The sensitivity list and the interior of a process end the word before them. -/
theorem head?_interior (k : Nat) (p : ProcessStatement) (u : Text) :
    (p.sensitivityText ++ (p.interior k ++ u)).head?.any isIdentChar = false := by
  rw [sensitivityText]
  split
  · have hline := Sequential.IsBlock.atLineEnd p.declarativePart (k + 1)
      (atLineEnd_lineBreak k ("begin".toList ++ Sequential.block (k + 1) p.body ++ u))
    rw [interior, List.nil_append]
    simpa only [List.append_assoc] using hline.ident
  · rfl

/-- A process behind its label, with `k` steps of indentation. -/
def unlabelled (k : Nat) (p : ProcessStatement) : Text :=
  render p.lineTokens ++ (p.interior k ++ (lineBreak k ++ ("end".toList
    ++ clauseEnd ("process".toList :: p.label.toList.map (·.text)))))

theorem unlabelled_eq (k : Nat) (p : ProcessStatement) :
    p.unlabelled k = "process".toList ++ (p.sensitivityText ++ (p.interior k ++ (lineBreak k
      ++ ("end".toList ++ clauseEnd ("process".toList :: p.label.toList.map (·.text)))))) := by
  rw [unlabelled, render_lineTokens, List.append_assoc]

/-- A process is read behind its label. -/
theorem ReadsBack.readLabelled (h : p.ReadsBack room) (k : Nat)
    (hfits : fits Limits.blockBytes (Sequential.block (k + 1) p.body) = true) :
    ProcessStatement.readLabelled room p.label (p.unlabelled k) = some p := by
  have hprocess : IsRun "process".toList := by decide
  obtain ⟨x, d, hstart, hlast, hsensitivity, his, hcut, hregion⟩ := h.exists_cuts k
  have hbody := (Sequential.readsUpTo room).region h.body (k + 1) isPad_nil atLineEnd_nil
  rw [List.append_nil] at hbody
  have hafter : ∀ u, afterWord? "process".toList ("process".toList ++ (p.sensitivityText
      ++ (p.interior k ++ u))) = some (x ++ u) := by
    intro u
    rw [afterWord?_first hprocess hprocess (p.head?_interior k u), hstart, if_pos (sameWord_self _)]
  have hend : beforeEnd? ["process".toList] true (p.label.map (·.text)) (x ++ (lineBreak k
      ++ ("end".toList ++ clauseEnd ("process".toList :: p.label.toList.map (·.text))))) = some x := by
    cases p.label with
    | none =>
      have hclause := beforeEnd?_clause (x := x) hprocess (isPad_lineBreak k).all_isBlank
        (List.cons_ne_nil _ _)
      rw [trimEnd_eq_self hlast] at hclause
      have hend : "end ".toList = "end".toList ++ [' '] := rfl
      rw [hend] at hclause
      simpa [clauseEnd] using hclause
    | some label => exact beforeEnd?_closing hprocess label.isRun k hlast
  simp only [ProcessStatement.readLabelled, unlabelled_eq, hafter, hend, hsensitivity, his,
    Option.getD_none, hcut, h.readDeclarations hregion, hbody hfits, Option.bind_eq_bind,
    Option.bind_some]

/-- The label of a process is split off, if it has one. -/
theorem ReadsBack.labelled?_shift (h : p.ReadsBack room) (k : Nat) :
    labelled? (shift k p.text) = p.label.map (·, p.unlabelled k)
      ∧ (p.label = none → shift k p.text = p.unlabelled k) := by
  have hrun : IsRun "process".toList := by decide
  have hbarred : IsBarred "process".toList := by decide +kernel
  have hhead : (p.unlabelled k).head?.any isBlank = false := by
    rw [unlabelled_eq, List.head?_append_of_ne_nil _ hrun.ne_nil]
    exact hrun.trimmed.head
  have hstart : standsAt "process".toList none (trimStart (p.unlabelled k)) = true := by
    rw [trimStart_eq_self hhead, unlabelled_eq, standsAt_run hbarred.isPattern hrun rfl
      (p.head?_interior k _)]
    decide
  have htext : ∀ ts : List Token, render (ts ++ p.lineTokens) ++ (p.interior k ++ (lineBreak k
      ++ ("end".toList ++ clauseEnd ("process".toList :: p.label.toList.map (·.text)))))
        = render ts ++ p.unlabelled k := by
    intro ts
    rw [render_append, unlabelled, List.append_assoc]
  rw [h.shift_text, ← p.render_headTokens, headTokens, htext]
  cases p.label with
  | none =>
    rw [Option.elim, render_nil, List.nil_append, Option.map_none]
    exact ⟨labelled?_eq_none_of_barred hbarred (by decide) hstart, fun _ => rfl⟩
  | some label =>
    have hlabel := labelled?_text label hhead
    refine ⟨?_, fun h => absurd h (Option.some_ne_none label)⟩
    rw [Option.map_some, ← hlabel]
    simp

/-- **A process is read from its text**, wherever it stands. -/
theorem ReadsBack.read_shift (h : p.ReadsBack room) (k : Nat)
    (hfits : fits Limits.blockBytes (shift k p.text) = true) :
    ProcessStatement.read (room + 1) (shift k p.text) = some p := by
  have hstatement : IsStatement true (shift k p.text) := h.isStatement k
  have hbody : fits Limits.blockBytes (Sequential.block (k + 1) p.body) = true := by
    refine fits_of_isInfix hfits ?_
    rw [h.shift_text, interior]
    exact ⟨p.head ++ (Sequential.block (k + 1) p.declarativePart ++ (lineBreak k ++ "begin".toList)), _,
      by simp only [List.append_assoc]; rfl⟩
  obtain ⟨hlabel, hnone⟩ := h.labelled?_shift k
  have hread := h.readLabelled k hbody
  rw [ProcessStatement.read, trim_eq_self hstatement.solid.toTrimmed, hfits, hstatement.isConstruct,
    hlabel]
  simp only [Bool.not_true, Bool.or_self, Bool.false_eq_true, if_false]
  cases hcase : p.label with
  | none =>
    rw [hcase] at hread
    rw [Option.map_none, hnone hcase]
    exact hread
  | some label =>
    rw [hcase] at hread
    exact hread

end ProcessStatement

/-! ## Regions -/

namespace Concurrent

theorem IsRegion.ofElements {room : Nat} {c : Concurrent} (h : IsRegion room c) :
    ofElements c.elements = c := by
  cases h with
  | single hc => rw [hc.elements]; rfl
  | @several room cs hlen _ =>
    rw [elements]
    rcases cs with _ | ⟨c, _ | ⟨c', cs⟩⟩
    · rfl
    · exact absurd rfl hlen
    · rfl

theorem IsRegion.isElement {room : Nat} {c e : Concurrent} (h : IsRegion (room + 1) c)
    (he : e ∈ c.elements) : IsElement room e := by
  cases h with
  | single hc =>
    rw [hc.elements, List.mem_singleton] at he
    rwa [he]
  | several _ hcs => exact hcs e he

/-- A region is read if its elements are. -/
theorem read_of_region {room k : Nat} {c : Concurrent} {t : Text} (hc : IsRegion (room + 1) c)
    (hregion : Region false (c.elements.map (piece k)) t) (hfits : fits Limits.blockBytes t = true)
    (helements : ∀ e ∈ c.elements, readPieceWith (readElement room) (e.piece k) = some [e]) :
    read (room + 1) t = some c := by
  have hmap : (c.elements.map (piece k)).mapM (readPieceWith (readElement room))
      = some (c.elements.map ([·])) := by
    refine mapM_of_forall₂ ?_
    rw [List.forall₂_map_left_iff, List.forall₂_map_right_iff, List.forall₂_same]
    exact helements
  have hflatten : (c.elements.map ([·])).flatten = c.elements := by
    rw [← List.flatMap_def, List.flatMap_singleton']
  rw [read_succ, hfits]
  simp only [Bool.not_true, Bool.false_eq_true, if_false, hregion.pieces?, hmap, Option.bind_some,
    hflatten, hc.ofElements]

/-! ## Elements -/

section Elements

variable {room k : Nat}

theorem readPieceWith_code {statement : Text → Option Concurrent} {t : Text} {c : Concurrent}
    (h : statement t = some c) : readPieceWith statement (.code t none) = some [c] := by
  rw [readPieceWith, h]
  rfl

theorem readPieceWith_simple {s : ConcurrentStatement} (h : s.ReadsBack room) :
    readPieceWith (readElement room) ((simple s).piece k) = some [simple s] := by
  cases h with
  | @comment c hc =>
    have hpiece : (simple (.comment c)).piece k = .comment c.text := rfl
    rw [hpiece, readPieceWith, hc.ofText?]
    rfl
  | @assignment target value htarget hvalue hfits =>
    have hpiece : (simple (.assignment target value)).piece k
        = .code (shift k (ConcurrentStatement.assignment target value).text) none := rfl
    obtain ⟨hlabel, hprocess⟩ := ConcurrentStatement.labelled?_assignment htarget value
    rw [hpiece, shift_of_not_mem (ConcurrentStatement.newline_not_mem_assignment htarget hvalue)]
    refine readPieceWith_code ?_
    rw [readElement, hlabel]
    simp only [hprocess, Bool.false_eq_true, if_false,
      ConcurrentStatement.read_assignment htarget hvalue hfits, Option.map_some]

theorem readElement_process {p : ProcessStatement} (h : p.ReadsBack room)
    (hfits : fits Limits.blockBytes (shift k p.text) = true) :
    readElement (room + 1) (shift k p.text) = some (process p) := by
  obtain ⟨hlabel, hnone⟩ := h.labelled?_shift k
  have hrun : IsRun "process".toList := by decide
  have hprocess : startsWith "process".toList (p.unlabelled k) = true := by
    have := startsWith_run (g := []) rfl hrun hrun (p.head?_interior k (lineBreak k ++ ("end".toList
      ++ clauseEnd ("process".toList :: p.label.toList.map (·.text)))))
    rw [sameWord_self, List.nil_append] at this
    rw [ProcessStatement.unlabelled_eq, this]
  have hread := h.read_shift k hfits
  rw [readElement, hlabel]
  cases hcase : p.label with
  | none =>
    rw [hnone hcase] at hread ⊢
    simp only [Option.map_none, hprocess, if_true, hread, Option.map_some]
  | some label => simp only [Option.map_some, hprocess, if_true, hread]

theorem readElement_component {i : Instance} (h : i.Readable room)
    (hfits : fits Limits.blockBytes (shift k i.text) = true) :
    readElement room (shift k i.text) = some (component i) := by
  have hread := Instance.read_shift h k hfits
  have hsolid := Instance.solid_bodyTokens i k
  have hlabel : labelled? (shift k i.text)
      = some (i.label, render (Instance.bodyTokens k i) ++ [';']) := by
    rw [Instance.shift_text h]
    refine labelled?_text i.label ?_
    rw [List.head?_append_of_ne_nil _ hsolid.ne_nil]
    exact hsolid.head
  have hfirst : startsWith "process".toList (render (Instance.bodyTokens k i) ++ [';']) = false
      ∧ startsWith "for".toList (render (Instance.bodyTokens k i) ++ [';']) = false := by
    obtain ⟨w, x, hsource, hw, hprocess, hfor⟩ := i.source.exists_firstWord
    have hstarts : ∀ {v : Text}, IsRun v → startsWith v (render (Instance.bodyTokens k i) ++ [';'])
        = sameWord v w := by
      intro v hv
      rw [Instance.bodyTokens, render_append, i.source.render_tokens, hsource, List.append_assoc,
        List.append_assoc]
      have := startsWith_run (g := []) (u := ' ' :: x ++ (render (Instance.partTokens "generic".toList k
        i.generics ++ Instance.partTokens "port".toList k i.ports) ++ [';'])) rfl hv hw rfl
      rwa [List.nil_append] at this
    rw [hstarts (by decide), hstarts (by decide)]
    exact ⟨hprocess, hfor⟩
  rw [readElement, hlabel]
  simp only [hfirst.1, hfirst.2, Bool.false_eq_true, if_false, hread, Option.map_some]

/-- A block does not start with the word `begin`. -/
theorem afterWord?_block {c : Concurrent} (h : c.IsBlock) :
    afterWord? "begin".toList (block k c) = none := by
  have hbegin : IsRun "begin".toList := by decide
  cases hcs : c.elements with
  | nil =>
    have hnil : block k c = [] := by
      rw [block, hcs]
      rfl
    rw [hnil]
    rfl
  | cons e es =>
    have hshows := (h e (by rw [hcs]; exact List.mem_cons_self)).shows k
    have hblock : block k c = lineBreak k ++ (shift k e.text ++ blockOf text k es) := by
      rw [block, hcs, blockOf, List.map_cons, stack_cons]
      rfl
    have htrim : ∀ t, afterWord? "begin".toList (lineBreak k ++ t) = afterWord? "begin".toList t := by
      intro t
      rw [afterWord?, afterWord?, trimStart_append (isPad_lineBreak k).all_isBlank]
    have hstatement : ∀ {x : Text} (u : Text), IsStatement false x →
        afterWord? "begin".toList (x ++ u) = none := by
      intro x u hx
      have := hx.startsWith (w := "begin".toList) (by decide) u
      rwa [startsWith, Option.isSome_eq_false_iff, Option.isNone_iff_eq_none] at this
    rw [hblock, htrim]
    generalize e.piece k = p at hshows
    generalize shift k e.text = t at hshows
    cases hshows with
    | comment hc => exact afterWord?_eq_none hbegin (by decide) (by decide)
    | code hx => exact hstatement _ hx
    | trailed hx _ =>
      rw [List.append_assoc]
      exact hstatement _ hx

/-- A generated region is read if its body is. -/
theorem readGenerateWith_shift {region : Text → Option Concurrent} {label parameter : Ident}
    {range : Range} {body : Concurrent} (hr : range.ReadsBack room) (hb : body.IsBlock)
    (hfits : fits Limits.blockBytes (shift k (generate label parameter range body).text) = true)
    (hbody : region (block (k + 1) body) = some body) :
    readGenerateWith room region (shift k (generate label parameter range body).text)
      = some (generate label parameter range body) := by
  have hfor : IsRun "for".toList := by decide
  have hgenerate : IsName "generate".toList := by decide
  have hstatement : IsStatement false (shift k (generate label parameter range body).text) :=
    isStatement_generate hr hb k
  have hparameter := parameter.isRun.trimmed
  -- the header, cut into its parts
  obtain ⟨inner, hinner⟩ : ∃ inner, inner = (parameter.text ++ ' ' :: ("in".toList ++ ' ' :: range.text))
      ++ ' ' :: ("generate".toList ++ block (k + 1) body) := ⟨_, rfl⟩
  have hlacks : Lacks "generate".toList (Sequential.loopTokens parameter range) := by
    refine lacks_append.2 ⟨parameter.lacks_word (by decide),
      lacks_append.2 ⟨by decide, range.lacks (isForeign_words _ (by decide)) (by decide) hr.designators⟩⟩
  have hhead : (block (k + 1) body).head?.any isIdentChar = false := by
    have hline := (hb.isInterior (k + 1)).head
    exact hline.ident
  have hsplit := Sequential.splitIteration?_header hr hgenerate hlacks hhead
  have hrange := hr.reads [' '] [' '] isPad_blank isPad_blank
  have hname : trim (parameter.text ++ [' ']) = parameter.text := by
    have : trim ([] ++ parameter.text ++ [' ']) = parameter.text := trim_pad_trimmed rfl hparameter rfl
    rwa [List.nil_append] at this
  have hshape : shift k (generate label parameter range body).text = label.text ++ ':' :: ' ' ::
      ("for".toList ++ ' ' :: (inner ++ (lineBreak k ++ ("end".toList
        ++ clauseEnd ["generate".toList, label.text])))) := by
    rw [shift_generate hr hb, generateLine, hinner]
    simp only [List.append_assoc, List.cons_append]
  have hfirst : ∀ u, (inner ++ u).head?.any isBlank = false := by
    intro u
    rw [hinner, List.append_assoc, List.append_assoc,
      List.head?_append_of_ne_nil _ parameter.isRun.ne_nil]
    exact hparameter.head
  have hlast : inner.getLast?.any isBlank = false := by
    have hsolid := hb.solid (k + 1) hgenerate.isRun.solid
    rw [hinner, List.append_cons, List.getLast?_append_of_ne_nil _ hsolid.ne_nil]
    exact hsolid.last
  have hlabel := labelled?_text label (r := "for".toList ++ ' ' :: (inner ++ (lineBreak k
    ++ ("end".toList ++ clauseEnd ["generate".toList, label.text])))) rfl
  have hafter := afterWord?_blank hfor (hfirst (lineBreak k ++ ("end".toList
    ++ clauseEnd ["generate".toList, label.text])))
  have hend := @Text.beforeEnd?_closing true _ _ _ hgenerate.isRun label.isRun k hlast
  rw [← hinner] at hsplit
  rw [readGenerateWith, trim_eq_self hstatement.solid.toTrimmed, hfits, hstatement.isConstruct, hshape,
    hlabel]
  simp only [Bool.not_true, Bool.or_self, Bool.false_eq_true, if_false, hafter, hend, hsplit, hname,
    parameter.ofText?_text, afterWord?_block hb, Option.getD_none, hbody, Option.bind_eq_bind,
    Option.bind_some]
  rw [← List.singleton_append, hrange]
  rfl

end Elements

/-! ## The induction -/

/-- A reader with some room returns regions and elements. -/
structure ReadsUpTo (room : Nat) : Prop where
  /-- Regions in blocks. -/
  region : ∀ {c : Concurrent}, IsRegion room c → ∀ k : Nat,
    fits Limits.blockBytes (block k c) = true → read room (block k c) = some c
  /-- Elements as pieces of a region. -/
  element : ∀ {c : Concurrent}, IsElement room c → ∀ k : Nat,
    fits Limits.blockBytes (shift k c.text) = true →
    readPieceWith (readElement room) (c.piece k) = some [c]

/-- A generated region is read as an element if its body is read as a region. -/
theorem ReadsUpTo.readElement_generate {room k : Nat} {label parameter : Ident} {range : Range}
    {body : Concurrent} (h : ReadsUpTo room) (hr : range.ReadsBack room) (hbody : IsRegion room body)
    (hfits : fits Limits.blockBytes (shift k (generate label parameter range body).text) = true) :
    readElement (room + 1) (shift k (generate label parameter range body).text)
      = some (generate label parameter range body) := by
  have hb := hbody.isBlock
  have hpart : fits Limits.blockBytes (block (k + 1) body) = true := by
    refine fits_of_isInfix hfits ?_
    rw [shift_generate hr hb]
    exact ⟨_, _, (List.append_assoc ..)⟩
  have hread := readGenerateWith_shift hr hb hfits (h.region hbody (k + 1) hpart)
  have hlabel : labelled? (shift k (generate label parameter range body).text)
      = some (label, generateLine parameter range ++ (block (k + 1) body ++ (lineBreak k
        ++ ("end".toList ++ clauseEnd ["generate".toList, label.text])))) := by
    rw [shift_generate hr hb, List.append_assoc]
    exact labelled?_text label rfl
  have hword : ∀ {v : Text} (u : Text), IsRun v →
      startsWith v (generateLine parameter range ++ u) = sameWord v "for".toList := by
    intro v u hv
    have := startsWith_run (g := []) (u := ' ' :: ((parameter.text ++ ' ' :: ("in".toList ++ ' '
      :: range.text)) ++ ' ' :: "generate".toList) ++ u) rfl hv (show IsRun "for".toList by decide) rfl
    rw [List.nil_append] at this
    rw [← this, generateLine, List.append_assoc]
  rw [readElement, hlabel]
  simp only [hword _ (show IsRun "process".toList by decide),
    hword _ (show IsRun "for".toList by decide)]
  rw [if_neg (by decide), if_pos (by decide), readGenerate, hread]

/-- **A reader with some room returns what reads back within it.** -/
theorem readsUpTo (room : Nat) : ReadsUpTo room := by
  induction room with
  | zero =>
    refine ⟨(nomatch ·), fun hc k hfits => ?_⟩
    cases hc with
    | simple h => exact readPieceWith_simple h
    | component h => exact readPieceWith_code (readElement_component h hfits)
  | succ room ih =>
    refine ⟨fun {c} hc k hfits => ?_, fun hc k hfits => ?_⟩
    · refine read_of_region hc (hc.isBlock.region k) hfits fun e he => ?_
      refine ih.element (hc.isElement he) k (fits_of_isInfix hfits ?_)
      have := isInfix_stack (List.mem_map_of_mem (f := fun e => shift k (text e)) he) k []
      rwa [List.append_nil] at this
    · cases hc with
      | simple h => exact readPieceWith_simple h
      | process h => exact readPieceWith_code (readElement_process h hfits)
      | component h => exact readPieceWith_code (readElement_component h hfits)
      | generate hr hb => exact readPieceWith_code (ih.readElement_generate hr hb hfits)

/-- **Concurrent code is read from its text.** -/
theorem read_region_text {room : Nat} {c : Concurrent} (h : c.IsRegion room)
    (hfits : fits Limits.blockBytes c.text = true) : read room c.text = some c := by
  cases room with
  | zero => cases h
  | succ room =>
    have hregion : Region false (c.elements.map (piece 0)) c.text := by
      have := region_join (forall₂_shows_block h.isBlock 0)
      simp only [shift_zero] at this
      rwa [text_eq_join]
    refine read_of_region h hregion hfits fun e he => ?_
    refine (readsUpTo room).element (h.isElement he) 0 (fits_of_isInfix hfits ?_)
    rw [shift_zero, text_eq_join c]
    exact isInfix_join (List.mem_map.2 ⟨e, he, rfl⟩)

/-! ## A region -/

/-- A chain of values, a labelled process whose declarations hold the comment ` begin`, and an
instance with both maps in two generated regions. -/
def probe : Concurrent :=
  let name := Sequential.probeName
  let expr := Sequential.probeExpr
  .region [
    .simple (.assignment (.name name) (.conditional (.choose expr expr (.value expr)))),
    .process ⟨some name, [name], [
      .declaration ⟨.var, name, .builtin (.scalar .bit), none, none, Sequential.valued_probe⟩,
      .comment ⟨" begin".toList⟩], .simple .null⟩,
    .generate name name (.ascending expr expr) (.generate name name (.descending expr expr) (.region [
      .component ⟨name, .entity name name (some name), [⟨none, .value expr⟩],
        [⟨some (.name name), .unconnected⟩, ⟨none, .value expr⟩]⟩,
      .simple (.comment ⟨" end generate a;".toList⟩)]))]

theorem read_region_probe : probe.IsRegion Limits.depth ∧ fits Limits.blockBytes probe.text = true ∧
    read Limits.depth probe.text = some probe := by
  have hexpr := Sequential.readsBack_probeExpr
  have hrange : ∀ room, (Range.ascending Sequential.probeExpr Sequential.probeExpr).ReadsBack (room + 1)
      ∧ (Range.descending Sequential.probeExpr Sequential.probeExpr).ReadsBack (room + 1) := fun room =>
    ⟨Range.readsBack_of_isCanonical (by decide) (Nat.succ_le_succ (Nat.zero_le room)) (by decide),
      Range.readsBack_of_isCanonical (by decide) (Nat.succ_le_succ (Nat.zero_le room)) (by decide)⟩
  have hname : ∀ room, (Reference.name Sequential.probeName).ReadsBack room := fun _ =>
    Reference.readsBack_name Sequential.probeName (by decide)
  have hcomment : ∀ c ∈ [" begin", " end generate a;"], IsCommentText c.toList := by
    intro c hc
    have key : ∀ c ∈ [" begin", " end generate a;"], '\n' ∉ c.toList ∧ '\r' ∉ c.toList
        ∧ trimEnd c.toList = c.toList := by decide
    exact ⟨(key c hc).1, (key c hc).2.1, (key c hc).2.2⟩
  have hregion : probe.IsRegion Limits.depth := by
    refine .several (by decide) ?_
    simp only [List.mem_cons, List.not_mem_nil, or_false, forall_eq_or_imp, forall_eq]
    refine ⟨.simple (.assignment (hname _) ⟨hexpr _, hexpr _, hexpr _⟩ (by decide)), .process ⟨by decide,
      ?_, .single (.simple .null)⟩, .generate (hrange _).1 (.single (.generate (hrange _).2
        (.several (by decide) ?_)))⟩
    · simp only [List.mem_cons, List.not_mem_nil, or_false, forall_eq_or_imp, forall_eq]
      exact ⟨.declaration ⟨⟨rfl, TypeMark.readsBack_scalar .bit, by simp⟩, by simp, by decide⟩,
        .comment (hcomment _ (by simp))⟩
    · simp only [List.mem_cons, List.not_mem_nil, or_false, forall_eq_or_imp, forall_eq]
      refine ⟨.component ⟨?_, ?_⟩, .simple (.comment (hcomment _ (by simp)))⟩
      · simp only [List.mem_cons, List.not_mem_nil, or_false, forall_eq]
        exact ⟨by simp, hexpr _⟩
      · simp only [List.mem_cons, List.not_mem_nil, or_false, forall_eq_or_imp, forall_eq]
        exact ⟨⟨fun r hr => Option.some.inj hr ▸ hname _, trivial⟩, ⟨by simp, hexpr _⟩⟩
  have hfits : fits Limits.blockBytes probe.text = true := by decide +kernel
  exact ⟨hregion, hfits, read_region_text hregion hfits⟩

/-- A process without a label that does nothing but run some code. -/
def running (body : Sequential) : Concurrent :=
  .process ⟨none, [], [], body⟩

/-- Code that is not read back, though its expressions are: choices with a bar that hold
`others`, another such choice or a single member, a `case` statement without branches, and a
chain without a condition, which is a plain value. -/
def misread : List Concurrent :=
  let expr := Sequential.probeExpr
  [running (Sequential.selecting (.alternatives [.value expr, .others])),
    running (Sequential.selecting (.alternatives [.value expr, .alternatives [.value expr, .value expr]])),
    running (Sequential.selecting (.alternatives [.value expr])),
    running (.selection expr []),
    .simple (.assignment (.name Sequential.probeName) (.conditional (.value expr)))]

theorem read_misread_ne :
    Sequential.probeExpr.ReadsBack (Limits.depth - 3) ∧
      (Sequential.simple .null).IsRegion (Limits.depth - 3) ∧
      ∀ c ∈ misread, fits Limits.blockBytes c.text = true ∧ read Limits.depth c.text ≠ some c := by
  refine ⟨Sequential.readsBack_probeExpr _, .single (.simple .null), fun c hc => ?_⟩
  have key : ∀ c ∈ misread, fits Limits.blockBytes c.text = true ∧ c.same c = true ∧
      (read Limits.depth c.text).any (·.same c) = false := by
    decide +kernel
  obtain ⟨hfits, hsame, hread⟩ := key c hc
  refine ⟨hfits, fun h => ?_⟩
  rw [h, Option.any_some, hsame] at hread
  cases hread

end Concurrent

end CanonicalVhdl
