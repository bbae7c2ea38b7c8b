import CanonicalVhdl.Proofs.Comment.Concurrent
import CanonicalVhdl.Proofs.Region.Cuts
import CanonicalVhdl.Proofs.Room.Sequential
import CanonicalVhdl.Proofs.Settled.Concurrent
import CanonicalVhdl.Proofs.Settled.Sequel

/-!
# Regions one after the other

What is read as an element of a region stands alone: it is settled, and it starts afresh.  So two
regions joined by a line end are read as the elements of the first and then those of the second.

## Main definitions

* `Concurrent.readElement` — the reader of the elements of a concurrent region.

## Main statements

* `Sequential.startsAfresh_of_readPieceWith`, `Concurrent.startsAfresh_of_readPieceWith` — what is
  read as an element of a region starts afresh.
* `Sequential.read_joined`, `Concurrent.read_joined` — regions of either kind.
* `Region.concatenate` — the region that two regions make, one after the other.
-/

namespace CanonicalVhdl

open Text Token

/-! ## How the elements of a region start

A declaration, a statement, a process or an instance starts with a keyword of its own, with a
label or with a target.  None of these is a word that carries on what precedes it. -/

variable {room : Nat} {t w : Text}

/-- Words that carry a statement on start none. -/
theorem continuationWords_facts (hw : w ∈ continuationWords) :
    (∀ c : ObjectClass, sameWord w c.keyword.toList = false)
      ∧ (∀ v ∈ Statement.openingWords, sameWord w v = false)
      ∧ sameWord w "process".toList = false := by
  have hclass : ∀ w ∈ continuationWords, ∀ c : ObjectClass, sameWord w c.keyword.toList = false := by
    intro w hw c
    revert w
    cases c <;> decide
  have hopening : ∀ w ∈ continuationWords, (∀ v ∈ Statement.openingWords, sameWord w v = false)
      ∧ sameWord w "process".toList = false := by decide
  exact ⟨hclass w hw, hopening w hw⟩

/-- A text that starts with no tick starts afresh if no continuation stands at the head of its
code. -/
theorem Text.startsAfresh_of_not (htick : t.head? ≠ some '\'')
    (h : ∀ w ∈ continuationWords, standsAt w none (trimStart t) = true → False) :
    StartsAfresh t := by
  refine ⟨htick, fun w hw => ?_⟩
  obtain ⟨hbarred, -⟩ := isBarred_of_mem_continuationWords hw
  rw [Bool.eq_false_iff]
  intro hstands
  apply h w hw
  rwa [trimStart_eq_self (hbarred.head_not_blank hstands)]

/-! ## Sequential code -/

/-- A declaration starts with no other word than that of its class. -/
theorem ObjectDecl.read_eq_none_of_standsAt (halpha : w.head?.any Char.isAlpha = true)
    (hrun : IsRun w) (hne : ∀ c : ObjectClass, sameWord w c.keyword.toList = false)
    (h : standsAt w none (trim t) = true) : ObjectDecl.read room t = none := by
  rw [Option.eq_none_iff_forall_ne_some]
  intro d hd
  obtain ⟨c, hstands⟩ := exists_keyword hd
  obtain ⟨-, halpha', hrun', -⟩ := c.keyword_facts
  have := sameWord_of_standsAt halpha hrun halpha' hrun' h hstands
  rw [hne c] at this
  cases this

/-- **What is read as an element of sequential code starts afresh.** -/
theorem Sequential.startsAfresh_of_readPieceWith {trailer : Option Text} {ss : List Sequential}
    (h : readPieceWith room (readElement room) (.code t trailer) = some ss) : StartsAfresh t := by
  refine startsAfresh_of_not ?_ ?_
  · intro htick
    have hnone : readPieceWith room (readElement room) (.code t trailer) = none :=
      readPiece_of_tick room trailer htick
    rw [hnone] at h
    cases h
  · intro w hw hstands
    obtain ⟨hbarred, halpha⟩ := isBarred_of_mem_continuationWords hw
    obtain ⟨hclass, hopening, -⟩ := continuationWords_facts hw
    have hrun := (hbarred.word halpha).1
    have hnone : ∀ {u : Text}, trim u = trim t → ObjectDecl.read room u = none := by
      intro u hu
      apply ObjectDecl.read_eq_none_of_standsAt halpha hrun hclass
      rw [hu]
      exact standsAt_trimEnd halpha hrun hstands
    simp only [readPieceWith, ObjectDecl.readWithTrailer, hnone rfl, Option.map_none,
      readElement_eq_none hbarred halpha hopening hstands (hnone (trim_eq_self (trimmed_trim t))),
      Option.bind_eq_bind, Option.bind_none, reduceCtorEq] at h

/-! ## Concurrent code -/

/-- No label is a barred word. -/
theorem labelled?_eq_none_of_barred (hw : IsBarred w) (halpha : w.head?.any Char.isAlpha = true)
    (h : standsAt w none (trimStart t) = true) : labelled? t = none := by
  rw [Option.eq_none_iff_forall_ne_some]
  rintro ⟨label, rest⟩ hlabel
  obtain ⟨a, b, hsplit, ha, -⟩ := exists_of_labelled? hlabel
  obtain ⟨hrun, hreserved⟩ := hw.word halpha
  rw [hsplit] at h
  have hstands := standsAt_trimEnd halpha hrun (standsAt_word_cut halpha hrun h rfl)
  obtain ⟨x, v, hx, hsame, hv, -⟩ := exists_of_standsAt halpha hstands
  rw [Ident.ofText?_eq_none_of_delimited (a := []) (hrun.of_sameWord hsame)
    (isReserved_congr hsame ▸ hreserved) rfl hv [] [] rfl rfl
    (by rw [hx, List.nil_append, List.nil_append, List.append_nil])] at ha
  cases ha

/-- No concurrent assignment starts with a barred word. -/
theorem ConcurrentStatement.read_eq_none_of_barred (hw : IsBarred w)
    (halpha : w.head?.any Char.isAlpha = true) (h : standsAt w none (trimStart t) = true) :
    ConcurrentStatement.read room t = none := by
  have hrun := (hw.word halpha).1
  have htrim : standsAt w none (trim t) = true := standsAt_trimEnd halpha hrun h
  have hcomment : Comment.read (trim t) = none :=
    Comment.read_eq_none_of_barred hw (by rwa [trim_eq_self (trimmed_trim t)])
  have hcode := hw.standsAt_withoutComments htrim
  rw [Option.eq_none_iff_forall_ne_some]
  intro s hs
  simp only [read, hcomment, Option.bind_eq_bind] at hs
  obtain ⟨-, hs⟩ := Option.ite_none_left_eq_some.1 hs
  obtain ⟨-, hs⟩ := Option.ite_none_left_eq_some.1 hs
  obtain ⟨body, hbody, hs⟩ := Option.bind_eq_some_iff.1 hs
  obtain ⟨⟨target, value⟩, hcut, hs⟩ := Option.bind_eq_some_iff.1 hs
  obtain ⟨r, hr, -⟩ := Option.bind_eq_some_iff.1 hs
  have hsymbol : "<=".toList ∈ symbolPatterns := by decide
  obtain ⟨u, hhit⟩ := exists_hit_of_cutOuter? (.inr hsymbol) hcut
  rw [eq_of_dropFinal? hbody] at hcode
  have hstart := standsAt_word_cut halpha hrun hcode rfl
  rw [Reference.read_eq_none_of_hit hw halpha hsymbol hhit hstart] at hr
  cases hr

namespace Concurrent

/-- Reads an element of a region by its label and the word behind that. -/
def readElement (room : Nat) (code : Text) : Option Concurrent :=
  match labelled? code with
  | some (_, rest) =>
    if startsWith "process".toList rest then (ProcessStatement.read room code).map process
    else if startsWith "for".toList rest then readGenerate room code
    else (Instance.read room code).map component
  | none =>
    if startsWith "process".toList code then (ProcessStatement.read room code).map process
    else (ConcurrentStatement.read room code).map simple

theorem read_succ (room : Nat) (t : Text) : read (room + 1) t =
    if !fits Limits.blockBytes t then none
    else (pieces? t).bind fun pieces =>
      (pieces.mapM (readPieceWith (readElement room))).bind fun elements =>
        some (ofElements elements.flatten) := rfl

/-- **What is read as an element of concurrent code starts afresh.** -/
theorem startsAfresh_of_readElement {c : Concurrent} (h : readElement room t = some c) :
    StartsAfresh t := by
  refine startsAfresh_of_not ?_ ?_
  · intro htick
    have hprocess : startsWith "process".toList t = false :=
      startsWith_of_tick ⟨by decide, by decide⟩ htick
    simp only [readElement, labelled?_of_tick htick, hprocess,
      ConcurrentStatement.read_of_tick htick, Bool.false_eq_true, if_false, Option.map_none,
      reduceCtorEq] at h
  · intro w hw hstands
    obtain ⟨hbarred, halpha⟩ := isBarred_of_mem_continuationWords hw
    obtain ⟨-, -, hne⟩ := continuationWords_facts hw
    have hprocess : startsWith "process".toList t = false :=
      startsWith_eq_false halpha (hbarred.word halpha).1 (by decide) (by decide) hne hstands
    simp only [readElement, labelled?_eq_none_of_barred hbarred halpha hstands, hprocess,
      ConcurrentStatement.read_eq_none_of_barred hbarred halpha hstands, Bool.false_eq_true,
      if_false, Option.map_none, reduceCtorEq] at h

end Concurrent

/-! ## Sequential regions -/

namespace Sequential

theorem settled_of_readElement {e : Sequential} (h : readElement room t = some e) : Settled t := by
  obtain ⟨-, hconditional, hselection, hloop⟩ := settled_of_readers room
  rw [readElement] at h
  split at h
  · exact hconditional t e h
  split at h
  · exact hselection t e h
  split at h
  · exact hloop t e h
  · obtain ⟨s, hs, -⟩ := Option.map_eq_some_iff.1 h
    exact Statement.settled_of_read hs

theorem standsAlone_of_readPieceWith {p : Piece} {ss : List Sequential}
    (h : readPieceWith room (readElement room) p = some ss) : p.StandsAlone := by
  cases p with
  | comment c => trivial
  | code code trailer =>
    exact ⟨startsAfresh_of_readPieceWith h,
      settled_of_readPieceWith (fun t e he => settled_of_readElement he) h⟩

section Compound

variable {region conditional : Text → Option Sequential} {e : Sequential}

theorem elements_of_readConditionalWith
    (h : readConditionalWith room region conditional t = some e) : e.elements = [e] := by
  obtain ⟨inner, -, h⟩ := Option.bind_eq_some_iff.1 h
  obtain ⟨⟨condition, branches⟩, -, h⟩ := Option.bind_eq_some_iff.1 h
  obtain ⟨c, -, h⟩ := Option.bind_eq_some_iff.1 h
  split at h
  · obtain ⟨body, -, rfl⟩ := Option.map_eq_some_iff.1 h
    rfl
  all_goals
    obtain ⟨body, -, h⟩ := Option.bind_eq_some_iff.1 h
    obtain ⟨rest, -, h⟩ := Option.bind_eq_some_iff.1 h
    obtain rfl := Option.some.inj h
    rfl

theorem elements_of_readSelectionWith (h : readSelectionWith room region t = some e) :
    e.elements = [e] := by
  obtain ⟨inner, -, h⟩ := Option.bind_eq_some_iff.1 h
  obtain ⟨⟨selector, branches⟩, -, h⟩ := Option.bind_eq_some_iff.1 h
  obtain ⟨c, -, h⟩ := Option.bind_eq_some_iff.1 h
  obtain ⟨⟨i, k⟩, -, h⟩ := Option.bind_eq_some_iff.1 h
  obtain ⟨-, h⟩ := Option.ite_none_left_eq_some.1 h
  obtain ⟨texts, -, h⟩ := Option.bind_eq_some_iff.1 h
  obtain ⟨bs, -, h⟩ := Option.bind_eq_some_iff.1 h
  obtain rfl := Option.some.inj h
  rfl

theorem elements_of_readLoopWith (h : readLoopWith room region t = some e) : e.elements = [e] := by
  obtain ⟨inner, -, h⟩ := Option.bind_eq_some_iff.1 h
  obtain ⟨⟨parameter, range, body⟩, -, h⟩ := Option.bind_eq_some_iff.1 h
  obtain ⟨p, -, h⟩ := Option.bind_eq_some_iff.1 h
  obtain ⟨r, -, h⟩ := Option.bind_eq_some_iff.1 h
  obtain ⟨b, -, h⟩ := Option.bind_eq_some_iff.1 h
  obtain rfl := Option.some.inj h
  rfl

end Compound

/-- What is read as an element is no region. -/
theorem elements_of_readElement {e : Sequential} (h : readElement room t = some e) :
    e.elements = [e] := by
  rw [readElement] at h
  cases room with
  | zero =>
    split at h
    · cases h
    split at h
    · cases h
    split at h
    · cases h
    · obtain ⟨s, -, rfl⟩ := Option.map_eq_some_iff.1 h
      rfl
  | succ room =>
    split at h
    · exact elements_of_readConditionalWith h
    split at h
    · exact elements_of_readSelectionWith h
    split at h
    · exact elements_of_readLoopWith h
    · obtain ⟨s, -, rfl⟩ := Option.map_eq_some_iff.1 h
      rfl

theorem elements_of_readPieceWith {p : Piece} {ss : List Sequential}
    (h : readPieceWith room (readElement room) p = some ss) : ∀ s ∈ ss, s.elements = [s] := by
  have hcomment : ∀ c : Comment, (comment c).elements = [comment c] := fun c => rfl
  cases p with
  | comment c =>
    obtain ⟨c, -, rfl⟩ := Option.map_eq_some_iff.1 h
    exact List.forall_mem_singleton.2 (hcomment c)
  | code code trailer =>
    simp only [readPieceWith] at h
    split at h
    · obtain rfl := Option.some.inj h
      exact List.forall_mem_singleton.2 rfl
    · obtain ⟨e, he, h⟩ := Option.bind_eq_some_iff.1 h
      have he := elements_of_readElement he
      split at h
      · obtain rfl := Option.some.inj h
        exact List.forall_mem_singleton.2 he
      · obtain ⟨c, -, rfl⟩ := Option.map_eq_some_iff.1 h
        exact List.forall_mem_cons.2 ⟨he, List.forall_mem_singleton.2 (hcomment c)⟩

theorem elements_ofElements {es : List Sequential} (h : ∀ e ∈ es, e.elements = [e]) :
    (ofElements es).elements = es := by
  rcases es with _ | ⟨e, _ | ⟨e', es⟩⟩
  · rfl
  · exact h e List.mem_cons_self
  · rfl

/-- The elements of a region that is read. -/
theorem elements_of_mapM {ps : List Piece} {ess : List (List Sequential)}
    (h : ps.mapM (readPieceWith room (readElement room)) = some ess) :
    (ofElements ess.flatten).elements = ess.flatten := by
  have hall := forall_of_mapM (fun _ _ => elements_of_readPieceWith) ps ess h
  apply elements_ofElements
  intro e he
  obtain ⟨ss, hss, he⟩ := List.mem_flatten.1 he
  exact hall ss hss e he

/-- **Sequential regions concatenate.** -/
theorem read_joined {u : Text} {s s' : Sequential} (ht : read room t = some s)
    (hu : read room u = some s') (hfits : fits Limits.blockBytes (t ++ '\n' :: u) = true) :
    ∃ r, read room (t ++ '\n' :: u) = some r ∧ r.elements = s.elements ++ s'.elements := by
  cases room with
  | zero => cases ht
  | succ room =>
    rw [read_succ] at ht hu
    obtain ⟨-, ht⟩ := Option.ite_none_left_eq_some.1 ht
    obtain ⟨ps, hps, ht⟩ := Option.bind_eq_some_iff.1 ht
    obtain ⟨es, hes, ht⟩ := Option.bind_eq_some_iff.1 ht
    obtain ⟨-, hu⟩ := Option.ite_none_left_eq_some.1 hu
    obtain ⟨qs, hqs, hu⟩ := Option.bind_eq_some_iff.1 hu
    obtain ⟨fs, hfs, hu⟩ := Option.bind_eq_some_iff.1 hu
    obtain rfl := Option.some.inj ht
    obtain rfl := Option.some.inj hu
    obtain ⟨hpieces, helements⟩ :=
      Piece.pieces?_append (fun p e he => standsAlone_of_readPieceWith he) hps hes hqs hfs
    refine ⟨ofElements (es ++ fs).flatten, ?_, ?_⟩
    · rw [read_succ, readRegionWith, hfits, hpieces]
      simp only [Bool.not_true, Bool.false_eq_true, if_false, Option.bind_eq_bind,
        Option.bind_some, helements]
    · rw [elements_of_mapM helements, elements_of_mapM hes, elements_of_mapM hfs,
        List.flatten_append]

end Sequential

/-! ## Concurrent regions -/

namespace Concurrent

theorem settled_of_readElement {c : Concurrent} (h : readElement room t = some c) : Settled t := by
  rw [readElement] at h
  split at h
  · split at h
    · obtain ⟨p, hp, -⟩ := Option.map_eq_some_iff.1 h
      exact ProcessStatement.settled_of_read hp
    split at h
    · exact (settled_of_readers room).2 t c h
    · obtain ⟨i, hi, -⟩ := Option.map_eq_some_iff.1 h
      exact Instance.settled_of_read hi
  · split at h
    · obtain ⟨p, hp, -⟩ := Option.map_eq_some_iff.1 h
      exact ProcessStatement.settled_of_read hp
    · obtain ⟨s, hs, -⟩ := Option.map_eq_some_iff.1 h
      exact ConcurrentStatement.settled_of_read hs

theorem standsAlone_of_readPieceWith {p : Piece} {cs : List Concurrent}
    (h : readPieceWith (readElement room) p = some cs) : p.StandsAlone := by
  cases p with
  | comment c => trivial
  | code code trailer =>
    obtain ⟨element, helement, -⟩ := Option.bind_eq_some_iff.1 h
    exact ⟨startsAfresh_of_readElement helement, settled_of_readElement helement⟩

/-- What is read as an element is no region. -/
theorem elements_of_readElement {c : Concurrent} (h : readElement room t = some c) :
    c.elements = [c] := by
  rw [readElement] at h
  split at h
  · split at h
    · obtain ⟨p, -, rfl⟩ := Option.map_eq_some_iff.1 h
      rfl
    split at h
    · cases room with
      | zero => cases h
      | succ room =>
        simp only [readGenerate, readGenerateWith, Option.bind_eq_bind] at h
        obtain ⟨-, h⟩ := Option.ite_none_left_eq_some.1 h
        obtain ⟨⟨label, rest⟩, -, h⟩ := Option.bind_eq_some_iff.1 h
        obtain ⟨header, -, h⟩ := Option.bind_eq_some_iff.1 h
        obtain ⟨inner, -, h⟩ := Option.bind_eq_some_iff.1 h
        obtain ⟨⟨parameter, range, inside⟩, -, h⟩ := Option.bind_eq_some_iff.1 h
        obtain ⟨p, -, h⟩ := Option.bind_eq_some_iff.1 h
        obtain ⟨r, -, h⟩ := Option.bind_eq_some_iff.1 h
        obtain ⟨b, -, h⟩ := Option.bind_eq_some_iff.1 h
        obtain rfl := Option.some.inj h
        rfl
    · obtain ⟨i, -, rfl⟩ := Option.map_eq_some_iff.1 h
      rfl
  · split at h
    · obtain ⟨p, -, rfl⟩ := Option.map_eq_some_iff.1 h
      rfl
    · obtain ⟨s, -, rfl⟩ := Option.map_eq_some_iff.1 h
      rfl

theorem elements_of_readPieceWith {p : Piece} {cs : List Concurrent}
    (h : readPieceWith (readElement room) p = some cs) : ∀ c ∈ cs, c.elements = [c] := by
  have hcomment : ∀ c : Comment, (comment c).elements = [comment c] := fun c => rfl
  cases p with
  | comment c =>
    obtain ⟨c, -, rfl⟩ := Option.map_eq_some_iff.1 h
    exact List.forall_mem_singleton.2 (hcomment c)
  | code code trailer =>
    obtain ⟨e, he, h⟩ := Option.bind_eq_some_iff.1 h
    have he := elements_of_readElement he
    split at h
    · obtain rfl := Option.some.inj h
      exact List.forall_mem_singleton.2 he
    · obtain ⟨c, -, rfl⟩ := Option.map_eq_some_iff.1 h
      exact List.forall_mem_cons.2 ⟨he, List.forall_mem_singleton.2 (hcomment c)⟩

theorem elements_ofElements {cs : List Concurrent} (h : ∀ c ∈ cs, c.elements = [c]) :
    (ofElements cs).elements = cs := by
  rcases cs with _ | ⟨c, _ | ⟨c', cs⟩⟩
  · rfl
  · exact h c List.mem_cons_self
  · rfl

/-- The elements of a region that is read. -/
theorem elements_of_mapM {ps : List Piece} {css : List (List Concurrent)}
    (h : ps.mapM (readPieceWith (readElement room)) = some css) :
    (ofElements css.flatten).elements = css.flatten := by
  have hall := forall_of_mapM (fun _ _ => elements_of_readPieceWith) ps css h
  apply elements_ofElements
  intro c hc
  obtain ⟨cs, hcs, hc⟩ := List.mem_flatten.1 hc
  exact hall cs hcs c hc

/-- **Concurrent regions concatenate.** -/
theorem read_joined {u : Text} {c c' : Concurrent} (ht : read room t = some c)
    (hu : read room u = some c') (hfits : fits Limits.blockBytes (t ++ '\n' :: u) = true) :
    ∃ r, read room (t ++ '\n' :: u) = some r ∧ r.elements = c.elements ++ c'.elements := by
  cases room with
  | zero => cases ht
  | succ room =>
    rw [read_succ] at ht hu
    obtain ⟨-, ht⟩ := Option.ite_none_left_eq_some.1 ht
    obtain ⟨ps, hps, ht⟩ := Option.bind_eq_some_iff.1 ht
    obtain ⟨es, hes, ht⟩ := Option.bind_eq_some_iff.1 ht
    obtain ⟨-, hu⟩ := Option.ite_none_left_eq_some.1 hu
    obtain ⟨qs, hqs, hu⟩ := Option.bind_eq_some_iff.1 hu
    obtain ⟨fs, hfs, hu⟩ := Option.bind_eq_some_iff.1 hu
    obtain rfl := Option.some.inj ht
    obtain rfl := Option.some.inj hu
    obtain ⟨hpieces, helements⟩ :=
      Piece.pieces?_append (fun p e he => standsAlone_of_readPieceWith he) hps hes hqs hfs
    refine ⟨ofElements (es ++ fs).flatten, ?_, ?_⟩
    · rw [read_succ, hfits, hpieces, Option.bind_some, helements]
      rfl
    · rw [elements_of_mapM helements, elements_of_mapM hes, elements_of_mapM hfs,
        List.flatten_append]

end Concurrent

/-- **Regions concatenate.**  Two texts that are read as regions, of sequential or of concurrent
code, are read as one region when a line end joins them, if they are not too long together: its
elements are those of the first and then those of the second. -/
theorem Region.concatenate (room : Nat) (t u : Text)
    (hfits : fits Limits.blockBytes (t ++ '\n' :: u) = true) :
    (∀ s s', Sequential.read room t = some s → Sequential.read room u = some s' →
        ∃ r, Sequential.read room (t ++ '\n' :: u) = some r
          ∧ r.elements = s.elements ++ s'.elements)
      ∧ ∀ c c', Concurrent.read room t = some c → Concurrent.read room u = some c' →
        ∃ r, Concurrent.read room (t ++ '\n' :: u) = some r
          ∧ r.elements = c.elements ++ c'.elements :=
  ⟨fun _ _ ht hu => Sequential.read_joined ht hu hfits,
    fun _ _ ht hu => Concurrent.read_joined ht hu hfits⟩

/-- A declaration that takes the comment on its line and a loop, and two assignments with a comment
between them. -/
theorem Region.concatenate_declaration :
    (∃ s s' r, Sequential.read Limits.depth "variable v: bit; -- one".toList = some s
        ∧ Sequential.read Limits.depth "for i in 0 to 3 loop\nend loop;".toList = some s'
        ∧ Sequential.read Limits.depth ("variable v: bit; -- one".toList ++ '\n' ::
          "for i in 0 to 3 loop\nend loop;".toList) = some r
        ∧ r.elements = s.elements ++ s'.elements ∧ r.elements.length = 2)
      ∧ ∃ c c' r, Concurrent.read Limits.depth "a <= b; -- one".toList = some c
        ∧ Concurrent.read Limits.depth "c <= d;".toList = some c'
        ∧ Concurrent.read Limits.depth ("a <= b; -- one".toList ++ '\n' :: "c <= d;".toList) = some r
        ∧ r.elements = c.elements ++ c'.elements ∧ r.elements.length = 3 := by
  refine ⟨?_, ?_⟩
  · have ht : (Sequential.read Limits.depth "variable v: bit; -- one".toList).any
        (·.elements.length == 1) = true := by decide +kernel
    have hu : (Sequential.read Limits.depth "for i in 0 to 3 loop\nend loop;".toList).any
        (·.elements.length == 1) = true := by decide +kernel
    obtain ⟨s, hs, hlength⟩ := (Option.any_eq_true _ _).1 ht
    obtain ⟨s', hs', hlength'⟩ := (Option.any_eq_true _ _).1 hu
    obtain ⟨r, hr, hjoined⟩ := (Region.concatenate Limits.depth _ _ (by decide +kernel)).1 s s' hs hs'
    refine ⟨s, s', r, hs, hs', hr, hjoined, ?_⟩
    rw [hjoined, List.length_append, beq_iff_eq.1 hlength, beq_iff_eq.1 hlength']
  · have ht : (Concurrent.read Limits.depth "a <= b; -- one".toList).any
        (·.elements.length == 2) = true := by decide +kernel
    have hu : (Concurrent.read Limits.depth "c <= d;".toList).any
        (·.elements.length == 1) = true := by decide +kernel
    obtain ⟨c, hc, hlength⟩ := (Option.any_eq_true _ _).1 ht
    obtain ⟨c', hc', hlength'⟩ := (Option.any_eq_true _ _).1 hu
    obtain ⟨r, hr, hjoined⟩ := (Region.concatenate Limits.depth _ _ (by decide +kernel)).2 c c' hc hc'
    refine ⟨c, c', r, hc, hc', hr, hjoined, ?_⟩
    rw [hjoined, List.length_append, beq_iff_eq.1 hlength, beq_iff_eq.1 hlength']

end CanonicalVhdl
