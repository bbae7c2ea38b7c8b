import CanonicalVhdl.Concurrent.Read
import CanonicalVhdl.Proofs.Law.WellFormed

/-!
# Well-formed statements

Types, declarations of objects, and sequential and concurrent code that were read are well
formed.

## Main statements

* `TypedName.fits_of_readTyped` — a literal default of a built-in type is a value of it.
* `Sequential.obeys_of_read`, `Concurrent.obeys_of_read` — regions, by induction on the room.
-/

namespace CanonicalVhdl

open Text

variable {room : Nat} {t : Text}

/-! ## Types and objects -/

theorem BuiltinType.obeys_of_read {type : BuiltinType} (h : BuiltinType.read room t = some type) :
    type.Obeys .wellFormed := by
  simp only [read] at h
  split at h
  · cases h
  split at h
  · obtain rfl := Option.some.inj h
    trivial
  simp only [readConstrained, Option.bind_eq_bind] at h
  split at h
  · obtain ⟨rest, -, h⟩ := Option.bind_eq_some_iff.1 h
    obtain ⟨range, hrange, rfl⟩ := Option.map_eq_some_iff.1 h
    exact Range.obeys_of_read hrange
  · obtain ⟨kind, -, h⟩ := Option.bind_eq_some_iff.1 h
    obtain ⟨⟨inner, after⟩, -, h⟩ := Option.bind_eq_some_iff.1 h
    split at h
    · obtain ⟨range, hrange, rfl⟩ := Option.map_eq_some_iff.1 h
      exact Range.obeys_of_read hrange
    · cases h

theorem TypeMark.obeys_of_read {type : TypeMark} (h : TypeMark.read room t = some type) :
    type.Obeys .wellFormed := by
  rw [read] at h
  split at h
  · next hbuiltin =>
    obtain rfl := Option.some.inj h
    exact BuiltinType.obeys_of_read hbuiltin
  · obtain ⟨name, -, rfl⟩ := Option.map_eq_some_iff.1 h
    trivial

/-- A default that the type admits fits it. -/
theorem DefaultFits.of_isConsistent {n : TypedName} (h : n.isConsistent = true) :
    DefaultFits n.type n.default := by
  intro builtin l htype hdefault
  rw [TypedName.isConsistent, htype, hdefault] at h
  exact h

theorem TypedName.of_readTyped {name : Ident} {n : TypedName}
    (h : TypedName.readTyped room name t = some n) :
    DefaultFits n.type n.default ∧ n.type.Obeys .wellFormed
      ∧ ∀ e ∈ n.default, e.Obeys .wellFormed := by
  rw [readTyped] at h
  split at h
  · obtain ⟨type, htype, h⟩ := Option.bind_eq_some_iff.1 h
    obtain ⟨default, hdefault, h⟩ := Option.bind_eq_some_iff.1 h
    obtain ⟨hconsistent, h⟩ := Option.ite_none_right_eq_some.1 h
    obtain rfl := Option.some.inj h
    refine ⟨.of_isConsistent hconsistent, TypeMark.obeys_of_read htype, fun e he => ?_⟩
    obtain rfl := Option.some.inj he
    exact Expr.obeys_of_read hdefault
  · obtain ⟨typed, htyped, h⟩ := Option.bind_eq_some_iff.1 h
    obtain ⟨hconsistent, h⟩ := Option.ite_none_right_eq_some.1 h
    obtain rfl := Option.some.inj h
    obtain ⟨type, htype, rfl⟩ := Option.map_eq_some_iff.1 htyped
    exact ⟨.of_isConsistent hconsistent, TypeMark.obeys_of_read htype, fun e he => nomatch he⟩

/-- The comment split off from the last line of a declaration. -/
theorem Comment.wellFormed_of_splitTrailer {c : Comment} (h : (splitTrailer t).2 = some c) :
    Laws.wellFormed.comment c := by
  obtain ⟨text, -, hc⟩ := Option.bind_eq_some_iff.1 h
  exact wellFormed_of_ofText? hc

theorem ObjectDecl.obeys_of_read {d : ObjectDecl} (h : ObjectDecl.read room t = some d) :
    d.Obeys .wellFormed := by
  obtain ⟨c, -, h⟩ := Option.bind_eq_some_iff.1 h
  simp only [readAs, Option.bind_eq_bind] at h
  split at h
  · cases h
  obtain ⟨code, -, h⟩ := Option.bind_eq_some_iff.1 h
  obtain ⟨body, -, h⟩ := Option.bind_eq_some_iff.1 h
  obtain ⟨⟨name, rest⟩, -, h⟩ := Option.bind_eq_some_iff.1 h
  obtain ⟨typed, htyped, h⟩ := Option.bind_eq_some_iff.1 h
  obtain ⟨hfits, htype, hdefault⟩ := TypedName.of_readTyped htyped
  rw [ofTyped?] at h
  split at h
  · obtain rfl := Option.some.inj h
    exact ⟨hfits, trivial, htype, hdefault, fun c hc => Comment.wellFormed_of_splitTrailer hc⟩
  · cases h

theorem ObjectDecl.obeys_of_readWithTrailer {trailer : Option Text} {d : ObjectDecl}
    (h : ObjectDecl.readWithTrailer room t trailer = some d) : d.Obeys .wellFormed := by
  obtain ⟨d, hd, rfl⟩ := Option.map_eq_some_iff.1 h
  obtain ⟨hfits, hname, htype, hdefault, hcomment⟩ := obeys_of_read hd
  split
  · split
    · exact ⟨hfits, hname, htype, hdefault, fun c hc => Comment.wellFormed_of_ofText? hc⟩
    · exact ⟨hfits, hname, htype, hdefault, hcomment⟩
  · exact ⟨hfits, hname, htype, hdefault, hcomment⟩

/-! ## Simple statements -/

theorem Comment.wellFormed_of_read {c : Comment} (h : Comment.read t = some c) :
    Laws.wellFormed.comment c := by
  simp only [read] at h
  split at h
  · cases h
  split at h
  · exact wellFormed_of_ofText? h
  · cases h

theorem Statement.obeys_of_readBody {s : Statement} (h : Statement.readBody room t = some s) :
    s.Obeys .wellFormed := by
  rw [readBody] at h
  split at h
  · obtain rfl := Option.some.inj h
    trivial
  split at h
  · split at h
    · obtain rfl := Option.some.inj h
      exact fun e he => nomatch he
    · obtain ⟨value, hvalue, rfl⟩ := Option.map_eq_some_iff.1 h
      intro e he
      obtain rfl := Option.some.inj he
      exact Expr.obeys_of_read hvalue
  · obtain ⟨⟨i, kind⟩, -, h⟩ := Option.bind_eq_some_iff.1 h
    obtain ⟨target, htarget, h⟩ := Option.bind_eq_some_iff.1 h
    obtain ⟨value, hvalue, h⟩ := Option.bind_eq_some_iff.1 h
    obtain rfl := Option.some.inj h
    exact ⟨Reference.obeys_of_read htarget, Expr.obeys_of_read hvalue⟩

theorem Statement.obeys_of_read {s : Statement} (h : Statement.read room t = some s) :
    s.Obeys .wellFormed := by
  simp only [read] at h
  split at h
  · cases h
  split at h
  · next hc =>
    obtain rfl := Option.some.inj h
    exact Comment.wellFormed_of_read hc
  split at h
  · next hd =>
    obtain rfl := Option.some.inj h
    exact ObjectDecl.obeys_of_read hd
  · split at h
    · cases h
    · obtain ⟨body, -, h⟩ := Option.bind_eq_some_iff.1 h
      exact obeys_of_readBody h

theorem Statement.obeys_of_readDeclarations {ss : List Statement}
    (h : Statement.readDeclarations room t = some ss) : ∀ s ∈ ss, s.Obeys .wellFormed := by
  obtain ⟨pieces, -, h⟩ := Option.bind_eq_some_iff.1 h
  refine forall_of_mapM (fun p s hs => ?_) _ _ h
  split at hs
  · obtain ⟨c, hc, rfl⟩ := Option.map_eq_some_iff.1 hs
    exact Comment.wellFormed_of_ofText? hc
  · obtain ⟨d, hd, rfl⟩ := Option.map_eq_some_iff.1 hs
    exact ObjectDecl.obeys_of_readWithTrailer hd

/-! ## Choices -/

theorem Choice.obeys_of_readSingle {c : Choice} (h : Choice.readSingle room t = some c) :
    c.Obeys .wellFormed ∧ ∀ cs, c ≠ .alternatives cs := by
  simp only [readSingle] at h
  split at h
  · obtain rfl := Option.some.inj h
    exact ⟨trivial, fun cs hcs => nomatch hcs⟩
  split at h
  · next hr =>
    obtain rfl := Option.some.inj h
    exact ⟨⟨trivial, Range.obeys_of_read hr⟩, fun cs hcs => nomatch hcs⟩
  · obtain ⟨e, he, rfl⟩ := Option.map_eq_some_iff.1 h
    exact ⟨⟨trivial, Expr.obeys_of_read he⟩, fun cs hcs => nomatch hcs⟩

theorem Choice.obeys_of_readAlternative {c : Choice} (h : Choice.readAlternative room t = some c) :
    c.isAlternative = true ∧ c.Obeys .wellFormed := by
  rw [readAlternative] at h
  split at h
  · cases h
  · next hothers =>
    obtain ⟨hobeys, hsingle⟩ := obeys_of_readSingle h
    refine ⟨?_, hobeys⟩
    cases c with
    | value | range => rfl
    | alternatives cs => exact absurd rfl (hsingle cs)
    | others => exact absurd h hothers

theorem Text.splitOuter_ne_nil (separator : Char) (t : Text) : splitOuter separator t ≠ [] := by
  rw [splitOuter]
  cases ((outerPoints t).filter (·.char == separator)).map (·.position) <;>
    exact List.cons_ne_nil _ _

theorem Choice.obeys_of_read {c : Choice} (h : Choice.read room t = some c) :
    c.Obeys .wellFormed := by
  rw [read] at h
  split at h
  · exact (obeys_of_readSingle h).1
  · next hseveral =>
    obtain ⟨cs, hcs, rfl⟩ := Option.map_eq_some_iff.1 h
    have hall := forall_of_mapM (fun _ _ => obeys_of_readAlternative) _ _ hcs
    refine ⟨⟨?_, fun c hc => (hall c hc).1⟩, (allObey_iff _).2 fun c hc => (hall c hc).2⟩
    rw [length_of_mapM hcs]
    rcases hpieces : splitOuter '|' (trim t) with _ | ⟨piece, _ | ⟨piece', pieces⟩⟩
    · exact absurd hpieces (splitOuter_ne_nil _ _)
    · exact absurd hpieces (hseveral piece)
    · rw [List.length_cons, List.length_cons]
      omega

/-! ## Sequential code -/

theorem Sequential.obeys_ofElements {es : List Sequential}
    (h : ∀ e ∈ es, e.Obeys .wellFormed ∧ e.isList = false) :
    (Sequential.ofElements es).Obeys .wellFormed := by
  rw [ofElements.eq_def]
  split
  · exact (h _ List.mem_cons_self).1
  · next hseveral =>
    refine ⟨⟨fun hlength => ?_, fun e he => (h e he).2⟩, (allObey_iff _).2 fun e he => (h e he).1⟩
    obtain ⟨single, hsingle⟩ := List.length_eq_one_iff.1 hlength
    exact hseveral single hsingle

/-- A region is well formed if its statements are and none of them is a region. -/
theorem Sequential.obeys_of_readRegionWith {statement : Text → Option Sequential}
    (hstatement : ∀ t s, statement t = some s → s.Obeys .wellFormed ∧ s.isList = false)
    {s : Sequential} (h : Sequential.readRegionWith room statement t = some s) : s.Obeys .wellFormed := by
  rw [readRegionWith] at h
  split at h
  · cases h
  obtain ⟨pieces, -, h⟩ := Option.bind_eq_some_iff.1 h
  obtain ⟨elements, helements, h⟩ := Option.bind_eq_some_iff.1 h
  obtain rfl := Option.some.inj h
  have hpiece : ∀ p ss, readPieceWith room statement p = some ss →
      ∀ s ∈ ss, s.Obeys .wellFormed ∧ s.isList = false := by
    have hcomment : ∀ c d, Comment.ofText? c = some d →
        (comment d).Obeys .wellFormed ∧ (comment d).isList = false :=
      fun c d hd => ⟨⟨trivial, Comment.wellFormed_of_ofText? hd⟩, rfl⟩
    intro p ss hp
    cases p with
    | comment c =>
      obtain ⟨d, hd, rfl⟩ := Option.map_eq_some_iff.1 hp
      exact List.forall_mem_singleton.2 (hcomment _ _ hd)
    | code code trailer =>
      simp only [readPieceWith] at hp
      split at hp
      · next d hd =>
        obtain rfl := Option.some.inj hp
        exact List.forall_mem_singleton.2
          ⟨⟨trivial, ObjectDecl.obeys_of_readWithTrailer hd⟩, rfl⟩
      obtain ⟨element, helement, hp⟩ := Option.bind_eq_some_iff.1 hp
      have hfirst := hstatement _ _ helement
      split at hp
      · obtain rfl := Option.some.inj hp
        exact List.forall_mem_singleton.2 hfirst
      · obtain ⟨c, hc, rfl⟩ := Option.map_eq_some_iff.1 hp
        exact List.forall_mem_cons.2 ⟨hfirst, List.forall_mem_singleton.2 (hcomment _ _ hc)⟩
  refine obeys_ofElements fun s hs => ?_
  obtain ⟨ss, hss, hs⟩ := List.mem_flatten.1 hs
  exact forall_of_mapM hpiece _ _ helements ss hss s hs

theorem Branch.ne_nil_of_split? {fuel : Nat} {ts : List Text} (h : Branch.split? fuel t = some ts) :
    ts ≠ [] := by
  cases fuel with
  | zero => cases h
  | succ fuel =>
    obtain ⟨⟨choice, rest⟩, -, h⟩ := Option.bind_eq_some_iff.1 h
    dsimp only at h
    split at h
    · obtain rfl := Option.some.inj h
      exact List.cons_ne_nil _ _
    · obtain ⟨branches, -, h⟩ := Option.bind_eq_some_iff.1 h
      obtain rfl := Option.some.inj h
      exact List.cons_ne_nil _ _

section Compound

variable {region : Text → Option Sequential}
  (hregion : ∀ t s, region t = some s → s.Obeys .wellFormed)

include hregion

theorem Sequential.obeys_of_readConditionalWith {conditional : Text → Option Sequential}
    (hconditional : ∀ t s, conditional t = some s → s.Obeys .wellFormed)
    {s : Sequential} (h : Sequential.readConditionalWith room region conditional t = some s) :
    s.Obeys .wellFormed ∧ s.isList = false := by
  obtain ⟨inner, -, h⟩ := Option.bind_eq_some_iff.1 h
  obtain ⟨⟨condition, branches⟩, -, h⟩ := Option.bind_eq_some_iff.1 h
  obtain ⟨c, hc, h⟩ := Option.bind_eq_some_iff.1 h
  have hcondition := Expr.obeys_of_read hc
  split at h
  · obtain ⟨body, hbody, rfl⟩ := Option.map_eq_some_iff.1 h
    exact ⟨⟨trivial, hcondition, hregion _ _ hbody, trivial⟩, rfl⟩
  · obtain ⟨body, hbody, h⟩ := Option.bind_eq_some_iff.1 h
    obtain ⟨rest, hrest, h⟩ := Option.bind_eq_some_iff.1 h
    obtain rfl := Option.some.inj h
    exact ⟨⟨trivial, hcondition, hregion _ _ hbody, hconditional _ _ hrest⟩, rfl⟩
  · obtain ⟨body, hbody, h⟩ := Option.bind_eq_some_iff.1 h
    obtain ⟨rest, hrest, h⟩ := Option.bind_eq_some_iff.1 h
    obtain rfl := Option.some.inj h
    exact ⟨⟨trivial, hcondition, hregion _ _ hbody, hregion _ _ hrest⟩, rfl⟩

theorem Branch.obeys_of_readWith {b : Branch} (h : Branch.readWith room region t = some b) :
    b.Obeys .wellFormed := by
  obtain ⟨rest, -, h⟩ := Option.bind_eq_some_iff.1 h
  obtain ⟨⟨choice, body⟩, -, h⟩ := Option.bind_eq_some_iff.1 h
  obtain ⟨c, hc, h⟩ := Option.bind_eq_some_iff.1 h
  obtain ⟨b, hb, h⟩ := Option.bind_eq_some_iff.1 h
  obtain rfl := Option.some.inj h
  exact ⟨Choice.obeys_of_read hc, hregion _ _ hb⟩

theorem Sequential.obeys_of_readSelectionWith {s : Sequential}
    (h : Sequential.readSelectionWith room region t = some s) : s.Obeys .wellFormed ∧ s.isList = false := by
  obtain ⟨inner, -, h⟩ := Option.bind_eq_some_iff.1 h
  obtain ⟨⟨selector, branches⟩, -, h⟩ := Option.bind_eq_some_iff.1 h
  obtain ⟨e, he, h⟩ := Option.bind_eq_some_iff.1 h
  obtain ⟨⟨i, k⟩, -, h⟩ := Option.bind_eq_some_iff.1 h
  obtain ⟨-, h⟩ := Option.ite_none_left_eq_some.1 h
  obtain ⟨texts, htexts, h⟩ := Option.bind_eq_some_iff.1 h
  obtain ⟨bs, hbs, h⟩ := Option.bind_eq_some_iff.1 h
  obtain rfl := Option.some.inj h
  have hne : bs ≠ [] := fun hnil => Branch.ne_nil_of_split? htexts
    (List.length_eq_zero_iff.1 (by rw [← length_of_mapM hbs, hnil]; rfl))
  exact ⟨⟨hne, Expr.obeys_of_read he, (Branch.allObey_iff _).2
    (forall_of_mapM (fun _ _ => Branch.obeys_of_readWith hregion) _ _ hbs)⟩, rfl⟩

theorem Sequential.obeys_of_readLoopWith {s : Sequential} (h : Sequential.readLoopWith room region t = some s) :
    s.Obeys .wellFormed ∧ s.isList = false := by
  obtain ⟨inner, -, h⟩ := Option.bind_eq_some_iff.1 h
  obtain ⟨⟨parameter, range, body⟩, -, h⟩ := Option.bind_eq_some_iff.1 h
  obtain ⟨parameter, -, h⟩ := Option.bind_eq_some_iff.1 h
  obtain ⟨r, hr, h⟩ := Option.bind_eq_some_iff.1 h
  obtain ⟨b, hb, h⟩ := Option.bind_eq_some_iff.1 h
  obtain rfl := Option.some.inj h
  exact ⟨⟨trivial, trivial, Range.obeys_of_read hr, hregion _ _ hb⟩, rfl⟩

end Compound

/-- Regions and compound statements are well formed, and only regions are regions. -/
theorem Sequential.obeys_of_readers (room : Nat) :
    (∀ t s, Sequential.read room t = some s → s.Obeys .wellFormed)
    ∧ (∀ t s, readConditional room t = some s → s.Obeys .wellFormed ∧ s.isList = false)
    ∧ (∀ t s, readSelection room t = some s → s.Obeys .wellFormed ∧ s.isList = false)
    ∧ ∀ t s, readLoop room t = some s → s.Obeys .wellFormed ∧ s.isList = false := by
  induction room with
  | zero =>
    refine ⟨?_, ?_, ?_, ?_⟩ <;> exact fun t s h => nomatch h
  | succ room ih =>
    obtain ⟨hregion, hconditional, hselection, hloop⟩ := ih
    refine ⟨fun t s h => obeys_of_readRegionWith (fun code e he => ?_) h,
      fun t s h => obeys_of_readConditionalWith hregion (fun t s h => (hconditional t s h).1) h,
      fun t s h => obeys_of_readSelectionWith hregion h,
      fun t s h => obeys_of_readLoopWith hregion h⟩
    split at he
    · exact hconditional _ _ he
    split at he
    · exact hselection _ _ he
    split at he
    · exact hloop _ _ he
    · obtain ⟨s, hs, rfl⟩ := Option.map_eq_some_iff.1 he
      exact ⟨⟨trivial, Statement.obeys_of_read hs⟩, rfl⟩

theorem Sequential.obeys_of_read {s : Sequential} (h : Sequential.read room t = some s) :
    s.Obeys .wellFormed :=
  (Sequential.obeys_of_readers room).1 t s h

/-! ## Concurrent assignments -/

theorem ConditionalWaveform.obeys_of_readParts {parts : List Text} {w : ConditionalWaveform}
    (h : readParts room parts = some w) : w.Obeys .wellFormed := by
  induction parts using readParts.induct generalizing w with
  | case1 => cases h
  | case2 last =>
    obtain ⟨e, he, rfl⟩ := Option.map_eq_some_iff.1 h
    exact Expr.obeys_of_read he
  | case3 v c rest ih =>
    obtain ⟨ev, hv, h⟩ := Option.bind_eq_some_iff.1 h
    obtain ⟨ec, hc, h⟩ := Option.bind_eq_some_iff.1 h
    obtain ⟨er, hr, h⟩ := Option.bind_eq_some_iff.1 h
    obtain rfl := Option.some.inj h
    exact ⟨Expr.obeys_of_read hv, Expr.obeys_of_read hc, ih hr⟩

theorem Waveform.obeys_of_read {w : Waveform} (h : Waveform.read room t = some w) :
    w.Obeys .wellFormed := by
  obtain ⟨chain, hchain, rfl⟩ := Option.map_eq_some_iff.1 h
  simp only [ConditionalWaveform.read] at hchain
  obtain ⟨-, hchain⟩ := Option.ite_none_left_eq_some.1 hchain
  have hobeys := ConditionalWaveform.obeys_of_readParts hchain
  cases chain with
  | value e => exact ⟨trivial, hobeys⟩
  | choose v c rest => exact ⟨fun e he => (nomatch he), hobeys⟩

theorem ConcurrentStatement.obeys_of_read {s : ConcurrentStatement}
    (h : ConcurrentStatement.read room t = some s) : s.Obeys .wellFormed := by
  simp only [read] at h
  split at h
  · cases h
  split at h
  · next hc =>
    obtain rfl := Option.some.inj h
    exact Comment.wellFormed_of_read hc
  · split at h
    · cases h
    obtain ⟨body, -, h⟩ := Option.bind_eq_some_iff.1 h
    obtain ⟨⟨target, value⟩, -, h⟩ := Option.bind_eq_some_iff.1 h
    obtain ⟨r, hr, h⟩ := Option.bind_eq_some_iff.1 h
    obtain ⟨w, hw, h⟩ := Option.bind_eq_some_iff.1 h
    obtain rfl := Option.some.inj h
    exact ⟨Reference.obeys_of_read hr, Waveform.obeys_of_read hw⟩

/-! ## Processes and instances -/

theorem ProcessStatement.distinct_of_splitSensitivity? {names : List Ident} {rest : Text}
    (h : splitSensitivity? t = some (names, rest)) : Ident.distinct names = true := by
  rw [splitSensitivity?] at h
  split at h
  · obtain ⟨⟨inner, after⟩, -, h⟩ := Option.bind_eq_some_iff.1 h
    obtain ⟨ns, hns, h⟩ := Option.bind_eq_some_iff.1 h
    obtain ⟨rfl, -⟩ := Prod.mk.inj (Option.some.inj h)
    obtain ⟨is, -, his⟩ := Option.bind_eq_some_iff.1 hns
    obtain ⟨hdistinct, his⟩ := Option.ite_none_right_eq_some.1 his
    obtain rfl := Option.some.inj his
    exact hdistinct
  · obtain ⟨rfl, -⟩ := Prod.mk.inj (Option.some.inj h)
    rfl

theorem ProcessStatement.obeys_of_readLabelled {label : Option Ident} {p : ProcessStatement}
    (h : ProcessStatement.readLabelled room label t = some p) : p.Obeys .wellFormed := by
  obtain ⟨rest, -, h⟩ := Option.bind_eq_some_iff.1 h
  obtain ⟨inner, -, h⟩ := Option.bind_eq_some_iff.1 h
  obtain ⟨⟨names, rest⟩, hnames, h⟩ := Option.bind_eq_some_iff.1 h
  obtain ⟨⟨head, body⟩, -, h⟩ := Option.bind_eq_some_iff.1 h
  obtain ⟨ds, hds, h⟩ := Option.bind_eq_some_iff.1 h
  obtain ⟨s, hs, h⟩ := Option.bind_eq_some_iff.1 h
  obtain rfl := Option.some.inj h
  exact ⟨distinct_of_splitSensitivity? hnames, fun _ _ => trivial, fun _ _ => trivial,
    Statement.obeys_of_readDeclarations hds, Sequential.obeys_of_read hs⟩

theorem ProcessStatement.obeys_of_read {p : ProcessStatement}
    (h : ProcessStatement.read room t = some p) : p.Obeys .wellFormed := by
  simp only [read] at h
  obtain ⟨-, h⟩ := Option.ite_none_left_eq_some.1 h
  split at h
  · cases h
  split at h
  · exact obeys_of_readLabelled h
  · exact obeys_of_readLabelled h

theorem Association.obeys_of_read {a : Association} (h : Association.read room t = some a) :
    a.Obeys .wellFormed := by
  have hactual : ∀ (formal : Option Reference) (u : Text), (∀ r ∈ formal, r.Obeys .wellFormed) →
      (if sameWord u "open".toList then some ⟨formal, .unconnected⟩
        else (do
          let value ← Expr.read room u
          some (Association.mk formal (.value value)))) = some a → a.Obeys .wellFormed := by
    intro formal u hformal h
    split at h
    · obtain rfl := Option.some.inj h
      exact ⟨hformal, trivial⟩
    · obtain ⟨e, he, h⟩ := Option.bind_eq_some_iff.1 h
      obtain rfl := Option.some.inj h
      exact ⟨hformal, Expr.obeys_of_read he⟩
  simp only [read] at h
  split at h
  · obtain ⟨formal, hformal, h⟩ := Option.bind_eq_some_iff.1 h
    refine hactual (some formal) _ (fun r hr => ?_) h
    obtain rfl := Option.some.inj hr
    exact Reference.obeys_of_read hformal
  · exact hactual none _ (fun r hr => nomatch hr) h

theorem InstanceSource.obeys_wellFormed (s : InstanceSource) : s.Obeys .wellFormed := by
  cases s with
  | component => trivial
  | entity => exact ⟨trivial, trivial, fun _ _ => trivial⟩

theorem Instance.obeys_of_splitMap? {keyword : Text} {as : List Association} {rest : Text}
    (h : splitMap? room keyword t = some (as, rest)) : ∀ a ∈ as, a.Obeys .wellFormed := by
  obtain ⟨u, -, h⟩ := Option.bind_eq_some_iff.1 h
  obtain ⟨⟨inner, after⟩, -, h⟩ := Option.bind_eq_some_iff.1 h
  obtain ⟨bs, hbs, h⟩ := Option.bind_eq_some_iff.1 h
  obtain ⟨rfl, -⟩ := Prod.mk.inj (Option.some.inj h)
  exact forall_of_mapM (fun _ _ => Association.obeys_of_read) _ _ hbs

/-- A map that is left out has no associations. -/
theorem Instance.obeys_of_splitMap?_getD {keyword u : Text} :
    ∀ a ∈ ((splitMap? room keyword t).getD ([], u)).1, a.Obeys .wellFormed := by
  cases h : splitMap? room keyword t with
  | none => exact fun a ha => nomatch ha
  | some m => exact obeys_of_splitMap? h

theorem Instance.obeys_of_read {i : Instance} (h : Instance.read room t = some i) :
    i.Obeys .wellFormed := by
  simp only [read] at h
  split at h
  · cases h
  obtain ⟨⟨label, rest⟩, -, h⟩ := Option.bind_eq_some_iff.1 h
  obtain ⟨body, -, h⟩ := Option.bind_eq_some_iff.1 h
  obtain ⟨source, -, h⟩ := Option.bind_eq_some_iff.1 h
  obtain ⟨-, h⟩ := Option.ite_none_right_eq_some.1 h
  obtain rfl := Option.some.inj h
  exact ⟨trivial, source.obeys_wellFormed, obeys_of_splitMap?_getD, obeys_of_splitMap?_getD⟩

/-! ## Concurrent code -/

theorem Concurrent.obeys_ofElements {es : List Concurrent}
    (h : ∀ e ∈ es, e.Obeys .wellFormed ∧ e.isList = false) :
    (Concurrent.ofElements es).Obeys .wellFormed := by
  rw [ofElements.eq_def]
  split
  · exact (h _ List.mem_cons_self).1
  · next hseveral =>
    refine ⟨⟨fun hlength => ?_, fun e he => (h e he).2⟩, (allObey_iff _).2 fun e he => (h e he).1⟩
    obtain ⟨single, hsingle⟩ := List.length_eq_one_iff.1 hlength
    exact hseveral single hsingle

theorem Concurrent.obeys_of_readPieceWith {statement : Text → Option Concurrent}
    (hstatement : ∀ t c, statement t = some c → c.Obeys .wellFormed ∧ c.isList = false)
    {p : Piece} {cs : List Concurrent} (h : readPieceWith statement p = some cs) :
    ∀ c ∈ cs, c.Obeys .wellFormed ∧ c.isList = false := by
  have hcomment : ∀ c d, Comment.ofText? c = some d →
      (comment d).Obeys .wellFormed ∧ (comment d).isList = false :=
    fun c d hd => ⟨⟨trivial, Comment.wellFormed_of_ofText? hd⟩, rfl⟩
  cases p with
  | comment c =>
    obtain ⟨d, hd, rfl⟩ := Option.map_eq_some_iff.1 h
    exact List.forall_mem_singleton.2 (hcomment _ _ hd)
  | code code trailer =>
    obtain ⟨element, helement, h⟩ := Option.bind_eq_some_iff.1 h
    have hfirst := hstatement _ _ helement
    split at h
    · obtain rfl := Option.some.inj h
      exact List.forall_mem_singleton.2 hfirst
    · obtain ⟨c, hc, rfl⟩ := Option.map_eq_some_iff.1 h
      exact List.forall_mem_cons.2 ⟨hfirst, List.forall_mem_singleton.2 (hcomment _ _ hc)⟩

theorem Concurrent.obeys_of_readGenerateWith {body : Text → Option Concurrent}
    (hbody : ∀ t c, body t = some c → c.Obeys .wellFormed) {c : Concurrent}
    (h : readGenerateWith room body t = some c) : c.Obeys .wellFormed ∧ c.isList = false := by
  obtain ⟨-, h⟩ := Option.ite_none_left_eq_some.1 h
  obtain ⟨⟨label, rest⟩, -, h⟩ := Option.bind_eq_some_iff.1 h
  obtain ⟨rest, -, h⟩ := Option.bind_eq_some_iff.1 h
  obtain ⟨inner, -, h⟩ := Option.bind_eq_some_iff.1 h
  obtain ⟨⟨parameter, range, inside⟩, -, h⟩ := Option.bind_eq_some_iff.1 h
  obtain ⟨parameter, -, h⟩ := Option.bind_eq_some_iff.1 h
  obtain ⟨r, hr, h⟩ := Option.bind_eq_some_iff.1 h
  obtain ⟨b, hb, h⟩ := Option.bind_eq_some_iff.1 h
  obtain rfl := Option.some.inj h
  exact ⟨⟨trivial, trivial, trivial, Range.obeys_of_read hr, hbody _ _ hb⟩, rfl⟩

/-- Regions and generated regions are well formed, and only regions are regions. -/
theorem Concurrent.obeys_of_readers (room : Nat) :
    (∀ t c, Concurrent.read room t = some c → c.Obeys .wellFormed)
    ∧ ∀ t c, readGenerate room t = some c → c.Obeys .wellFormed ∧ c.isList = false := by
  induction room with
  | zero => exact ⟨(fun t c h => nomatch h), fun t c h => nomatch h⟩
  | succ room ih =>
    obtain ⟨hregion, hgenerate⟩ := ih
    refine ⟨fun t c h => ?_, fun t c h => obeys_of_readGenerateWith hregion h⟩
    rw [Concurrent.read] at h
    obtain ⟨-, h⟩ := Option.ite_none_left_eq_some.1 h
    obtain ⟨pieces, -, h⟩ := Option.bind_eq_some_iff.1 h
    obtain ⟨elements, helements, h⟩ := Option.bind_eq_some_iff.1 h
    obtain rfl := Option.some.inj h
    refine obeys_ofElements fun c hc => ?_
    obtain ⟨cs, hcs, hc⟩ := List.mem_flatten.1 hc
    refine forall_of_mapM (fun p cs => obeys_of_readPieceWith ?_) _ _ helements cs hcs c hc
    have hprocess : ∀ code c, (ProcessStatement.read room code).map process = some c →
        c.Obeys .wellFormed ∧ c.isList = false := by
      intro code c h
      obtain ⟨p, hp, rfl⟩ := Option.map_eq_some_iff.1 h
      exact ⟨⟨trivial, ProcessStatement.obeys_of_read hp⟩, rfl⟩
    intro code c h
    split at h
    · split at h
      · exact hprocess _ _ h
      split at h
      · exact hgenerate _ _ h
      · obtain ⟨i, hi, rfl⟩ := Option.map_eq_some_iff.1 h
        exact ⟨⟨trivial, Instance.obeys_of_read hi⟩, rfl⟩
    · split at h
      · exact hprocess _ _ h
      · obtain ⟨s, hs, rfl⟩ := Option.map_eq_some_iff.1 h
        exact ⟨⟨trivial, ConcurrentStatement.obeys_of_read hs⟩, rfl⟩

theorem Concurrent.obeys_of_read {c : Concurrent} (h : Concurrent.read room t = some c) :
    c.Obeys .wellFormed :=
  (Concurrent.obeys_of_readers room).1 t c h

end CanonicalVhdl
