import CanonicalVhdl.Proofs.Settled.Statement

/-!
# Settled concurrent code

Processes, instances, assignments and generated regions that can be read are
settled.

## Main statements

* `ConditionalWaveform.spaced_keywords` — keywords do not overlap.
* `Concurrent.settled_of_read` — regions of concurrent code.
-/

namespace CanonicalVhdl

open Text

/-! ## Words apart -/

namespace Text

/-- A word that stands at a code point. -/
theorem exists_of_matchesAt_word {w : Text} {p : CodePoint}
    (hw : w.head?.any Char.isAlpha = true) (h : matchesAt w p = true) :
    p.before.any isIdentChar = false ∧ ∃ x u, p.rest = x ++ u ∧ sameWord w x = true := by
  refine ⟨?_, exists_of_matchesAt h⟩
  cases w with
  | nil => cases h
  | cons c w =>
    simp only [matchesAt, show c.isAlpha = true from hw, if_true] at h
    obtain ⟨r, hr⟩ := Option.isSome_iff_exists.1 h
    obtain ⟨hbefore, -⟩ := Option.ite_none_left_eq_some.1 hr
    rw [List.isEmpty_cons, Bool.false_or, Bool.not_eq_true] at hbefore
    exact hbefore

/-- Two words at different places do not overlap. -/
theorem add_length_le_position {w w' t : Text} {p q : CodePoint} (hw : w.all isIdentChar = true)
    (halpha : w.head?.any Char.isAlpha = true) (halpha' : w'.head?.any Char.isAlpha = true)
    (hp : p ∈ codePoints t) (hq : q ∈ codePoints t) (hlt : p.position < q.position)
    (hpw : matchesAt w p = true) (hqw : matchesAt w' q = true) :
    p.position + w.length ≤ q.position := by
  obtain ⟨-, x, u, hx, hsame⟩ := exists_of_matchesAt_word halpha hpw
  obtain ⟨hbefore, -⟩ := exists_of_matchesAt_word halpha' hqw
  obtain ⟨s, hs, hposition, -⟩ := mem_codePoints hp
  obtain ⟨s', hs', hposition', hlast, -⟩ := mem_codePoints hq
  have hident : x.all isIdentChar = true := by
    rw [← all_isIdentChar_fold, ← sameWord_iff.1 hsame, all_isIdentChar_fold]
    exact hw
  rw [length_eq_of_sameWord hsame, hposition, hposition']
  by_contra hlong
  -- the text before the second word ends inside the first one
  have htake : s' = s ++ x.take (s'.length - s.length) := by
    have hprefix : s' = t.take s'.length := by rw [hs', List.take_left]
    rw [hs, hx] at hprefix
    obtain ⟨k, hk⟩ := Nat.exists_eq_add_of_lt (hposition ▸ hposition' ▸ hlt)
    rw [show s'.length = s.length + (k + 1) by omega, List.take_length_add_append,
      List.take_append_of_le_length (by omega)] at hprefix
    rw [show s'.length - s.length = k + 1 by omega]
    exact hprefix
  have hne : x.take (s'.length - s.length) ≠ [] := by
    intro hnil
    have := congrArg List.length hnil
    rw [List.length_take, List.length_nil] at this
    omega
  rw [hlast, htake, lastOr_append, lastOr_of_ne_nil hne, List.getLast?_eq_some_getLast hne,
    Option.any_some] at hbefore
  rw [List.all_eq_true.1 hident _ (List.mem_of_mem_take (List.getLast_mem hne))] at hbefore
  cases hbefore

end Text

namespace ConditionalWaveform

theorem eq_of_keyword {p : CodePoint} {k : Nat × Bool}
    (h : (if matchesAt "when".toList p then some (p.position, true)
      else if matchesAt "else".toList p then some (p.position, false) else none) = some k) :
    p.position = k.1 ∧ ∃ w ∈ ["when".toList, "else".toList], matchesAt w p = true := by
  split at h
  · next hwhen =>
    obtain rfl := Option.some.inj h
    exact ⟨rfl, _, by decide, hwhen⟩
  split at h
  · next helse =>
    obtain rfl := Option.some.inj h
    exact ⟨rfl, _, by decide, helse⟩
  · cases h

theorem segments_eq (cuts : List Nat) :
    ∀ (start : Nat) (t : Text), segments start t cuts = cutAt 4 start t cuts := by
  induction cuts with
  | nil => exact fun _ _ => rfl
  | cons i cuts ih => exact fun start t => congrArg _ (ih _ _)

/-- Keywords do not overlap. -/
theorem spaced_keywords (t : Text) : ((keywords t).map (·.1)).Pairwise (· + 4 ≤ ·) := by
  have hsorted : (outerPoints t).Pairwise (·.position < ·.position) :=
    (codePointsFrom_pairwise 0 0 0 none t).filter _
  rw [List.pairwise_map, keywords, List.pairwise_filterMap]
  refine hsorted.imp_of_mem fun {p q} hp hq hlt k hk l hl => ?_
  obtain ⟨hk, w, hw, hwp⟩ := eq_of_keyword hk
  obtain ⟨hl, w', hw', hwq⟩ := eq_of_keyword hl
  have hwords : ∀ w ∈ ["when".toList, "else".toList],
      w.all isIdentChar = true ∧ w.head?.any Char.isAlpha = true ∧ w.length = 4 := by decide
  obtain ⟨hident, halpha, hlength⟩ := hwords w hw
  have hle := add_length_le_position hident halpha (hwords w' hw').2.1 (mem_outerPoints hp)
    (mem_outerPoints hq) hlt hwp hwq
  rw [← hk, ← hl]
  omega

theorem settled_of_segments {t : Text}
    (h : ∀ piece ∈ segments 0 t ((keywords t).map (·.1)), Settled piece) : Settled t := by
  rw [segments_eq] at h
  refine Settled.of_cutAt (by decide) 0 (fun i hi => ⟨Nat.zero_le i, ?_⟩) (spaced_keywords t) h
  obtain ⟨k, hk, rfl⟩ := List.mem_map.1 hi
  obtain ⟨p, hp, hkp⟩ := List.mem_filterMap.1 hk
  obtain ⟨hposition, w, hw, hwp⟩ := eq_of_keyword hkp
  obtain ⟨s, hs, hlength, -⟩ := mem_codePoints (mem_outerPoints hp)
  obtain ⟨x, u, hx, hsame⟩ := exists_of_matchesAt hwp
  have hwords : ∀ w ∈ ["when".toList, "else".toList], IsBland w ∧ w.length = 4 := by decide
  refine ⟨x, ?_, (hwords w hw).1.of_sameWord hsame, u, ?_⟩
  · rw [← length_eq_of_sameWord hsame, (hwords w hw).2]
  · rw [Nat.sub_zero, ← hposition, hlength, ← hx]
    conv_rhs => rw [hs, List.drop_left]

variable {room : Nat}

theorem settled_of_readParts {parts : List Text} {w : ConditionalWaveform}
    (h : readParts room parts = some w) : ∀ part ∈ parts, Settled part := by
  induction parts using readParts.induct generalizing w with
  | case1 => cases h
  | case2 last =>
    obtain ⟨e, he, -⟩ := Option.map_eq_some_iff.1 h
    exact List.forall_mem_singleton.2 (Expr.settled_of_read he)
  | case3 v c rest ih =>
    obtain ⟨ev, hv, h⟩ := Option.bind_eq_some_iff.1 h
    obtain ⟨ec, hc, h⟩ := Option.bind_eq_some_iff.1 h
    obtain ⟨er, hr, -⟩ := Option.bind_eq_some_iff.1 h
    exact List.forall_mem_cons.2
      ⟨Expr.settled_of_read hv, List.forall_mem_cons.2 ⟨Expr.settled_of_read hc, ih hr⟩⟩

end ConditionalWaveform

section Read

variable {room : Nat} {t : Text}

/-! ## Assignments -/

theorem Waveform.settled_of_read {w : Waveform} (h : Waveform.read room t = some w) : Settled t := by
  obtain ⟨chain, hchain, -⟩ := Option.map_eq_some_iff.1 h
  simp only [ConditionalWaveform.read] at hchain
  obtain ⟨-, hchain⟩ := Option.ite_none_left_eq_some.1 hchain
  exact (ConditionalWaveform.settled_of_segments
    (ConditionalWaveform.settled_of_readParts hchain)).of_trim.of_withoutComments

theorem ConcurrentStatement.settled_of_read {s : ConcurrentStatement}
    (h : ConcurrentStatement.read room t = some s) : Settled t := by
  refine Settled.of_trim ?_
  simp only [read] at h
  obtain ⟨-, h⟩ := Option.ite_none_left_eq_some.1 h
  split at h
  · next hc => exact Comment.settled_of_read hc
  · obtain ⟨-, h⟩ := Option.ite_none_left_eq_some.1 h
    obtain ⟨body, hbody, h⟩ := Option.bind_eq_some_iff.1 h
    obtain ⟨⟨target, value⟩, hcut, h⟩ := Option.bind_eq_some_iff.1 h
    obtain ⟨r, hr, h⟩ := Option.bind_eq_some_iff.1 h
    obtain ⟨w, hw, -⟩ := Option.bind_eq_some_iff.1 h
    exact ((blandEnd_dropFinal? (by decide) hbody).settled (Settled.of_cutOuter? (by decide)
      (by decide) (Reference.settled_of_read hr) (Waveform.settled_of_read hw) hcut)).of_withoutComments

/-! ## Processes -/

theorem settled_of_labelled? {label : Ident} {rest : Text} (hrest : Settled rest)
    (h : labelled? t = some (label, rest)) : Settled t := by
  obtain ⟨⟨a, b⟩, hsplit, h⟩ := Option.bind_eq_some_iff.1 h
  obtain ⟨-, h⟩ := Option.ite_none_left_eq_some.1 h
  obtain ⟨n, hn, h⟩ := Option.bind_eq_some_iff.1 h
  obtain ⟨-, rfl⟩ := Prod.mk.inj (Option.some.inj h)
  exact (Settled.of_splitOnce (by decide) (Ident.isBland_of_trimEnd hn).settled hrest.of_trimStart
    hsplit).of_trimStart

theorem ProcessStatement.settled_of_splitSensitivity? {names : List Ident} {rest : Text}
    (hrest : Settled rest) (h : ProcessStatement.splitSensitivity? t = some (names, rest)) :
    Settled t := by
  rw [splitSensitivity?] at h
  split at h
  · obtain ⟨⟨inner, after⟩, hgroup, h⟩ := Option.bind_eq_some_iff.1 h
    obtain ⟨ns, hns, h⟩ := Option.bind_eq_some_iff.1 h
    obtain ⟨-, rfl⟩ := Prod.mk.inj (Option.some.inj h)
    obtain ⟨read, hread, -⟩ := Option.bind_eq_some_iff.1 hns
    refine Settled.of_parenthesised? (Settled.of_splitOuter (c := ',') (by decide)
      fun piece hpiece => ?_) hrest.of_trimStart hgroup
    obtain ⟨n, hn⟩ := (mem_mapM hread).1 piece hpiece
    exact Ident.settled_of_trim hn
  · obtain ⟨-, rfl⟩ := Prod.mk.inj (Option.some.inj h)
    exact hrest

/-- A text behind a word that may be missing. -/
theorem Text.Settled.of_afterWord?_getD {w t : Text} (hw : IsBland w)
    (h : Settled ((afterWord? w t).getD t)) : Settled t := by
  cases hafter : afterWord? w t with
  | none => rwa [hafter] at h
  | some r =>
    rw [hafter] at h
    exact Settled.of_afterWord? hw h hafter

theorem Ident.isBland_of_mem_map_text (label : Option Ident) :
    ∀ n ∈ label.map Ident.text, IsBland n := by
  intro n hn
  obtain ⟨i, -, rfl⟩ := Option.map_eq_some_iff.1 hn
  exact i.isBland

theorem ProcessStatement.settled_of_readLabelled {label : Option Ident} {p : ProcessStatement}
    (h : ProcessStatement.readLabelled room label t = some p) : Settled t := by
  obtain ⟨rest, hrest, h⟩ := Option.bind_eq_some_iff.1 h
  obtain ⟨inner, hinner, h⟩ := Option.bind_eq_some_iff.1 h
  obtain ⟨⟨names, after⟩, hsensitivity, h⟩ := Option.bind_eq_some_iff.1 h
  obtain ⟨⟨declarations, body⟩, hcut, h⟩ := Option.bind_eq_some_iff.1 h
  obtain ⟨ds, hds, h⟩ := Option.bind_eq_some_iff.1 h
  obtain ⟨b, hb, -⟩ := Option.bind_eq_some_iff.1 h
  have hparts := Settled.of_cutClause? (by decide) (by decide)
    (Statement.settled_of_readDeclarations hds) (Sequential.settled_of_read hb) hcut
  have hafter := Settled.of_afterWord?_getD (by decide) hparts
  refine Settled.of_afterWord? (by decide) (Settled.of_beforeEnd? (by decide)
    (Ident.isBland_of_mem_map_text _) (settled_of_splitSensitivity? hafter hsensitivity) hinner) hrest

theorem ProcessStatement.settled_of_read {p : ProcessStatement}
    (h : ProcessStatement.read room t = some p) : Settled t := by
  refine Settled.of_trim ?_
  simp only [read] at h
  obtain ⟨-, h⟩ := Option.ite_none_left_eq_some.1 h
  split at h
  · cases h
  split at h
  · next hlabel => exact settled_of_labelled? (settled_of_readLabelled h) hlabel
  · exact settled_of_readLabelled h

/-! ## Instances -/

theorem Association.settled_of_read {a : Association} (h : Association.read room t = some a) :
    Settled t := by
  refine Settled.of_trim ?_
  have hactual : ∀ {formal : Option Reference} {actual : Text},
      (if sameWord actual "open".toList then some (⟨formal, .unconnected⟩ : Association)
        else (Expr.read room actual).bind fun value => some ⟨formal, .value value⟩) = some a →
      Settled actual := by
    intro formal actual h
    split at h
    · next hopen =>
      have hbland : IsBland "open".toList := by decide
      exact (hbland.of_sameWord ((sameWord_comm _ _).trans hopen)).settled
    · obtain ⟨e, he, -⟩ := Option.bind_eq_some_iff.1 h
      exact Expr.settled_of_read he
  simp only [read, Option.bind_eq_bind] at h
  split at h
  · next formal actual hcut =>
    obtain ⟨r, hr, h⟩ := Option.bind_eq_some_iff.1 h
    exact Settled.of_cutOuter? (by decide) (by decide) (Reference.settled_of_read hr)
      (hactual h).of_trim hcut
  · exact hactual h

theorem InstanceSource.settled_of_splitArchitecture? {selected : Text} {a : Option Ident}
    (hselected : Settled selected)
    (h : InstanceSource.splitArchitecture? t = some (selected, a)) : Settled t := by
  rw [splitArchitecture?] at h
  split at h
  · obtain ⟨rfl, -⟩ := Prod.mk.inj (Option.some.inj h)
    exact hselected
  · next hsplit =>
    obtain ⟨inner, hinner, h⟩ := Option.bind_eq_some_iff.1 h
    obtain ⟨n, hn, h⟩ := Option.bind_eq_some_iff.1 h
    obtain ⟨rfl, -⟩ := Prod.mk.inj (Option.some.inj h)
    exact Settled.of_splitOnce (by decide) hselected ((blandEnd_dropFinal? (by decide)
      hinner).settled (Ident.settled_of_trim hn)).of_trimEnd hsplit

theorem InstanceSource.settled_of_read {s : InstanceSource} (h : InstanceSource.read t = some s) :
    Settled t := by
  refine Settled.of_trim ?_
  simp only [read] at h
  split at h
  · next rest hrest =>
    obtain ⟨⟨selected, a⟩, hselected, h⟩ := Option.bind_eq_some_iff.1 h
    obtain ⟨⟨lib, name⟩, hsplit, h⟩ := Option.bind_eq_some_iff.1 h
    obtain ⟨l, hl, h⟩ := Option.bind_eq_some_iff.1 h
    obtain ⟨n, hn, -⟩ := Option.bind_eq_some_iff.1 h
    refine Settled.of_afterWord? (by decide) (settled_of_splitArchitecture? ?_ hselected) hrest
    exact Settled.of_splitOnce (by decide) (Ident.settled_of_trim hl) (Ident.settled_of_trim hn)
      hsplit
  · obtain ⟨n, hn, -⟩ := Option.map_eq_some_iff.1 h
    exact Settled.of_afterWord?_getD (by decide) (Ident.isBland_of_ofText? hn).settled

theorem Instance.settled_of_splitMap? {keyword rest : Text} {as : List Association}
    (hkeyword : IsBland keyword) (hrest : Settled rest)
    (h : Instance.splitMap? room keyword t = some (as, rest)) : Settled t := by
  obtain ⟨after, hafter, h⟩ := Option.bind_eq_some_iff.1 h
  obtain ⟨⟨inner, behind⟩, hgroup, h⟩ := Option.bind_eq_some_iff.1 h
  obtain ⟨associations, hassociations, h⟩ := Option.bind_eq_some_iff.1 h
  obtain ⟨-, rfl⟩ := Prod.mk.inj (Option.some.inj h)
  refine Settled.of_afterWords? ?_ (Settled.of_parenthesised? (Settled.of_splitOuter (c := ',')
    (by decide) fun piece hpiece => ?_) hrest.of_trimStart hgroup) hafter
  · exact List.forall_mem_cons.2 ⟨hkeyword, by decide⟩
  · obtain ⟨a, ha⟩ := (mem_mapM hassociations).1 piece hpiece
    exact Association.settled_of_read ha

/-- A map that a text may start with. -/
theorem Instance.settled_of_splitMap?_getD (room : Nat) {keyword t : Text}
    (hkeyword : IsBland keyword) (h : Settled ((Instance.splitMap? room keyword t).getD ([], t)).2) :
    Settled t := by
  cases hmap : splitMap? room keyword t with
  | none => rwa [hmap] at h
  | some next =>
    rw [hmap] at h
    exact settled_of_splitMap? hkeyword h hmap

/-- The maps of an instance start with a word. -/
theorem Instance.head?_maps_ne (body : Text) :
    (body.drop ((outerMatches "generic".toList body ++ outerMatches "port".toList body).min?.getD
      body.length)).head? ≠ some '"' := by
  have hword : ∀ w ∈ ["generic".toList, "port".toList], ∀ i ∈ outerMatches w body,
      (body.drop i).head? ≠ some '"' := by
    intro w hw i hi
    have hwords : ∀ w ∈ ["generic".toList, "port".toList], IsBland w ∧ w ≠ [] := by decide
    obtain ⟨s, x, u, rfl, rfl, hx, -⟩ := mem_outerMatches hi
    have hne : x ≠ [] := by
      rintro rfl
      exact (hwords w hw).2 (List.eq_nil_of_length_eq_zero (length_eq_of_sameWord hx))
    rw [List.drop_left, List.head?_append_of_ne_nil _ hne]
    exact ((hwords w hw).1.of_sameWord hx).head?_ne
  cases hmin : (outerMatches "generic".toList body ++ outerMatches "port".toList body).min? with
  | none =>
    rw [Option.getD_none, List.drop_length]
    exact fun h => nomatch h
  | some i =>
    rw [Option.getD_some]
    rcases List.mem_append.1 (List.min?_mem hmin) with hi | hi
    · exact hword _ (by decide) i hi
    · exact hword _ (by decide) i hi

theorem Instance.settled_of_read {i : Instance} (h : Instance.read room t = some i) :
    Settled t := by
  simp only [read, Option.bind_eq_bind] at h
  obtain ⟨-, h⟩ := Option.ite_none_left_eq_some.1 h
  obtain ⟨⟨label, rest⟩, hlabel, h⟩ := Option.bind_eq_some_iff.1 h
  obtain ⟨body, hbody, h⟩ := Option.bind_eq_some_iff.1 h
  obtain ⟨source, hsource, h⟩ := Option.bind_eq_some_iff.1 h
  obtain ⟨hempty, -⟩ := Option.ite_none_right_eq_some.1 h
  have hmaps := settled_of_splitMap?_getD room (by decide)
    (settled_of_splitMap?_getD room (by decide) ((List.isEmpty_iff.1 hempty).symm ▸ settled_nil))
  have hsettled := (InstanceSource.settled_of_read hsource).append hmaps
    fun _ => head?_maps_ne (trimEnd body)
  rw [List.take_append_drop] at hsettled
  have hrest := (blandEnd_dropFinal? (by decide) hbody).settled hsettled.of_trimEnd
  exact (settled_of_labelled? hrest hlabel).of_trim.of_withoutComments

/-! ## Regions -/

theorem Concurrent.settled_of_readGenerateWith {body : Text → Option Concurrent}
    (hbody : ∀ t c, body t = some c → Settled t) {c : Concurrent}
    (h : Concurrent.readGenerateWith room body t = some c) : Settled t := by
  refine Settled.of_trim ?_
  obtain ⟨-, h⟩ := Option.ite_none_left_eq_some.1 h
  obtain ⟨⟨label, rest⟩, hlabel, h⟩ := Option.bind_eq_some_iff.1 h
  obtain ⟨header, hfor, h⟩ := Option.bind_eq_some_iff.1 h
  obtain ⟨inner, hinner, h⟩ := Option.bind_eq_some_iff.1 h
  obtain ⟨⟨parameter, range, inside⟩, hsplit, h⟩ := Option.bind_eq_some_iff.1 h
  obtain ⟨p, hp, h⟩ := Option.bind_eq_some_iff.1 h
  obtain ⟨r, hr, h⟩ := Option.bind_eq_some_iff.1 h
  obtain ⟨b, hb, -⟩ := Option.bind_eq_some_iff.1 h
  have hinside := Settled.of_afterWord?_getD (by decide) (hbody _ _ hb)
  have hheader := Sequential.settled_of_splitIteration? (by decide) (by decide)
    (Ident.settled_of_trim hp) (Range.settled_of_read hr) hinside hsplit
  exact settled_of_labelled? (Settled.of_afterWord? (by decide) (Settled.of_beforeEnd? (by decide)
    (Ident.isBland_of_mem_map_text (some label)) hheader hinner) hfor) hlabel

theorem Concurrent.settled_of_readers (room : Nat) :
    (∀ t c, Concurrent.read room t = some c → Settled t)
    ∧ ∀ t c, Concurrent.readGenerate room t = some c → Settled t := by
  induction room with
  | zero => exact ⟨fun t c h => (nomatch h), fun t c h => nomatch h⟩
  | succ room ih =>
    obtain ⟨hregion, hgenerate⟩ := ih
    refine ⟨fun t c h => ?_, fun t c h => settled_of_readGenerateWith hregion h⟩
    obtain ⟨-, h⟩ := Option.ite_none_left_eq_some.1 h
    obtain ⟨pieces, hpieces, h⟩ := Option.bind_eq_some_iff.1 h
    obtain ⟨elements, helements, -⟩ := Option.bind_eq_some_iff.1 h
    refine settled_of_pieces? hpieces fun code trailer hcode => ?_
    obtain ⟨cs, hcs⟩ := (mem_mapM helements).1 _ hcode
    obtain ⟨element, helement, -⟩ := Option.bind_eq_some_iff.1 hcs
    dsimp only at helement
    split at helement
    · split at helement
      · obtain ⟨p, hp, -⟩ := Option.map_eq_some_iff.1 helement
        exact ProcessStatement.settled_of_read hp
      split at helement
      · exact hgenerate _ _ helement
      · obtain ⟨i, hi, -⟩ := Option.map_eq_some_iff.1 helement
        exact Instance.settled_of_read hi
    · split at helement
      · obtain ⟨p, hp, -⟩ := Option.map_eq_some_iff.1 helement
        exact ProcessStatement.settled_of_read hp
      · obtain ⟨s, hs, -⟩ := Option.map_eq_some_iff.1 helement
        exact ConcurrentStatement.settled_of_read hs

theorem Concurrent.settled_of_read {c : Concurrent} (h : Concurrent.read room t = some c) :
    Settled t :=
  (Concurrent.settled_of_readers room).1 t c h

end Read

end CanonicalVhdl
