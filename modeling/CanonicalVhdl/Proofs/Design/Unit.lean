import CanonicalVhdl.Proofs.Settled.Design
import CanonicalVhdl.Proofs.Settled.Sequel

/-!
# Units that can be read

A unit ends where a scan of the file says.  For a unit that can be read this is the same
place in every file: a design unit is a construct of its own, whose text is settled, and
a context clause holds no word that could open anything.

## Main definitions

* `SourceUnit.IsCode v` — a unit other than a comment that ends where it ends, whatever
  follows it.

## Main statements

* `ContextClause.exists_extent?` — where a context clause ends.
* `SourceUnit.IsCode.isSequel` — a unit carries nothing on that stands before it.
* `DesignUnit.isCode_of_read` — a unit that can be read ends where it ends.
-/

namespace CanonicalVhdl

open Text Token

/-! ## Context clauses -/

theorem Ident.isTame_of_ofText? {t : Text} {i : Ident} (h : ofText? t = some i) : IsTame t := by
  rw [← of_ofText? h]
  exact (isTame_run i.isRun.ident).2 i.not_mem_structureWords

namespace ContextClause

theorem isTame_of_readUse {t : Text} {c : ContextClause} (h : readUse t = some c) : IsTame t := by
  rw [← (join_splitOn '.' t).1]
  refine isTame_join fun p hp => IsTame.of_trim ?_
  have hmem : trim p ∈ (splitOn '.' t).map trim := List.mem_map_of_mem hp
  simp only [readUse, Option.bind_eq_bind] at h
  revert h hmem
  generalize (splitOn '.' t).map trim = segments
  intro h hmem
  obtain ⟨path, hpath, -⟩ := Option.bind_eq_some_iff.1 h
  have hident : ∀ {s}, (∃ i, Ident.ofText? s = some i) → IsTame s := by
    rintro s ⟨i, hi⟩
    exact Ident.isTame_of_ofText? hi
  split at hpath
  · -- the last segment is the word for all names
    next hall =>
    obtain ⟨last, hlast, hword⟩ := (Option.any_eq_true _ _).1 hall
    obtain ⟨init, rfl⟩ := List.getLast?_eq_some_iff.1 hlast
    rw [List.dropLast_concat] at hpath
    rcases List.mem_append.1 hmem with hmem | hmem
    · exact hident ((mem_mapM hpath).1 _ hmem)
    · rw [List.mem_singleton.1 hmem]
      have hfold : Text.fold last = Text.fold "all".toList := sameWord_iff.1 hword
      have hrun : last.all isIdentChar = true := by
        rw [← all_isIdentChar_fold, hfold]
        decide
      exact (isTame_run hrun).2 (by rw [hfold]; decide)
  · exact hident ((mem_mapM hpath).1 _ hmem)

/-- A keyword, and tame text behind it. -/
theorem isTame_of_afterWord? {w t r : Text} (hw : w.all isIdentChar = true)
    (hplain : structureWords.contains (Text.fold w) = false) (h : afterWord? w t = some r)
    (hr : IsTame r) : IsTame t := by
  obtain ⟨g, x, g', hg, hx, hg', -, hhead, rfl⟩ := exists_of_afterWord? h
  have hfold : Text.fold w = Text.fold x := sameWord_iff.1 hx
  have hrun : x.all isIdentChar = true := by
    rw [← all_isIdentChar_fold, ← hfold, all_isIdentChar_fold, hw]
  have hword : IsTame x := (isTame_run hrun).2 (by rw [← hfold, hplain])
  exact (hword.append (hr.blank_append hg') hhead).blank_append hg

/-- **A context clause ends at its first semicolon**, whatever follows it. -/
theorem exists_extent? {t : Text} {c : ContextClause} (h : read t = some c) :
    ∃ k, ∀ r, extent? (t ++ r) = some k := by
  simp only [read, Option.bind_eq_bind] at h
  obtain ⟨-, h⟩ := Option.ite_none_left_eq_some.1 h
  obtain ⟨u, hu, h⟩ := Option.bind_eq_some_iff.1 h
  have hbody : IsTame (trimEnd u) := by
    split at h
    · next name hname =>
      obtain ⟨i, hi, -⟩ := Option.map_eq_some_iff.1 h
      exact isTame_of_afterWord? (by decide) (by decide) hname (Ident.isTame_of_ofText? hi)
    · obtain ⟨r, hr, h⟩ := Option.bind_eq_some_iff.1 h
      exact isTame_of_afterWord? (by decide) (by decide) hr (isTame_of_readUse h)
  obtain ⟨g, g', hg, -, hsplit⟩ := exists_pad_trim (withoutComments t)
  obtain ⟨g'', hg'', hend⟩ := exists_pad_trimEnd u
  obtain ⟨hlast, hu⟩ := Option.ite_none_right_eq_some.1 hu
  obtain ⟨s, hs⟩ := List.getLast?_eq_some_iff.1 (beq_iff_eq.1 hlast)
  obtain rfl : s = u := by
    have := Option.some.inj hu
    rwa [hs, List.dropLast_concat] at this
  refine exists_extent?_of_tame (x := g ++ s) (y := g') ?_ ?_
  · rw [hsplit, hs]
    simp
  · rw [hend]
    exact (hbody.append_blank hg'').blank_append hg

end ContextClause

namespace SourceUnit

/-- A unit other than a comment that ends where it ends, whatever follows it that does not
carry it on. -/
structure IsCode (v : Text) : Prop where
  /-- The unit starts with no ASCII blank. -/
  head : v.head?.any isAsciiBlank = false
  /-- The first word of the unit carries nothing on. -/
  opens : ∃ g w r, v = g ++ (w ++ r) ∧ g.all isBlank = true ∧ IsRun w
    ∧ r.head?.any isIdentChar = false ∧ ∀ k ∈ continuationWords, sameWord k w = false
  /-- What follows does not change where the unit ends. -/
  ends : ∀ u, IsSequel u → extent? (v ++ u) = some v.length

/-- A unit starts with a blank that is not ASCII, or with a word. -/
theorem IsCode.exists_cons {v : Text} (h : IsCode v) :
    ∃ c r, v = c :: r ∧ isAsciiBlank c = false ∧ (isBlank c = true ∨ isIdentChar c = true) := by
  obtain ⟨g, w, r, hv, hg, hw, -, -⟩ := h.opens
  have hhead := h.head
  rcases g with _ | ⟨c, g⟩
  · rcases w with _ | ⟨c, w⟩
    · exact absurd rfl hw.ne_nil
    · rw [hv] at hhead
      exact ⟨c, w ++ r, hv, hhead, .inr (List.all_eq_true.1 hw.ident c List.mem_cons_self)⟩
  · rw [hv] at hhead
    exact ⟨c, g ++ (w ++ r), hv, hhead, .inl (List.all_eq_true.1 hg c List.mem_cons_self)⟩

/-- A unit starts with no tick, no quotation mark and no comment. -/
theorem IsCode.head_ne {v : Text} (h : IsCode v) {d : Char} (hd : d = '\'' ∨ d = '"' ∨ d = '-') :
    v.head? ≠ some d := by
  obtain ⟨c, r, rfl, -, hc⟩ := h.exists_cons
  intro hhead
  obtain rfl := Option.some.inj hhead
  rcases hd with rfl | rfl | rfl <;> exact absurd hc (by decide)

/-- A unit carries nothing on. -/
theorem IsCode.isSequel {v u : Text} (h : IsCode v) (hu : IsSequel u) : IsSequel (v ++ u) := by
  have hend := h.ends [] isSequel_nil
  rw [List.append_nil] at hend
  obtain ⟨c, t, rfl, hblank, -⟩ := h.exists_cons
  refine StartsAfresh.isSequel ⟨h.head_ne (.inl rfl), ?_⟩ hblank ?_ hend hu
  · intro k hk
    obtain ⟨hbarred, -⟩ := isBarred_of_mem_continuationWords hk
    obtain ⟨g, w, r, hv, hg, hw, hr, hwords⟩ := h.opens
    rw [hv]
    rcases g with _ | ⟨d, g⟩
    · rw [List.nil_append, standsAt_run hbarred.isPattern hw rfl hr, hwords k hk, Bool.and_false]
    · exact standsAt_blank hbarred.isPattern (List.all_eq_true.1 hg d List.mem_cons_self)
  · rintro rfl
    exact absurd rfl (h.head_ne (d := '-') (.inr (.inr rfl)))

end SourceUnit

/-! ## Units that can be read -/

/-- The words that units start with. -/
def UnitKind.unitWords : List Text :=
  ["library", "use", "entity", "architecture", "package"].map String.toList

/-- A unit of a known kind starts with its word. -/
theorem UnitKind.exists_startsWith {t : Text} (hcomment : ofText t ≠ .comment)
    (hunknown : ofText t ≠ .unknown) : ∃ w ∈ unitWords, startsWith w t = true := by
  rw [ofText] at hcomment hunknown
  split at hcomment
  · exact absurd rfl hcomment
  · next hdash =>
    rw [if_neg hdash] at hunknown
    split at hunknown
    · next h =>
      rcases Bool.or_eq_true_iff.1 h with h | h
      · exact ⟨_, by decide, h⟩
      · exact ⟨_, by decide, h⟩
    split at hunknown
    · next h => exact ⟨_, by decide, h⟩
    split at hunknown
    · next h => exact ⟨_, by decide, h⟩
    split at hunknown
    · next h =>
      rw [afterWords?_pair] at h
      obtain ⟨r, hr⟩ := Option.isSome_iff_exists.1 h
      obtain ⟨r', hr', -⟩ := Option.bind_eq_some_iff.1 hr
      exact ⟨"package".toList, by decide, Option.isSome_iff_exists.2 ⟨r', hr'⟩⟩
    split at hunknown
    · next h => exact ⟨_, by decide, h⟩
    · exact absurd rfl hunknown

/-- The first word of a unit carries nothing on. -/
theorem UnitKind.exists_opening {t : Text} (hcomment : ofText t ≠ .comment)
    (hunknown : ofText t ≠ .unknown) :
    ∃ g w r, t = g ++ (w ++ r) ∧ g.all isBlank = true ∧ IsRun w
      ∧ r.head?.any isIdentChar = false ∧ ∀ k ∈ continuationWords, sameWord k w = false := by
  have hwords : ∀ w ∈ unitWords, w ≠ [] ∧ w.all isIdentChar = true
      ∧ ∀ k ∈ continuationWords, sameWord k w = false := by decide +kernel
  obtain ⟨w, hw, hstart⟩ := exists_startsWith hcomment hunknown
  obtain ⟨r, hr⟩ := Option.isSome_iff_exists.1 hstart
  obtain ⟨g, x, g', hg, hx, -, -, hhead, rfl⟩ := exists_of_afterWord? hr
  obtain ⟨hne, hident, hcontinues⟩ := hwords w hw
  have hfold := sameWord_iff.1 hx
  refine ⟨g, x, g' ++ r, rfl, hg, ⟨?_, ?_⟩, hhead, fun k hk => ?_⟩
  · rintro rfl
    exact hne (List.eq_nil_of_length_eq_zero (length_eq_of_sameWord hx))
  · rw [← all_isIdentChar_fold, ← hfold, all_isIdentChar_fold, hident]
  · rw [Bool.eq_false_iff]
    intro hsame
    have := hcontinues k hk
    rw [sameWord_iff.2 ((sameWord_iff.1 hsame).trans hfold.symm)] at this
    cases this

section Read

variable {room : Nat} {t : Text}

/-- A design unit is a construct of its own, and settled. -/
theorem DesignUnit.isConstruct_of_read {kind : UnitKind} {start : Nat} {d : DesignUnit}
    (h : read room ⟨kind, start, t⟩ = some d) (hcomment : kind ≠ .comment)
    (hcontext : kind ≠ .context) : isConstruct (trim t) = true ∧ Settled t := by
  have hcons : ∀ {α : Type} {b : Bool} {x : Option α} {y : α},
      (if b || !isConstruct (trim t) then none else x) = some y → isConstruct (trim t) = true := by
    intro α b x y h
    obtain ⟨hb, -⟩ := Option.ite_none_left_eq_some.1 h
    rw [Bool.or_eq_true, not_or, Bool.not_eq_true', Bool.not_eq_false] at hb
    exact hb.2
  cases kind with
  | comment => exact absurd rfl hcomment
  | context => exact absurd rfl hcontext
  | unknown => cases h
  | entity =>
    obtain ⟨e, he, -⟩ := Option.map_eq_some_iff.1 h
    refine ⟨?_, Interface.settled_of_readAs (by decide) he⟩
    simp only [Interface.readEntity, Interface.readAs, Interface.splitUnit?,
      Option.bind_eq_bind] at he
    obtain ⟨parts, hparts, -⟩ := Option.bind_eq_some_iff.1 he
    exact hcons hparts
  | architecture =>
    obtain ⟨a, ha, -⟩ := Option.map_eq_some_iff.1 h
    refine ⟨?_, Architecture.settled_of_read ha⟩
    simp only [Architecture.read] at ha
    exact hcons ha
  | package =>
    obtain ⟨p, hp, -⟩ := Option.map_eq_some_iff.1 h
    refine ⟨?_, Package.settled_of_read hp⟩
    simp only [Package.read] at hp
    exact hcons hp
  | packageBody =>
    obtain ⟨b, hb, -⟩ := Option.map_eq_some_iff.1 h
    refine ⟨?_, PackageBody.settled_of_read hb⟩
    simp only [PackageBody.read] at hb
    exact hcons hb

/-- A settled construct with blanks around it, up to where a scan ends it. -/
theorem SourceUnit.ends_of_isConstruct {s : Text} (hsettled : Settled t)
    (hcons : isConstruct (trim t) = true) (hhead : (trim t).head? ≠ some '\'')
    (hextent : (extent? (t ++ s)).getD (t ++ s).length = t.length) :
    ∀ u, IsSequel u → extent? (t ++ u) = some t.length := by
  obtain ⟨g, g', hg, hg', hsplit⟩ := exists_pad_trim t
  have hconstruct := extent?_append_blank hg hhead (beq_iff_eq.1 hcons)
  have hbody : Settled (g ++ trim t) := by
    rw [hsplit] at hsettled
    exact hsettled.of_append_bland (isBland_of_blank hg')
  have hnil : g' = [] := by
    cases hend : extent? (t ++ s) with
    | some n =>
      -- what the scan cuts out ends with a semicolon
      rw [hend, Option.getD_some] at hextent
      have hlast := getLast?_take_of_extent? hend
      rw [hextent, List.take_left] at hlast
      by_contra hne
      rw [hsplit, List.getLast?_append_of_ne_nil _ hne] at hlast
      have := List.all_eq_true.1 hg' _ (List.mem_of_getLast? hlast)
      exact absurd this (by decide)
    | none =>
      -- all that is left is blanks, and the scan ends before them
      rw [hend, Option.getD_none, List.length_append] at hextent
      have hs : s = [] := List.eq_nil_of_length_eq_zero (by omega)
      rw [hs, List.append_nil, hsplit,
        extent?_append hbody (isSequel_blank hg') hconstruct] at hend
      cases hend
  rw [hnil, List.append_nil] at hsplit
  intro u hu
  rw [hsplit]
  exact extent?_append hbody hu hconstruct

/-- **A unit that can be read ends where it ends**, whatever follows it. -/
theorem DesignUnit.isCode_of_read {s : Text} {start : Nat} {d : DesignUnit}
    (h : read room ⟨UnitKind.ofText t, start, t⟩ = some d)
    (hhead : t.head?.any isAsciiBlank = false) (hcomment : UnitKind.ofText t ≠ .comment)
    (hextent : (extent? (t ++ s)).getD (t ++ s).length = t.length) : SourceUnit.IsCode t := by
  have hunknown : UnitKind.ofText t ≠ .unknown := by
    intro hunknown
    rw [hunknown] at h
    cases h
  obtain ⟨g, w, r, hsplit, hg, hw, hr, hwords⟩ := UnitKind.exists_opening hcomment hunknown
  refine ⟨hhead, ⟨g, w, r, hsplit, hg, hw, hr, hwords⟩, ?_⟩
  by_cases hcontext : UnitKind.ofText t = .context
  · rw [hcontext] at h
    obtain ⟨c, hc, -⟩ := Option.map_eq_some_iff.1 h
    obtain ⟨k, hk⟩ := ContextClause.exists_extent? hc
    intro u _
    rw [hk s, Option.getD_some] at hextent
    rw [hk u, hextent]
  · obtain ⟨hcons, hsettled⟩ := isConstruct_of_read h hcomment hcontext
    refine SourceUnit.ends_of_isConstruct hsettled hcons ?_ hextent
    -- the text starts with the word of the unit
    obtain ⟨c, v, rfl⟩ := List.exists_cons_of_ne_nil hw.ne_nil
    have hident := List.all_eq_true.1 hw.ident c List.mem_cons_self
    have htrim : trimStart t = c :: (v ++ r) := by
      rw [hsplit, trimStart_append hg, List.cons_append]
      exact trimStart_eq_self (isBlank_eq_false_of_isIdentChar hident)
    intro htick
    obtain ⟨g', hg', hend⟩ := exists_pad_trimEnd (trimStart t)
    obtain ⟨x, hx⟩ := List.head?_eq_some_iff.1 htick
    rw [show trimEnd (trimStart t) = trim t from rfl, hx, htrim] at hend
    rw [(List.cons.inj hend).1] at hident
    cases hident

end Read
end CanonicalVhdl
