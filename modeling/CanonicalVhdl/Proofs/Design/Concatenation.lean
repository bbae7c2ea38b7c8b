import CanonicalVhdl.Proofs.Bytewise.Basic
import CanonicalVhdl.Proofs.Design.Assembly
import CanonicalVhdl.Proofs.Design.Unit
import CanonicalVhdl.Proofs.Diagnostic.Review

/-!
# The units of a file

The units of a text divide its bytes among them, and those of two files one after the other are
the units of the first and then of the second.

Where a unit ends, words decide that look ahead, and they may look beyond its semicolon.
Still, no unit of a file that can be read is cut otherwise when another such file follows:
what follows starts with a blank, a comment or the word of a unit, and none of these
carries a unit on.  So two files joined by a line end are read as the units of the first
and then those of the second, but for the comment lines of the second, which count only
where no other unit precedes them.

## Main definitions

* `SourceUnit.Chain s t units` — the units of the text `t` behind the text `s`.
* `SourceUnit.Partition t units` — the units divide the bytes of a text among them.

## Main statements

* `SourceUnit.Cuts.append` — the units of a text, and those of what follows it.
* `DesignFile.read_append` — the file that two files make, one after the other.
* `SourceUnit.partition_split` — the units of a text divide its bytes among them.
-/

namespace CanonicalVhdl

open Text Token

/-- A unit is a comment only if it starts with two hyphens. -/
theorem UnitKind.exists_of_ofText_comment {t : Text} (h : ofText t = .comment) :
    ∃ x, t = '-' :: '-' :: x := by
  rw [ofText] at h
  split at h
  · next hdash =>
    obtain ⟨x, rfl⟩ := List.isPrefixOf_iff_prefix.1 hdash
    exact ⟨x, rfl⟩
  · repeat
      first
      | cases h
      | split at h

namespace SourceUnit

/-! ## Cutting a text -/

theorem lengthAt_le (c : Char) (t : Text) : lengthAt (c :: t) ≤ (c :: t).length := by
  have hextent : (extent? (c :: t)).getD (c :: t).length ≤ (c :: t).length := by
    cases h : extent? (c :: t) with
    | none => exact Nat.le_refl _
    | some n =>
      have := (extentFrom_bounds h).2
      rwa [Nat.zero_add] at this
  rw [lengthAt]
  obtain hat | ⟨x, r, rfl, hat | hat⟩ := at_split none c t <;> simp only [hat]
  · exact hextent
  · simp
  · exact hextent

/-- Every text is cut into units. -/
theorem exists_cuts (n : Nat) : ∀ t : Text, t.length ≤ n → ∃ ts, Cuts ts t := by
  induction n with
  | zero =>
    intro t ht
    rw [List.eq_nil_of_length_eq_zero (Nat.le_zero.1 ht)]
    exact ⟨[], .nil rfl⟩
  | succ n ih =>
    intro t ht
    cases hr : t.dropWhile isAsciiBlank with
    | nil => exact ⟨[], .nil hr⟩
    | cons c r =>
      have hshort := (List.dropWhile_sublist isAsciiBlank (l := t)).length_le
      have hpos := lengthAt_pos c r
      have hle := lengthAt_le c r
      rw [hr] at hshort
      rw [List.length_cons] at hshort hle
      obtain ⟨k, hk⟩ := Nat.exists_eq_add_one_of_ne_zero (Nat.ne_of_gt hpos)
      obtain ⟨ts, hts⟩ := ih (r.drop k) (by rw [List.length_drop]; omega)
      refine ⟨(c :: r.take k) :: ts, .cons (u := r.drop k) ?_ ?_ hts⟩
      · rw [List.take_append_drop, hr]
      · rw [List.take_append_drop, hk, List.length_take]
        omega

theorem Cuts.split {ts : List Text} {t : Text} (h : Cuts ts t) :
    (split t).map content = ts.map fun t => (UnitKind.ofText t, t) :=
  splitFrom_cuts h [] 0 (t.length + 1) (Nat.lt_succ_self _)

/-- The unit at the head of a text that starts with no comment. -/
theorem lengthAt_of_not_comment {t : Text} (h : ∀ n, Lexeme.at none t ≠ .comment n) :
    lengthAt t = (extent? t).getD t.length := by
  rw [lengthAt]
  split
  · next n hat => exact absurd hat (h n)
  · rfl

theorem IsCode.lengthAt_append {v u : Text} (h : IsCode v) (hu : IsSequel u) :
    lengthAt (v ++ u) = v.length := by
  rw [lengthAt_of_not_comment, h.ends u hu, Option.getD_some]
  intro n hat
  obtain ⟨x, r, hsplit, -⟩ := exists_comment hat
  obtain ⟨c, b, rfl, -⟩ := h.exists_cons
  exact h.head_ne (d := '-') (.inr (.inr rfl)) (congrArg some (List.cons.inj hsplit).1)

/-- **The units of a text whose units can be read, and those of what follows it.**  Nor
does the text with what follows carry on anything before it. -/
theorem Cuts.append {room : Nat} {ts us : List Text} {t w : Text} (h : Cuts ts t)
    (hread : ∀ v ∈ ts, UnitKind.ofText v ≠ .comment →
      ∃ d, DesignUnit.read room ⟨UnitKind.ofText v, 0, v⟩ = some d)
    (hline : AtLineEnd w) (hw : IsSequel w) (hcuts : Cuts us w) :
    IsSequel (t ++ w) ∧ Cuts (ts ++ us) (t ++ w) := by
  induction h with
  | @nil t hr =>
    have hblank : t.all isAsciiBlank = true := by
      rw [List.all_eq_true]
      exact List.dropWhile_eq_nil_iff.1 hr
    refine ⟨hw.blank_append (all_isBlank_of_ascii hblank), hcuts.congr ?_⟩
    rw [List.dropWhile_append, hr]
    rfl
  | @cons c v ts t r hr hlength hcuts' ih =>
    obtain ⟨hv, hts⟩ := List.forall_mem_cons.1 hread
    obtain ⟨hseq, hrest⟩ := ih hts
    have hsplit : t = t.takeWhile isAsciiBlank ++ (c :: (v ++ r)) := by
      rw [← hr, List.takeWhile_append_dropWhile]
    have hdrop : (t ++ w).dropWhile isAsciiBlank = c :: (v ++ (r ++ w)) := by
      rw [List.dropWhile_append, hr, ← List.append_assoc]
      rfl
    have hunit : IsSequel (c :: (v ++ (r ++ w)))
        ∧ lengthAt (c :: (v ++ (r ++ w))) = v.length + 1 := by
      by_cases hcomment : ∃ n, Lexeme.at none (c :: (v ++ r)) = .comment n
      · -- a comment line
        obtain ⟨n, hat⟩ := hcomment
        obtain ⟨x, s, heq, hn, hx, hs⟩ := exists_comment hat
        rw [lengthAt, hat] at hlength
        have hlen : n = v.length + 1 := hlength
        obtain ⟨rfl, htail⟩ := List.cons.inj heq
        obtain ⟨rfl, rfl⟩ := List.append_inj (show v ++ r = ('-' :: x) ++ s from htail)
          (by rw [List.length_cons]; omega)
        have hbreak : AtLineEnd (r ++ w) := hs.append hline
        refine ⟨hseq.comment hx hbreak, ?_⟩
        rw [List.cons_append, lengthAt, at_comment hx hbreak]
      · -- a unit that can be read
        have hne : UnitKind.ofText (c :: v) ≠ .comment := by
          intro hkind
          obtain ⟨x, hx⟩ := UnitKind.exists_of_ofText_comment hkind
          obtain ⟨rfl, rfl⟩ := List.cons.inj hx
          exact hcomment ⟨_, rfl⟩
        obtain ⟨d, hd⟩ := hv hne
        have hhead : (c :: v).head?.any isAsciiBlank = false := by
          have := List.head?_dropWhile_not isAsciiBlank t
          rw [hr] at this
          simpa using this
        rw [lengthAt_of_not_comment fun n hat => hcomment ⟨n, hat⟩, ← List.cons_append] at hlength
        have hcode := DesignUnit.isCode_of_read hd hhead hne hlength
        exact ⟨hcode.isSequel hseq, hcode.lengthAt_append hseq⟩
    refine ⟨?_, .cons hdrop hunit.2 hrest⟩
    rw [hsplit, List.append_assoc, List.cons_append, List.append_assoc]
    exact hunit.1.blank_append (all_isBlank_of_ascii List.all_takeWhile)

/-! ## The units that a file keeps -/

/-- What a file makes of a unit does not depend on where the unit stands. -/
theorem outcome_eq (room : Nat) (u : SourceUnit) :
    outcome room u = outcome room ⟨(content u).1, 0, (content u).2⟩ := by
  obtain ⟨kind, start, t⟩ := u
  cases kind <;> rfl

/-- Units with the same contents are read alike. -/
theorem mapM_kept_congr (room : Nat) {units units' : List SourceUnit}
    (h : units.map content = units'.map content) :
    (kept units).mapM (DesignUnit.read room) = (kept units').mapM (DesignUnit.read room) := by
  have hmap : ∀ us : List SourceUnit, us.map (outcome room)
      = (us.map content).map fun p => outcome room ⟨p.1, 0, p.2⟩ := by
    intro us
    rw [List.map_map]
    exact List.map_congr_left fun u _ => outcome_eq room u
  rw [mapM_kept, mapM_kept, hmap units, hmap units', h]

/-- A file keeps all units that are no comment lines. -/
theorem mem_kept_of_isComment {units : List SourceUnit} {u : SourceUnit} (hu : u ∈ units)
    (hcomment : u.isComment = false) : u ∈ kept units := by
  rw [← List.takeWhile_append_dropWhile (p := isComment) (l := units)] at hu
  rcases List.mem_append.1 hu with hu | hu
  · rw [List.mem_takeWhile_imp hu] at hcomment
    cases hcomment
  · exact List.mem_append_right _ (List.mem_filter.2 ⟨hu, by rw [hcomment]; rfl⟩)

/-- The kept units other than comment lines. -/
theorem kept_eq_append (units : List SourceUnit) :
    kept units = units.takeWhile isComment ++ units.filter (!·.isComment) := by
  have hhead : (units.takeWhile isComment).filter (!·.isComment) = [] := by
    rw [List.filter_eq_nil_iff]
    intro u hu
    rw [List.mem_takeWhile_imp hu]
    decide
  conv_rhs => rw [← List.takeWhile_append_dropWhile (p := isComment) (l := units)]
  rw [List.filter_append, hhead, List.nil_append, List.takeWhile_append_dropWhile, kept]

/-- The units of a text that can be read are read wherever they stand. -/
theorem Cuts.read_of_mem {room : Nat} {ts : List Text} {t : Text} {ds : List DesignUnit}
    (h : Cuts ts t) (hds : (kept (SourceUnit.split t)).mapM (DesignUnit.read room) = some ds) :
    ∀ v ∈ ts, UnitKind.ofText v ≠ .comment →
      ∃ d, DesignUnit.read room ⟨UnitKind.ofText v, 0, v⟩ = some d := by
  intro v hv hne
  have hmem : (UnitKind.ofText v, v) ∈ (SourceUnit.split t).map content := by
    rw [h.split]
    exact List.mem_map_of_mem hv
  obtain ⟨u, hu, hcontent⟩ := List.mem_map.1 hmem
  obtain ⟨hkind, htext⟩ := Prod.mk.inj hcontent
  have hcomment : u.isComment = false := by
    rw [isComment, hkind]
    simpa using hne
  obtain ⟨d, hd⟩ := (mem_mapM hds).1 u (mem_kept_of_isComment hu hcomment)
  have houtcome := congrArg Prod.snd (outcome_eq room u)
  rw [hcontent] at houtcome
  exact ⟨d, houtcome.symm.trans hd⟩

/-- A unit is read as a comment exactly if it is a comment line. -/
theorem comment?_of_read {room : Nat} {u : SourceUnit} {d : DesignUnit}
    (h : DesignUnit.read room u = some d) : (∃ c, d = .comment c) ↔ u.isComment = true := by
  obtain ⟨kind, start, t⟩ := u
  cases kind <;> simp only [DesignUnit.read, Option.map_eq_some_iff, reduceCtorEq] at h <;>
    obtain ⟨x, -, rfl⟩ := h <;> simp [isComment]

end SourceUnit

namespace DesignFile

/-- The files of two sequences of units, one after the other. -/
theorem ofUnits_append (ds es : List DesignUnit) :
    ofUnits (ds ++ es) = {
      header := (ofUnits ds).header ++ (ofUnits es).header
      context := (ofUnits ds).context ++ (ofUnits es).context
      packages := (ofUnits ds).packages ++ (ofUnits es).packages
      packageBodies := (ofUnits ds).packageBodies ++ (ofUnits es).packageBodies
      entities := (ofUnits ds).entities ++ (ofUnits es).entities
      architectures := (ofUnits ds).architectures ++ (ofUnits es).architectures } := by
  simp only [ofUnits, List.filterMap_append]

/-- Comments in front are all the header, and nothing else. -/
theorem ofUnits_comments_append {cs es : List DesignUnit} (hcs : ∀ d ∈ cs, ∃ c, d = .comment c)
    (hes : ∀ d ∈ es, ¬∃ c, d = .comment c) :
    ofUnits es = { ofUnits (cs ++ es) with header := [] } := by
  have hcs : cs.filterMap DesignUnit.context? = [] ∧ cs.filterMap DesignUnit.package? = []
      ∧ cs.filterMap DesignUnit.packageBody? = [] ∧ cs.filterMap DesignUnit.entity? = []
      ∧ cs.filterMap DesignUnit.architecture? = [] := by
    simp only [List.filterMap_eq_nil_iff]
    refine ⟨?_, ?_, ?_, ?_, ?_⟩ <;>
    · intro d hd
      obtain ⟨c, rfl⟩ := hcs d hd
      rfl
  have hes : es.filterMap DesignUnit.comment? = [] := by
    rw [List.filterMap_eq_nil_iff]
    intro d hd
    cases d with
    | comment c => exact absurd ⟨c, rfl⟩ (hes _ hd)
    | context | package | packageBody | entity | architecture => rfl
  obtain ⟨hcontext, hpackages, hbodies, hentities, harchitectures⟩ := hcs
  simp only [ofUnits, List.filterMap_append, hcontext, hpackages, hbodies, hentities,
    harchitectures, hes, List.nil_append]

/-- **Files concatenate**: joined by a line end, two files that can be read are read as the
units of the first and then those of the second.  The header of the second file counts only
when the first one has no unit but comment lines. -/
theorem read_append {room : Nat} {t u : Text} {f g : DesignFile} (ht : read room t = some f)
    (hu : read room u = some g) (hfits : fits Limits.blockBytes (t ++ '\n' :: u) = true) :
    read room (t ++ '\n' :: u) = some {
      header := f.header
        ++ if (SourceUnit.split t).all SourceUnit.isComment then g.header else []
      context := f.context ++ g.context
      packages := f.packages ++ g.packages
      packageBodies := f.packageBodies ++ g.packageBodies
      entities := f.entities ++ g.entities
      architectures := f.architectures ++ g.architectures } := by
  obtain ⟨-, ht⟩ := Option.ite_none_left_eq_some.1 ht
  obtain ⟨-, hu⟩ := Option.ite_none_left_eq_some.1 hu
  obtain ⟨ds, hds, rfl⟩ := Option.map_eq_some_iff.1 ht
  obtain ⟨es, hes, rfl⟩ := Option.map_eq_some_iff.1 hu
  -- the units of the joined text are those of its parts
  obtain ⟨ts, hts⟩ := SourceUnit.exists_cuts t.length t (Nat.le_refl _)
  obtain ⟨us, hus⟩ := SourceUnit.exists_cuts u.length u (Nat.le_refl _)
  have hseq := (hus.append (hus.read_of_mem hes) atLineEnd_nil isSequel_nil (.nil rfl)).1
  rw [List.append_nil] at hseq
  have hjoined := (hts.append (hts.read_of_mem hds) (atLineEnd_newline u)
    (hseq.cons_blank (by decide)) (hus.congr (u := '\n' :: u) rfl)).2
  have hunits : (SourceUnit.split (t ++ '\n' :: u)).map SourceUnit.content
      = (SourceUnit.split t ++ SourceUnit.split u).map SourceUnit.content := by
    rw [hjoined.split, List.map_append, List.map_append, hts.split, hus.split]
  rw [read, hfits, Bool.not_true, if_neg Bool.false_ne_true, SourceUnit.mapM_kept_congr room hunits,
    SourceUnit.kept_append]
  cases hall : (SourceUnit.split t).all SourceUnit.isComment with
  | true =>
    have hkept : (SourceUnit.kept (SourceUnit.split t) ++ SourceUnit.kept (SourceUnit.split u)).mapM
        (DesignUnit.read room) = some (ds ++ es) := by
      rw [List.mapM_append, hds, hes]
      rfl
    rw [if_pos rfl, if_pos rfl, hkept, Option.map_some, ofUnits_append]
  | false =>
    -- the comment lines of the second file are left out
    rw [SourceUnit.kept_eq_append, List.mapM_append] at hes
    obtain ⟨cs, hcs, hes⟩ := Option.bind_eq_some_iff.1 hes
    obtain ⟨es', hes', hes⟩ := Option.bind_eq_some_iff.1 hes
    obtain rfl := Option.some.inj hes
    have hcomments : ∀ d ∈ cs, ∃ c, d = .comment c := by
      intro d hd
      obtain ⟨v, hv, hread⟩ := (mem_mapM hcs).2 d hd
      exact (SourceUnit.comment?_of_read hread).2 (List.mem_takeWhile_imp hv)
    have hothers : ∀ d ∈ es', ¬∃ c, d = .comment c := by
      intro d hd
      obtain ⟨v, hv, hread⟩ := (mem_mapM hes').2 d hd
      rw [SourceUnit.comment?_of_read hread]
      simpa using (List.mem_filter.1 hv).2
    have hkept : (SourceUnit.kept (SourceUnit.split t) ++ (SourceUnit.split u).filter
        (!·.isComment)).mapM (DesignUnit.read room) = some (ds ++ es') := by
      rw [List.mapM_append, hds, hes']
      rfl
    rw [if_neg Bool.false_ne_true, if_neg Bool.false_ne_true, hkept, Option.map_some,
      ofUnits_append, ofUnits_comments_append hcomments hothers]

/-- An entity, and a library clause with a comment line before it. -/
theorem read_append_library :
    ∃ f, read Limits.depth ("-- one\nentity e is\nend;".toList ++ '\n' ::
        "-- two\nlibrary ieee;".toList) = some f
      ∧ f.header.length = 1 ∧ f.context.length = 1 ∧ f.entities.length = 1 := by
  have ht : (read Limits.depth "-- one\nentity e is\nend;".toList).any (fun f =>
      f.header.length == 1 && f.context.length == 0 && f.entities.length == 1) = true := by
    decide +kernel
  have hu : (read Limits.depth "-- two\nlibrary ieee;".toList).any (fun f =>
      f.context.length == 1 && f.entities.length == 0) = true := by
    decide +kernel
  have hall : (SourceUnit.split "-- one\nentity e is\nend;".toList).all SourceUnit.isComment
      = false := by
    decide +kernel
  obtain ⟨f, hf, hparts⟩ := (Option.any_eq_true _ _).1 ht
  obtain ⟨g, hg, hparts'⟩ := (Option.any_eq_true _ _).1 hu
  simp only [Bool.and_eq_true, beq_iff_eq] at hparts hparts'
  have hread := read_append hf hg (by decide +kernel)
  rw [hall, if_neg Bool.false_ne_true, List.append_nil] at hread
  obtain ⟨⟨hheader, hcontext⟩, hentities⟩ := hparts
  obtain ⟨hcontext', hentities'⟩ := hparts'
  refine ⟨_, hread, hheader, ?_, ?_⟩
  · rw [List.length_append, hcontext, hcontext']
  · rw [List.length_append, hentities, hentities']

end DesignFile

/-! ## What the units of a file account for

The units of a text stand apart and in order, and outside of them there is nothing but blanks.
A unit that is no comment line ends with a semicolon, or nothing ends it and it runs up to the
end of the text. -/

/-! ## Byte offsets of places -/

namespace Text

/-- The character that starts at byte offset `n`; none when no character does. -/
def charAt? (n : Nat) (t : Text) : Option Char :=
  (position? n t).bind fun i => t[i]?

theorem charAt?_append (a : Text) (c : Char) (b : Text) :
    charAt? (byteLength a) (a ++ c :: b) = some c := by
  rw [charAt?, position?_append, Option.bind_some, List.getElem?_append_right (Nat.le_refl _),
    Nat.sub_self, List.getElem?_cons_zero]

/-- Every byte of ASCII blanks is a character. -/
theorem exists_of_lt_byteLength {g : Text} (hg : g.all isAsciiBlank = true) {k : Nat}
    (hk : k < byteLength g) : ∃ a c b, g = a ++ c :: b ∧ byteLength a = k ∧ isAsciiBlank c = true := by
  induction g generalizing k with
  | nil => exact absurd hk (Nat.not_lt_zero k)
  | cons c g ih =>
    rw [List.all_cons, Bool.and_eq_true] at hg
    cases k with
    | zero => exact ⟨[], c, g, rfl, rfl, hg.1⟩
    | succ k =>
      have hsize : c.utf8Size = 1 := by
        have := hg.1
        simp only [isAsciiBlank, Bool.or_eq_true, beq_iff_eq, or_assoc] at this
        rcases this with rfl | rfl | rfl | rfl | rfl <;> rfl
      rw [byteLength_cons, hsize] at hk
      obtain ⟨a, d, b, rfl, ha, hd⟩ := ih hg.2 (k := k) (by omega)
      exact ⟨c :: a, d, b, rfl, by rw [byteLength_cons, hsize, ha, Nat.add_comm], hd⟩

end Text

namespace SourceUnit

/-! ## Units one after the other -/

/-- The units of a text `t` behind a text `s`: after ASCII blanks, a unit at the place that the
characters before it give.  It is a comment line, it ends with a semicolon, or nothing follows
it. -/
inductive Chain : Text → Text → List SourceUnit → Prop
  /-- Nothing but ASCII blanks. -/
  | nil {s g : Text} (hg : g.all isAsciiBlank = true) : Chain s g []
  /-- A unit after ASCII blanks, and what follows it. -/
  | cons {s g x r : Text} {u : SourceUnit} {units : List SourceUnit} (hg : g.all isAsciiBlank = true)
      (hx : x ≠ []) (htext : u.text = x) (hstart : u.start = byteLength (s ++ g))
      (hclosed : u.isComment = true ∨ x.getLast? = some ';' ∨ r = [])
      (hunits : Chain (s ++ g ++ x) r units) : Chain s (g ++ (x ++ r)) (u :: units)

/-- The unit at the head of a text is a comment line, ends with a semicolon or is all of it. -/
theorem closed_lengthAt (t : Text) :
    UnitKind.ofText (t.take (lengthAt t)) = .comment ∨ (t.take (lengthAt t)).getLast? = some ';' ∨
      t.drop (lengthAt t) = [] := by
  by_cases hcomment : ∃ n, Lexeme.at none t = .comment n
  · obtain ⟨n, hat⟩ := hcomment
    obtain ⟨x, r, rfl, rfl, -⟩ := exists_comment hat
    left
    rw [lengthAt, hat]
    rfl
  · right
    rw [lengthAt_of_not_comment fun n hat => hcomment ⟨n, hat⟩]
    cases hextent : extent? t with
    | some n => exact .inl (getLast?_take_of_extent? hextent)
    | none => exact .inr List.drop_length

theorem chain_splitFrom (fuel : Nat) :
    ∀ (s t : Text), t.length < fuel → Chain s t (splitFrom [] (byteLength s) fuel t) := by
  induction fuel with
  | zero => exact fun s t h => absurd h (Nat.not_lt_zero _)
  | succ fuel ih =>
    intro s t hfuel
    have hblank : (t.takeWhile isAsciiBlank).all isAsciiBlank = true := List.all_takeWhile
    have hsplit : t = t.takeWhile isAsciiBlank ++ t.dropWhile isAsciiBlank :=
      (List.takeWhile_append_dropWhile).symm
    rw [splitFrom]
    generalize t.takeWhile isAsciiBlank = g at hblank hsplit
    cases hrest : t.dropWhile isAsciiBlank with
    | nil =>
      rw [hrest, List.append_nil] at hsplit
      rw [hsplit]
      exact .nil hblank
    | cons c r =>
      rw [hrest] at hsplit
      have hpos := lengthAt_pos c r
      have hclosed := closed_lengthAt (c :: r)
      simp only [List.isEmpty_cons, Bool.false_eq_true, if_false]
      generalize lengthAt (c :: r) = n at hpos hclosed
      have hshort : ((c :: r).drop n).length < fuel := by
        have hlength := congrArg List.length hsplit
        rw [List.length_append, List.length_cons] at hlength
        rw [List.length_drop, List.length_cons]
        omega
      rw [splitFrom_eq_append, List.reverse_singleton, List.singleton_append]
      have hchain := ih (s ++ g ++ (c :: r).take n) ((c :: r).drop n) hshort
      rw [byteLength_append (s ++ g), byteLength_append s g] at hchain
      have hne : (c :: r).take n ≠ [] := by
        rw [ne_eq, List.take_eq_nil_iff, not_or]
        exact ⟨Nat.ne_of_gt hpos, List.cons_ne_nil c r⟩
      have hcons := Chain.cons (u := ⟨UnitKind.ofText ((c :: r).take n), byteLength s + byteLength g,
        (c :: r).take n⟩) hblank hne rfl (byteLength_append s g).symm
        (hclosed.imp_left fun hkind => by simp [isComment, hkind]) hchain
      rw [List.take_append_drop, ← hsplit] at hcons
      exact hcons

/-- **The units of a text, one after the other.** -/
theorem chain_split (t : Text) : Chain [] t (split t) :=
  chain_splitFrom (t.length + 1) [] t (Nat.lt_succ_self _)

/-! ## What stands where -/

namespace Chain

variable {s t : Text} {units : List SourceUnit}

/-- There is no unit in an empty text. -/
theorem eq_nil (h : Chain s [] units) : units = [] := by
  generalize ht : ([] : Text) = t at h
  cases h with
  | nil => rfl
  | cons hg hx =>
    obtain ⟨-, hrest⟩ := List.append_eq_nil_iff.1 ht.symm
    exact absurd (List.append_eq_nil_iff.1 hrest).1 hx

/-- Every unit stands in its place. -/
theorem slice (h : Chain s t units) :
    ∀ u ∈ units, slice? (s ++ t) u.start u.stop = some u.text := by
  induction h with
  | nil => exact fun u hu => absurd hu List.not_mem_nil
  | @cons s g x r u units hg hx htext hstart hclosed _ ih =>
    refine List.forall_mem_cons.2 ⟨?_, fun v hv => ?_⟩
    · rw [stop, htext, hstart, ← List.append_assoc]
      exact slice?_append (s ++ g) x r
    · have := ih v hv
      rwa [List.append_assoc, List.append_assoc] at this

/-- Every byte outside of all units is an ASCII blank. -/
theorem blank (h : Chain s t units) : ∀ n, byteLength s ≤ n → n < byteLength (s ++ t) →
    (∀ u ∈ units, n < u.start ∨ u.stop ≤ n) →
      ∃ c, charAt? n (s ++ t) = some c ∧ isAsciiBlank c = true := by
  -- a byte among the blanks before a unit, or behind the last one
  have hgap : ∀ {s g r : Text} {n : Nat}, g.all isAsciiBlank = true → byteLength s ≤ n →
      n < byteLength (s ++ g) → ∃ c, charAt? n (s ++ (g ++ r)) = some c ∧ isAsciiBlank c = true := by
    intro s g r n hg hle hlt
    rw [byteLength_append] at hlt
    obtain ⟨a, c, b, rfl, ha, hc⟩ := exists_of_lt_byteLength hg (k := n - byteLength s) (by omega)
    have hat := charAt?_append (s ++ a) c (b ++ r)
    rw [byteLength_append, ha, Nat.add_sub_cancel' hle] at hat
    exact ⟨c, by simpa using hat, hc⟩
  induction h with
  | nil hg =>
    intro n hle hlt _
    have hfound := hgap (r := []) hg hle hlt
    rwa [List.append_nil] at hfound
  | @cons s g x r u units hg hx htext hstart hclosed _ ih =>
    intro n hle hlt hout
    obtain ⟨hunit, hunits⟩ := List.forall_mem_cons.1 hout
    rcases hunit with hbefore | hbehind
    · exact hgap hg hle (hstart ▸ hbefore)
    · have hassoc : s ++ (g ++ (x ++ r)) = s ++ g ++ x ++ r := by simp
      rw [hassoc] at hlt ⊢
      refine ih n ?_ hlt hunits
      rwa [stop, htext, hstart, ← byteLength_append] at hbehind

/-- A unit that is no comment line ends with a semicolon, or it is the last one and nothing
follows it. -/
theorem closed (h : Chain s t units) : ∀ u ∈ units, u.isComment = false →
    u.text.getLast? = some ';' ∨ units.getLast? = some u ∧ u.stop = byteLength (s ++ t) := by
  induction h with
  | nil => exact fun u hu => absurd hu List.not_mem_nil
  | @cons s g x r u units hg hx htext hstart hclosed hunits ih =>
    refine List.forall_mem_cons.2 ⟨fun hkind => ?_, fun v hv hkind => ?_⟩
    · rcases hclosed with hcomment | hlast | rfl
      · rw [hkind] at hcomment
        cases hcomment
      · exact .inl (htext ▸ hlast)
      · right
        rw [hunits.eq_nil]
        refine ⟨rfl, ?_⟩
        rw [stop, htext, hstart, List.append_nil, ← byteLength_append, List.append_assoc]
    · rcases ih v hv hkind with hlast | ⟨hlast, hstop⟩
      · exact .inl hlast
      · refine .inr ⟨?_, ?_⟩
        · rw [List.getLast?_cons, hlast]
          rfl
        · rw [hstop]
          simp

end Chain

/-- Units that divide the bytes of a text among them. -/
structure Partition (t : Text) (units : List SourceUnit) : Prop where
  /-- Every unit has a byte. -/
  start_lt_stop : ∀ u ∈ units, u.start < u.stop
  /-- No two units share a byte, and they are in order. -/
  ordered : units.Pairwise fun u v => u.stop ≤ v.start
  /-- The text of a unit is what stands between its offsets, which cut no character. -/
  slice : ∀ u ∈ units, slice? t u.start u.stop = some u.text
  /-- A byte outside of all units is an ASCII blank. -/
  blank : ∀ n, n < byteLength t → (∀ u ∈ units, n < u.start ∨ u.stop ≤ n) →
    ∃ c, charAt? n t = some c ∧ isAsciiBlank c = true
  /-- A unit that is no comment line ends with a semicolon, or it is the last one and reaches the
  end of the text. -/
  closed : ∀ u ∈ units, u.isComment = false →
    u.text.getLast? = some ';' ∨ units.getLast? = some u ∧ u.stop = byteLength t

/-- **The units of a text divide its bytes among them**, but for blanks. -/
theorem partition_split (t : Text) : Partition t (split t) where
  start_lt_stop u hu := ((split_ordered t).1 u hu).1
  ordered := (split_ordered t).2
  slice := (chain_split t).slice
  blank n := (chain_split t).blank n (Nat.zero_le n)
  closed := (chain_split t).closed

end SourceUnit

end CanonicalVhdl
