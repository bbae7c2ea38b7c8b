import CanonicalVhdl.Proofs.Design.Concatenation
import CanonicalVhdl.Proofs.Spelling.Design
import CanonicalVhdl.Proofs.Spelling.Same
import CanonicalVhdl.Proofs.Spelling.Text

/-!
# Formatting is stable

The tree that the canonical text of a file is read back as has the words and marks of that text
and no others: were a comment lost or a word put in, the two trees would not have as many marks
or words.  So if the trees are equal up to the case of identifiers, they are equal.  A text that
has been formatted and verified is therefore formatted as itself.

The units of the text are in the order in which a file is written, too.  The first words of a
unit tell its kind, and the words of the units in the one order are those in the other.

## Main definitions

* `Entry.Spelt` — an item against the entry that it is read as.
* `DesignUnit.rank`, `DesignUnit.arranged` — units in the order in which a file is written.
* `DesignFile.hasReal` — whether there is a real number in a file.

## Main statements

* `DesignFile.exists_units_of_read` — what a file is read from yields the entries of its units.
* `DesignUnit.arranged_eq_self` — units whose words are in order are in order.
* `DesignFile.eq_of_read_text` — the canonical text of a file reads back as the file or as none
  that is equal to it up to case.
* `SourceFile.formatted_stable` — formatting a formatted file changes nothing.
-/

namespace CanonicalVhdl

open Text

/-! ## Units of a text -/

namespace SourceUnit

/-- The unit at the head of a text does not run into what follows it. -/
theorem parted_lengthAt (t : Text) : Parted (t.take (lengthAt t)) (t.drop (lengthAt t)) := by
  by_cases hcomment : ∃ n, Lexeme.at none t = .comment n
  · obtain ⟨n, hat⟩ := hcomment
    obtain ⟨x, r, rfl, rfl, -, hr⟩ := exists_comment hat
    have hdrop : ('-' :: '-' :: (x ++ r)).drop (x.length + 2) = r := by simp
    rw [lengthAt, hat, hdrop]
    exact parted_atLineEnd hr _
  · rw [lengthAt_of_not_comment fun n hat => hcomment ⟨n, hat⟩]
    cases hextent : extent? t with
    | some n =>
      refine .inl ?_
      rw [Option.getD_some, getLast?_take_of_extent? hextent]
      rfl
    | none =>
      rw [Option.getD_none, List.drop_length]
      exact .of_nil_right _

/-- The units of a text have its items. -/
theorem Cuts.items_eq {ts : List Text} {t : Text} (h : Cuts ts t) : items t = ts.flatMap items := by
  induction h with
  | nil hr =>
    rw [← items_dropWhile_asciiBlank, hr]
    rfl
  | @cons c x ts t r ht hlength _ ih =>
    have hparted := parted_lengthAt (c :: (x ++ r))
    rw [hlength, List.take_succ_cons, List.drop_succ_cons, List.take_left, List.drop_left] at hparted
    rw [← items_dropWhile_asciiBlank, ht, ← List.cons_append, items_append hparted, ih,
      List.flatMap_cons]

/-- The units of a text have its items, and each is of the kind that its first words say. -/
theorem flatMap_items_split (t : Text) :
    (split t).flatMap (fun u => items u.text) = items t ∧
      ∀ u ∈ split t, u.kind = UnitKind.ofText u.text := by
  obtain ⟨ts, hts⟩ := exists_cuts t.length t (Nat.le_refl _)
  have htexts : (split t).map SourceUnit.text = ts := by
    have := congrArg (List.map Prod.snd) hts.split
    simpa [List.map_map, Function.comp_def, content] using this
  refine ⟨by rw [hts.items_eq, ← htexts, List.flatMap_map], fun u hu => ?_⟩
  have hcontent : content u ∈ ts.map fun t => (UnitKind.ofText t, t) := by
    rw [← hts.split]
    exact List.mem_map_of_mem hu
  obtain ⟨x, -, hx⟩ := List.mem_map.1 hcontent
  obtain ⟨hkind, htext⟩ := Prod.mk.inj hx
  rw [← hkind, htext]

/-- Comment lines may be left out. -/
theorem remains_filter {units : List SourceUnit}
    (h : ∀ u ∈ units, u.kind = UnitKind.ofText u.text) :
    Remains (units.flatMap fun u => items u.text)
      ((units.filter (!·.isComment)).flatMap fun u => items u.text) := by
  induction units with
  | nil => exact .refl _
  | cons u units ih =>
    obtain ⟨hkind, h⟩ := List.forall_mem_cons.1 h
    rw [List.flatMap_cons]
    cases hcomment : u.isComment with
    | true =>
      rw [isComment, beq_iff_eq, hkind] at hcomment
      obtain ⟨x, hx⟩ := UnitKind.exists_of_ofText_comment hcomment
      have hdrop : Remains (items u.text) [] := by
        rw [hx]
        exact .drop (.inr (mark_mem_items rfl))
      simpa [isComment, hkind, hcomment] using hdrop.append (ih h)
    | false => simpa [hcomment] using (Remains.refl (items u.text)).append (ih h)

/-- The units that a file keeps have its items, unless marks are lost. -/
theorem remains_kept (t : Text) :
    Remains (items t) ((kept (split t)).flatMap fun u => items u.text) := by
  obtain ⟨hitems, hkind⟩ := flatMap_items_split t
  rw [← hitems, kept, List.flatMap_append]
  conv_lhs => rw [← List.takeWhile_append_dropWhile (p := isComment) (l := split t)]
  rw [List.flatMap_append]
  exact (Remains.refl _).append
    (remains_filter fun u hu => hkind u ((List.dropWhile_sublist _).mem hu))

end SourceUnit

/-- **What a file is read from yields the entries of its units**, in the order of the text. -/
theorem DesignFile.exists_units_of_read {room : Nat} {t : Text} {f : DesignFile}
    (h : read room t = some f) :
    ∃ units, f = ofUnits units ∧ Yields t (units.flatMap DesignUnit.entries) := by
  obtain ⟨-, h⟩ := Option.ite_none_left_eq_some.1 h
  obtain ⟨units, hunits, rfl⟩ := Option.map_eq_some_iff.1 h
  refine ⟨units, rfl, ?_⟩
  exact (Bears.flatMap ((mapM_eq_some_iff.1 hunits).imp fun _ _ =>
    DesignUnit.yields_of_read)).of_remains (SourceUnit.remains_kept t)

/-! ## Units in order -/

namespace DesignUnit

/-- The place of the kind of a unit in the order in which a file is written. -/
def rank : DesignUnit → Nat
  | comment _ => 0
  | context _ => 1
  | package _ => 2
  | packageBody _ => 3
  | entity _ => 4
  | architecture _ => 5

/-- Units kind by kind. -/
def arranged (ranks : List Nat) (units : List DesignUnit) : List DesignUnit :=
  ranks.flatMap fun k => units.filter (·.rank == k)

/-- The kinds in the order in which a file is written. -/
def ranks : List Nat := [0, 1, 2, 3, 4, 5]

/-- A unit goes behind those of the kinds before its own. -/
theorem exists_arranged_cons {ks : List Nat} (hks : ks.Pairwise (· < ·)) {u : DesignUnit}
    (hu : u.rank ∈ ks) (units : List DesignUnit) :
    ∃ before behind, arranged ks (u :: units) = before ++ u :: behind
      ∧ arranged ks units = before ++ behind ∧ ∀ v ∈ before, v.rank < u.rank := by
  induction ks with
  | nil => cases hu
  | cons k ks ih =>
    obtain ⟨hk, hks⟩ := List.pairwise_cons.1 hks
    simp only [arranged, List.flatMap_cons] at ih ⊢
    by_cases hrank : u.rank = k
    · -- no unit of a later kind is the given one
      have hlater : (ks.flatMap fun j => (u :: units).filter (·.rank == j))
          = ks.flatMap fun j => units.filter (·.rank == j) :=
        List.flatMap_congr fun j hj => List.filter_cons_of_neg (by
          have := hk j hj
          simpa using (by omega : u.rank ≠ j))
      refine ⟨[], units.filter (·.rank == k) ++ ks.flatMap fun j => units.filter (·.rank == j), ?_, rfl,
        by simp⟩
      rw [hlater, List.filter_cons_of_pos (by simpa using hrank)]
      rfl
    · obtain ⟨before, behind, hcons, hrest, hbefore⟩ :=
        ih hks ((List.mem_cons.1 hu).resolve_left hrank)
      refine ⟨units.filter (·.rank == k) ++ before, behind, ?_, ?_, ?_⟩
      · rw [List.filter_cons_of_neg (by simpa using hrank), hcons, List.append_assoc]
      · rw [hrest, List.append_assoc]
      · intro v hv
        obtain hv | hv := List.mem_append.1 hv
        · have hvk := (List.mem_filter.1 hv).2
          rw [beq_iff_eq] at hvk
          have := hk u.rank ((List.mem_cons.1 hu).resolve_left hrank)
          omega
        · exact hbefore v hv

theorem pairwise_ranks : ranks.Pairwise (· < ·) := by decide

theorem rank_mem_ranks (u : DesignUnit) : u.rank ∈ ranks := by
  cases u <;> simp [rank, ranks]

theorem arranged_perm (units : List DesignUnit) : (arranged ranks units).Perm units := by
  induction units with
  | nil => exact .refl _
  | cons u units ih =>
    obtain ⟨before, behind, hcons, hrest, -⟩ :=
      exists_arranged_cons pairwise_ranks u.rank_mem_ranks units
    rw [hcons]
    rw [hrest] at ih
    exact List.perm_middle.trans (ih.cons u)

/-- The words and marks of a unit, in lower case. -/
def words (u : DesignUnit) : List Item :=
  (u.entries.flatMap Entry.items).map Item.fold

/-- The place of the kind of the unit that begins with some words and marks. -/
def leadRank : List Item → Nat
  | [] | .mark :: _ => 0
  | .word w :: rest =>
    if w = "library".toList ∨ w = "use".toList then 1
    else if w = "package".toList then if rest.head? = some (.word "body".toList) then 3 else 2
    else if w = "entity".toList then 4 else 5

/-- The name of a package is not `body`. -/
theorem fold_name_ne_body (i : Ident) : Text.fold i.text ≠ "body".toList := by
  intro h
  have hvalid := i.valid
  simp only [isIdent, Bool.and_eq_true, Bool.not_eq_true', isReserved, h] at hvalid
  exact absurd hvalid.2 (by decide +kernel)

/-- **The first words of a unit tell its kind.** -/
theorem leadRank_words (u : DesignUnit) (rest : List Item) : leadRank (u.words ++ rest) = u.rank := by
  have hword : fixed "library".toList = [.fixed "library".toList]
      ∧ fixed "use".toList = [.fixed "use".toList]
      ∧ fixed "package".toList = [.fixed "package".toList]
      ∧ fixed "package body".toList = [.fixed "package".toList, .fixed "body".toList]
      ∧ fixed "entity".toList = [.fixed "entity".toList]
      ∧ fixed "architecture".toList = [.fixed "architecture".toList] := by decide +kernel
  obtain ⟨hlibrary, huse, hpackage, hbody, hentity, harchitecture⟩ := hword
  cases u with
  | comment c =>
    have hline : c.entries.flatMap Entry.items = .mark :: items ('-' :: c.text) :=
      (Conveys.owned c.line).symm
    rw [words, entries, hline]
    rfl
  | context c =>
    cases c with
    | library name =>
      rw [words, entries, ContextClause.entries, hlibrary]
      simp [leadRank, rank, Entry.items, Item.fold, Text.fold]
    | use path all =>
      rw [words, entries, ContextClause.entries, huse]
      simp [leadRank, rank, Entry.items, Item.fold, Text.fold]
  | package p =>
    have hname := fold_name_ne_body p.name
    rw [words, entries, Package.entries, hpackage, p.name.entries_eq]
    simpa [leadRank, rank, Entry.items, Item.fold, Text.fold] using hname
  | packageBody b =>
    rw [words, entries, PackageBody.entries, hbody]
    simp [leadRank, rank, Entry.items, Item.fold, Text.fold]
  | entity e =>
    rw [words, entries, Interface.entriesAs, hentity]
    simp [leadRank, rank, Entry.items, Item.fold, Text.fold]
  | architecture a =>
    rw [words, entries, Architecture.entries, harchitecture]
    simp [leadRank, rank, Entry.items, Item.fold, Text.fold]

/-- **Units whose words are in the order of a file are in that order.** -/
theorem arranged_eq_self {units : List DesignUnit}
    (h : units.flatMap words = (arranged ranks units).flatMap words) :
    arranged ranks units = units := by
  induction units with
  | nil => rfl
  | cons u units ih =>
    obtain ⟨before, behind, hcons, hrest, hbefore⟩ :=
      exists_arranged_cons pairwise_ranks u.rank_mem_ranks units
    rw [hcons] at h ⊢
    cases before with
    | nil =>
      rw [List.nil_append] at h hrest ⊢
      rw [List.flatMap_cons, List.flatMap_cons, List.append_cancel_left_eq, ← hrest] at h
      rw [← hrest, ih h]
    | cons v before =>
      -- the unit that is moved to the front would begin with other words
      rw [List.cons_append, List.flatMap_cons, List.flatMap_cons] at h
      have hlead := congrArg leadRank h
      rw [leadRank_words, leadRank_words] at hlead
      exact absurd hlead (Nat.ne_of_gt (hbefore v (List.mem_cons_self ..)))

end DesignUnit

namespace DesignFile

theorem flatMap_filterMap {α : Type} {pick : DesignUnit → Option α} {entries : α → List Entry}
    {k : Nat} (h : ∀ u, (pick u).elim [] entries = if u.rank = k then u.entries else [])
    (units : List DesignUnit) :
    (units.filterMap pick).flatMap entries
      = (units.filter (·.rank == k)).flatMap DesignUnit.entries := by
  induction units with
  | nil => rfl
  | cons u units ih =>
    have hu := h u
    rw [List.filterMap_cons, List.filter_cons]
    cases hpick : pick u with
    | none =>
      rw [hpick, Option.elim_none] at hu
      split at hu <;> simp_all
    | some x =>
      rw [hpick, Option.elim_some] at hu
      split at hu <;> simp_all

/-- The entries of a file are those of its units, kind by kind. -/
theorem entries_ofUnits (units : List DesignUnit) :
    (ofUnits units).entries
      = (DesignUnit.arranged DesignUnit.ranks units).flatMap DesignUnit.entries := by
  simp only [entries, ofUnits, DesignUnit.arranged, DesignUnit.ranks, List.flatMap_cons,
    List.flatMap_nil, List.append_nil, List.flatMap_append]
  rw [flatMap_filterMap (k := 0), flatMap_filterMap (k := 1), flatMap_filterMap (k := 2),
    flatMap_filterMap (k := 3), flatMap_filterMap (k := 4), flatMap_filterMap (k := 5)]
  · simp only [List.append_assoc]
  all_goals
    intro u
    cases u <;> rfl

end DesignFile

/-! ## Items and entries one by one -/

/-- An item against the entry that it is read as. -/
def Entry.Spelt : Item → Entry → Prop
  | .word v, .own w => v = w
  | .word v, .fixed w => sameWord v w = true
  | .mark, .mark => True
  | _, _ => False

namespace Covers

variable {is : List Item} {es : List Entry}

theorem length_le (h : Covers is es) : is.length ≤ es.length := by
  induction h with
  | nil => exact Nat.le_refl _
  | own _ _ ih | fixed _ _ ih | mark _ ih => exact Nat.succ_le_succ ih
  | added _ _ ih => exact Nat.le_succ_of_le ih

/-- With as many entries as items, no word is put in. -/
theorem spelt (h : Covers is es) (hlength : es.length = is.length) :
    List.Forall₂ Entry.Spelt is es := by
  induction h with
  | nil => exact .nil
  | own w _ ih => exact .cons rfl (ih (Nat.succ.inj hlength))
  | fixed hw _ ih => exact .cons hw (ih (Nat.succ.inj hlength))
  | mark _ ih => exact .cons trivial (ih (Nat.succ.inj hlength))
  | added w h _ =>
    have := h.length_le
    rw [List.length_cons] at hlength
    omega

end Covers

namespace Entry

variable {es fs : List Entry}

theorem any_isReal_of_fold (h : es.map fold = fs.map fold) : es.any isReal = fs.any isReal := by
  have hfold : ∀ es : List Entry, (es.map fold).any isReal = es.any isReal := by
    intro es
    rw [List.any_map]
    congr
    funext e
    cases e <;> rfl
  rw [← hfold, h, hfold]

theorem count_mark_of_fold (h : es.map fold = fs.map fold) :
    es.count .mark = fs.count .mark := by
  have hfold : ∀ es : List Entry, (es.map fold).count .mark = es.count .mark := by
    intro es
    rw [List.count_eq_countP, List.countP_map, List.count_eq_countP]
    exact List.countP_congr fun e _ => by cases e <;> simp [fold]
  rw [← hfold, h, hfold]

/-- Each entry stands for one item, which is a mark if the entry is one. -/
theorem length_items (h : es.any isReal = false) :
    (es.flatMap items).length = es.length ∧ (es.flatMap items).count .mark = es.count .mark := by
  induction es with
  | nil => exact ⟨rfl, rfl⟩
  | cons e es ih =>
    rw [List.any_cons, Bool.or_eq_false_iff] at h
    obtain ⟨hlength, hcount⟩ := ih h.2
    cases e with
    | own | fixed | mark => simp [items, hlength, hcount]
    | real => cases h.1

/-- Entries that are equal up to case stand for items that are. -/
theorem items_of_fold (hreal : es.any isReal = false) (h : es.map fold = fs.map fold) :
    (es.flatMap items).map Item.fold = (fs.flatMap items).map Item.fold := by
  have hfold : ∀ es : List Entry, es.any isReal = false →
      (es.flatMap items).map Item.fold = (es.map fold).flatMap items := by
    intro es hes
    rw [List.map_flatMap, List.flatMap_map]
    refine List.flatMap_congr fun e he => ?_
    have hne := List.any_eq_false.1 hes e he
    cases e with
    | own | fixed | mark => rfl
    | real => exact absurd rfl hne
  rw [hfold es hreal, h, hfold fs ((any_isReal_of_fold h).symm.trans hreal)]

theorem Spelt.items_eq {i : Item} {e : Entry} (h : Spelt i e) : [i.fold] = e.items.map Item.fold := by
  match i, e, h with
  | .word _, .own _, rfl => rfl
  | .word v, .fixed w, h => exact congrArg (fun w => [Item.word w]) (sameWord_iff.1 h)
  | .mark, .mark, _ => rfl

theorem items_of_spelt {is : List Item} (h : List.Forall₂ Spelt is es) :
    is.map Item.fold = (es.flatMap items).map Item.fold := by
  induction h with
  | nil => rfl
  | cons hie _ ih => rw [List.map_cons, List.flatMap_cons, List.map_append, ← hie.items_eq, ← ih]; rfl

/-- Own words that are spelled as the items of other entries are spelled as these. -/
theorem own_of_spelt (hreal : fs.any isReal = false) (hfold : es.map fold = fs.map fold)
    (h : List.Forall₂ Spelt (fs.flatMap items) es) : es.filterMap own? = fs.filterMap own? := by
  induction fs generalizing es with
  | nil => rw [List.map_eq_nil_iff.1 hfold]
  | cons f fs ih =>
    rw [List.any_cons, Bool.or_eq_false_iff] at hreal
    obtain ⟨e, es, rfl⟩ := List.exists_cons_of_ne_nil (l := es) (by rintro rfl; cases hfold)
    obtain ⟨hef, hrest⟩ := List.cons.inj hfold
    rw [List.flatMap_cons] at h
    cases f with
    | own w =>
      cases e with
      | own w' =>
        cases h with
        | cons hspelt h =>
          obtain rfl : w = w' := hspelt
          exact congrArg (w :: ·) (ih hreal.2 hrest h)
      | fixed | mark | real => cases hef
    | fixed w =>
      cases e with
      | fixed w' =>
        cases h with
        | cons _ h =>
          have hown := ih hreal.2 hrest h
          exact hown
      | own | mark | real => cases hef
    | mark =>
      cases e with
      | mark =>
        cases h with
        | cons _ h =>
          have hown := ih hreal.2 hrest h
          exact hown
      | own | fixed | real => cases hef
    | real => cases hreal.1

end Entry

/-! ## Files -/

namespace DesignFile

/-- Whether there is a real number in a file. -/
def hasReal (f : DesignFile) : Bool := f.entries.any Entry.isReal

/-- **A canonical text reads back as the file or as none that is equal to it up to case.** -/
theorem eq_of_read_text {room : Nat} {f g : DesignFile} (hreal : f.hasReal = false)
    (h : read room f.text = some g) (hsame : g.same f = true) : g = f := by
  obtain ⟨units, rfl, hyields⟩ := exists_units_of_read h
  have hpins := pins_of_same hsame
  have hrealg := (Entry.any_isReal_of_fold hpins.fold_eq).trans hreal
  obtain ⟨hlength, hcount⟩ := Entry.length_items hreal
  have hconveys : items f.text = f.entries.flatMap Entry.items := f.conveys
  have hperm : (units.flatMap DesignUnit.entries).Perm (ofUnits units).entries := by
    rw [entries_ofUnits]
    exact ((DesignUnit.arranged_perm units).flatMap_right _).symm
  have hmarks : (units.flatMap DesignUnit.entries).count .mark = (items f.text).count .mark := by
    rw [hperm.count_eq, hconveys, hcount, Entry.count_mark_of_fold hpins.fold_eq]
  have hcovers := hyields.covers hmarks (hperm.any_eq.trans hrealg)
  have hspelt := hcovers.spelt (by
    rw [hperm.length_eq, hconveys, hlength, ← List.length_map Entry.fold, hpins.fold_eq, List.length_map])
  have hwords := Entry.items_of_spelt hspelt
  have harranged : DesignUnit.arranged DesignUnit.ranks units = units := by
    refine DesignUnit.arranged_eq_self ?_
    have hflat : ∀ us : List DesignUnit, us.flatMap DesignUnit.words
        = ((us.flatMap DesignUnit.entries).flatMap Entry.items).map Item.fold := by
      intro us
      rw [List.flatMap_assoc, List.map_flatMap]
      rfl
    rw [hflat, hflat, ← hwords, hconveys, ← entries_ofUnits,
      Entry.items_of_fold hrealg hpins.fold_eq]
  have hentries : units.flatMap DesignUnit.entries = (ofUnits units).entries := by
    rw [entries_ofUnits, harranged]
  rw [hentries, hconveys] at hspelt
  exact hpins.of_own hrealg (Entry.own_of_spelt hreal hpins.fold_eq hspelt)

end DesignFile

namespace SourceFile

/-- **Formatting is stable**: what a file with no real number is formatted as is formatted as
itself, if canonical texts are verified and this one is not too long to be read. -/
theorem formatted_stable {s : FormatSettings} {id id' : FileId} {f g : SourceFile} {out : Text}
    (hverify : s.verifyRoundTrip = true)
    (hreal : (DesignFile.read Limits.depth f.text).any DesignFile.hasReal = false)
    (h : (DesignFile.read Limits.depth f.text).map (formatted s id f) = some (.ok out))
    (hfits : fits Limits.blockBytes out = true) (hg : g.text = out) :
    (DesignFile.read Limits.depth g.text).map (formatted s id' g) = some (.ok out) := by
  obtain ⟨d, hd, h⟩ := Option.map_eq_some_iff.1 h
  rw [hd, Option.any_some] at hreal
  obtain ⟨hback, hout⟩ := formatted_eq_ok_iff.1 h
  obtain ⟨e, he, hsame⟩ := (Option.any_eq_true _ _).1 (hback hverify)
  obtain rfl := DesignFile.eq_of_read_text (by simpa using hreal) he hsame
  rw [hg, read_finalLine hout hfits, he, Option.map_some, formatted_eq_ok_iff.2 ⟨hback, hout⟩]

/-- A package body before its package and the library, in all kinds of case. -/
def scattered : SourceFile where
  path := "q.vhd".toList
  text := "-- Q\nPACKAGE BODY Q IS END;\nPackage q Is End;library Ieee ;".toList

/-- The same file as it is formatted. -/
def gathered : SourceFile where
  path := "q.vhd".toList
  text := ("-- Q\nlibrary Ieee;\n\npackage q is\nend package q;\n\n"
    ++ "package body Q is\nend package body Q;\n").toList

theorem formatted_stable_gathered :
    (DesignFile.read Limits.depth scattered.text).any DesignFile.hasReal = false
      ∧ (DesignFile.read Limits.depth scattered.text).map (formatted {} 0 scattered)
        = some (.ok gathered.text)
      ∧ (DesignFile.read Limits.depth gathered.text).map (formatted {} 1 gathered)
        = some (.ok gathered.text) := by
  have hreal : (DesignFile.read Limits.depth scattered.text).any DesignFile.hasReal = false := by
    decide +kernel
  have hformatted : (DesignFile.read Limits.depth scattered.text).map (formatted {} 0 scattered)
      = some (.ok gathered.text) := by decide +kernel
  exact ⟨hreal, hformatted, formatted_stable rfl hreal hformatted (by decide +kernel) rfl⟩

end SourceFile

end CanonicalVhdl
