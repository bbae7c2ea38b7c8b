import CanonicalVhdl.Proofs.Case.Design
import CanonicalVhdl.Proofs.Comment.Interface

/-!
# Files of texts without comments

A file keeps the comment lines of its header and the comments of its units; a file read from a text
in which no comment starts has none of either.  Two such texts that differ in case only are read
as files that differ in case only, since comments are all that the comparison of files does not
take up to case.

## Main statements

* `DesignFile.comments_eq_nil` — the file read from a text without comments has none.
* `DesignFile.read_alike` — texts without comments that are equal up to case are both refused, or
  read as files that are equal up to case.
-/

namespace CanonicalVhdl

open Text

/-! ## Declarative parts -/

namespace Declaration

theorem firstWord?_of_tick {t w : Text} (h : t.head? = some '\'') (hw : firstWord? t = some w) :
    w.head? = some '\'' := by
  obtain ⟨u, rfl⟩ := List.head?_eq_some_iff.1 h
  have htick : isSeparator '\'' = false := by decide
  rw [firstWord?, List.dropWhile_cons_of_neg (by simp [htick]),
    List.takeWhile_cons_of_pos (by simp [htick])] at hw
  rw [← Option.some.inj hw]
  rfl

theorem readItem_of_tick {room : Nat} {t : Text} (h : t.head? = some '\'') :
    readItem room t = none := by
  simp only [readItem, Option.bind_eq_bind]
  rw [Option.bind_eq_none_iff]
  intro w hw
  have hhead := firstWord?_of_tick h hw
  have hkeyword : ∀ k, IsRun k → sameWord w k = false := fun k hk =>
    sameWord_of_tick hk hhead
  simp only [hkeyword _ (⟨by decide, by decide⟩ : IsRun "signal".toList),
    hkeyword _ (⟨by decide, by decide⟩ : IsRun "variable".toList),
    hkeyword _ (⟨by decide, by decide⟩ : IsRun "constant".toList),
    hkeyword _ (⟨by decide, by decide⟩ : IsRun "type".toList),
    hkeyword _ (⟨by decide, by decide⟩ : IsRun "component".toList),
    hkeyword _ (⟨by decide, by decide⟩ : IsRun "function".toList),
    Bool.or_false, Bool.false_eq_true, if_false]

theorem comments_eq_nil_of_readItem {room : Nat} {t : Text} {d : Declaration}
    (h : CommentFree none t) (hd : readItem room t = some d) : d.comments = [] := by
  simp only [readItem, Option.bind_eq_bind] at hd
  obtain ⟨w, -, hd⟩ := Option.bind_eq_some_iff.1 hd
  split at hd
  · obtain ⟨o, ho, rfl⟩ := Option.map_eq_some_iff.1 hd
    exact ObjectDecl.comments_eq_nil h (by rw [ObjectDecl.readWithTrailer, ho]; rfl)
  · split at hd
    · obtain ⟨y, hy, rfl⟩ := Option.map_eq_some_iff.1 hd
      exact TypeDecl.comments_eq_nil h hy
    · split at hd
      · obtain ⟨c, hc, rfl⟩ := Option.map_eq_some_iff.1 hd
        exact Interface.comments_eq_nil ⟨by decide, by decide⟩ h hc
      · split at hd
        · split at hd
          · rename_i f hf
            obtain rfl := Option.some.inj hd
            exact FunctionBody.comments_eq_nil h hf
          · obtain ⟨s, -, rfl⟩ := Option.map_eq_some_iff.1 hd
            rfl
        · cases hd

/-- The items of a declarative part without comments keep none. -/
theorem comments_eq_nil_of_readPart {room : Nat} {t : Text} {items : List Declaration}
    (h : Quiet t) (hitems : readPart room t = some items) : items.flatMap comments = [] := by
  simp only [readPart, Option.bind_eq_bind] at hitems
  obtain ⟨ps, hps, hitems⟩ := Option.bind_eq_some_iff.1 hitems
  obtain ⟨iss, hiss, hitems⟩ := Option.bind_eq_some_iff.1 hitems
  obtain rfl := Option.some.inj hitems
  have hall : ∀ is ∈ iss, is.flatMap comments = [] := by
    refine h.forall_of_pieces hps hiss (fun code trailer hhead => ?_) fun code is hfree his => ?_
    · simp only [readPiece, ObjectDecl.readWithTrailer_of_tick hhead, readItem_of_tick hhead,
        Option.bind_eq_bind, Option.bind_none]
    · simp only [readPiece, Option.bind_eq_bind] at his
      split at his
      · rename_i d hd
        obtain rfl := Option.some.inj his
        simpa [comments] using ObjectDecl.comments_eq_nil hfree hd
      · obtain ⟨item, hitem, his⟩ := Option.bind_eq_some_iff.1 his
        obtain rfl := Option.some.inj his
        simpa using comments_eq_nil_of_readItem hfree hitem
  rw [List.flatMap_eq_nil_iff]
  intro d hd
  obtain ⟨is, his, hmem⟩ := List.mem_flatten.1 hd
  exact List.flatMap_eq_nil_iff.1 (hall is his) d hmem

end Declaration

theorem DeclarativePart.comments_eq_nil {room : Nat} {t : Text} {p : DeclarativePart} (h : Quiet t)
    (hp : read room t = some p) : p.comments = [] := by
  rw [read] at hp
  split at hp
  · cases hp
  · obtain ⟨items, hitems, hp⟩ := Option.bind_eq_some_iff.1 hp
    rw [ofItems?] at hp
    split at hp
    · obtain rfl := Option.some.inj hp
      exact Declaration.comments_eq_nil_of_readPart h hitems
    · cases hp

/-- A declarative part that starts with a tick is not read. -/
theorem DeclarativePart.head?_ne_tick_of_read {room : Nat} {t : Text} {p : DeclarativePart}
    (h : read room t = some p) : t.head? ≠ some '\'' := by
  intro ht
  rw [read] at h
  split at h
  · cases h
  · obtain ⟨items, hitems, -⟩ := Option.bind_eq_some_iff.1 h
    simp only [Declaration.readPart, Option.bind_eq_bind] at hitems
    obtain ⟨ps, hps, hitems⟩ := Option.bind_eq_some_iff.1 hitems
    obtain ⟨iss, hiss, -⟩ := Option.bind_eq_some_iff.1 hitems
    obtain ⟨code, trailer, hpiece, hcode⟩ := exists_piece_of_tick ht hps
    obtain ⟨is, his⟩ := (mem_mapM hiss).1 _ hpiece
    simp only [Declaration.readPiece, ObjectDecl.readWithTrailer_of_tick hcode,
      Declaration.readItem_of_tick hcode, Option.bind_eq_bind, Option.bind_none, reduceCtorEq] at his

/-! ## Units -/

theorem Text.Quiet.trimStart {t : Text} (h : Quiet t) : Quiet (Text.trimStart t) := by
  rcases h with h | h
  · exact h.quiet_trimStart
  · rw [trimStart_of_tick h]
    exact .inr h

/-- What follows a name in a text without comments holds none. -/
theorem quiet_of_splitIdent? {t rest : Text} {name : Ident} (h : Quiet t)
    (hs : splitIdent? t = some (name, rest)) : Quiet rest := by
  simp only [splitIdent?, Option.bind_eq_bind] at hs
  obtain ⟨n, hn, hs⟩ := Option.bind_eq_some_iff.1 hs
  obtain ⟨-, rfl⟩ := Prod.mk.inj (Option.some.inj hs)
  obtain ⟨hplain, hne⟩ := all_isPlain_of_ofText? hn
  have hcut := List.takeWhile_append_dropWhile (p := isIdentChar) (l := trimStart t)
  have hfree := h.trimStart.commentFree (hcut ▸ head?_ne_tick_of_isPlain hplain hne)
  rw [← hcut] at hfree
  exact (hfree.of_plain hplain).quiet_trimStart

theorem Package.comments_eq_nil {room : Nat} {t : Text} {p : Package} (h : CommentFree none t)
    (hp : read room t = some p) : p.comments = [] := by
  simp only [read, Option.bind_eq_bind] at hp
  split at hp
  · cases hp
  · obtain ⟨rest, hrest, hp⟩ := Option.bind_eq_some_iff.1 hp
    obtain ⟨⟨name, after⟩, hname, hp⟩ := Option.bind_eq_some_iff.1 hp
    obtain ⟨inner, his, hp⟩ := Option.bind_eq_some_iff.1 hp
    obtain ⟨body, hbody, hp⟩ := Option.bind_eq_some_iff.1 hp
    obtain ⟨items, hitems, hp⟩ := Option.bind_eq_some_iff.1 hp
    have hquiet := quiet_of_splitIdent? (h.trim.quiet.of_afterWord? ⟨by decide, by decide⟩ hrest) hname
    have hinner := hquiet.of_afterWord? ⟨by decide, by decide⟩ his
    rw [ofItems?] at hp
    split at hp
    · obtain rfl := Option.some.inj hp
      exact Declaration.comments_eq_nil_of_readPart (hinner.of_beforeEnd? hbody) hitems
    · cases hp

namespace BodyItem

theorem commentsAll_eq_flatMap (is : List BodyItem) :
    commentsAll is = is.flatMap BodyItem.comments := by
  induction is with
  | nil => rfl
  | cons i is ih => rw [commentsAll, ih, List.flatMap_cons]

theorem comments_ofElements (is : List BodyItem) :
    (ofElements is).comments = is.flatMap BodyItem.comments := by
  rcases is with _ | ⟨i, _ | ⟨i', is⟩⟩
  · rfl
  · simp [ofElements]
  · exact commentsAll_eq_flatMap _

theorem readItem_of_tick {room : Nat} {t : Text} (h : t.head? = some '\'') :
    readItem room t = none := by
  simp only [readItem, startsWith_of_tick (⟨by decide, by decide⟩ : IsRun "function".toList) h,
    startsWith_of_tick (⟨by decide, by decide⟩ : IsRun "type".toList) h,
    ObjectDecl.read_of_tick h, Bool.false_eq_true, if_false, Option.map_none]

theorem comments_eq_nil_of_readItem {room : Nat} {t : Text} {i : BodyItem}
    (h : CommentFree none t) (hi : readItem room t = some i) : i.comments = [] := by
  rw [readItem] at hi
  split at hi
  · obtain ⟨f, hf, rfl⟩ := Option.map_eq_some_iff.1 hi
    exact FunctionBody.comments_eq_nil h hf
  · split at hi
    · obtain ⟨y, hy, rfl⟩ := Option.map_eq_some_iff.1 hi
      exact TypeDecl.comments_eq_nil h hy
    · obtain ⟨d, hd, rfl⟩ := Option.map_eq_some_iff.1 hi
      exact ObjectDecl.comments_eq_nil h (by rw [ObjectDecl.readWithTrailer, hd]; rfl)

/-- The contents of a package body without comments keep none. -/
theorem comments_eq_nil {room : Nat} {t : Text} {i : BodyItem} (h : Quiet t)
    (hi : read room t = some i) : i.comments = [] := by
  simp only [read, Option.bind_eq_bind] at hi
  split at hi
  · cases hi
  · cases room with
    | zero => cases hi
    | succ room =>
      obtain ⟨ps, hps, hi⟩ := Option.bind_eq_some_iff.1 hi
      obtain ⟨iss, hiss, hi⟩ := Option.bind_eq_some_iff.1 hi
      obtain rfl := Option.some.inj hi
      have hall : ∀ is ∈ iss, is.flatMap BodyItem.comments = [] := by
        refine h.forall_of_pieces hps hiss (fun code trailer hhead => ?_) fun code is hfree his => ?_
        · simp only [readPiece, ObjectDecl.readWithTrailer_of_tick hhead, readItem_of_tick hhead,
            Option.bind_eq_bind, Option.bind_none]
        · simp only [readPiece, Option.bind_eq_bind] at his
          split at his
          · rename_i d hd
            obtain rfl := Option.some.inj his
            simpa [comments] using ObjectDecl.comments_eq_nil hfree hd
          · obtain ⟨item, hitem, his⟩ := Option.bind_eq_some_iff.1 his
            obtain rfl := Option.some.inj his
            simpa using comments_eq_nil_of_readItem hfree hitem
      rw [comments_ofElements, List.flatMap_eq_nil_iff]
      intro d hd
      obtain ⟨is, his, hmem⟩ := List.mem_flatten.1 hd
      exact List.flatMap_eq_nil_iff.1 (hall is his) d hmem

end BodyItem

theorem PackageBody.comments_eq_nil {room : Nat} {t : Text} {b : PackageBody}
    (h : CommentFree none t) (hb : read room t = some b) : b.comments = [] := by
  simp only [read, Option.bind_eq_bind] at hb
  split at hb
  · cases hb
  · obtain ⟨rest, hrest, hb⟩ := Option.bind_eq_some_iff.1 hb
    obtain ⟨⟨name, after⟩, hname, hb⟩ := Option.bind_eq_some_iff.1 hb
    obtain ⟨inner, his, hb⟩ := Option.bind_eq_some_iff.1 hb
    obtain ⟨body, hbody, hb⟩ := Option.bind_eq_some_iff.1 hb
    obtain ⟨items, hitems, hb⟩ := Option.bind_eq_some_iff.1 hb
    obtain rfl := Option.some.inj hb
    have hwords : ∀ w ∈ ["package".toList, "body".toList], IsRun w := by
      intro w hw
      simp only [List.mem_cons, List.not_mem_nil, or_false] at hw
      rcases hw with rfl | rfl <;> exact ⟨by decide, by decide⟩
    have hquiet := quiet_of_splitIdent? (h.trim.quiet.of_afterWords? hwords hrest) hname
    have hinner := hquiet.of_afterWord? ⟨by decide, by decide⟩ his
    exact BodyItem.comments_eq_nil (hinner.of_beforeEnd? hbody) hitems

theorem Architecture.comments_eq_nil {room : Nat} {t : Text} {a : Architecture}
    (h : CommentFree none t) (ha : read room t = some a) : a.comments = [] := by
  simp only [read, Option.bind_eq_bind] at ha
  split at ha
  · cases ha
  · cases room with
    | zero => cases ha
    | succ room =>
      obtain ⟨rest, hrest, ha⟩ := Option.bind_eq_some_iff.1 ha
      obtain ⟨⟨name, after⟩, hname, ha⟩ := Option.bind_eq_some_iff.1 ha
      obtain ⟨ofEntity, hof, ha⟩ := Option.bind_eq_some_iff.1 ha
      obtain ⟨⟨entity, after'⟩, hentity, ha⟩ := Option.bind_eq_some_iff.1 ha
      obtain ⟨unit, his, ha⟩ := Option.bind_eq_some_iff.1 ha
      obtain ⟨inner, hinner, ha⟩ := Option.bind_eq_some_iff.1 ha
      obtain ⟨⟨headText, bodyText⟩, hcut, ha⟩ := Option.bind_eq_some_iff.1 ha
      obtain ⟨head, hhead, ha⟩ := Option.bind_eq_some_iff.1 ha
      obtain ⟨body, hbody, ha⟩ := Option.bind_eq_some_iff.1 ha
      obtain rfl := Option.some.inj ha
      have hnamed := quiet_of_splitIdent? (h.trim.quiet.of_afterWord? ⟨by decide, by decide⟩ hrest) hname
      have hquiet := quiet_of_splitIdent? (hnamed.of_afterWord? ⟨by decide, by decide⟩ hof) hentity
      have hunit := (hquiet.of_afterWord? ⟨by decide, by decide⟩ his).of_beforeEnd? hinner
      obtain ⟨hheadFree, hbodyQuiet⟩ := hunit.of_cutClause? ⟨by decide, by decide⟩ hcut
        (DeclarativePart.head?_ne_tick_of_read hhead)
      rw [comments, DeclarativePart.comments_eq_nil hheadFree.quiet hhead,
        Concurrent.comments_eq_nil hbodyQuiet hbody]
      rfl

/-! ## Files -/

namespace SourceUnit

theorem commentFree_drop_lengthAt {t : Text} (h : CommentFree none t) :
    CommentFree none (t.drop (lengthAt t)) := by
  rw [lengthAt]
  split
  · rename_i n hat
    cases t with
    | nil => cases hat
    | cons c t =>
      rw [CommentFree, commentFrom?, hat] at h
      cases h
  · cases hn : extent? t with
    | none =>
      rw [Option.getD_none, List.drop_length]
      rfl
    | some n => exact h.of_extent? hn

theorem commentFree_of_mem_splitFrom {found : List SourceUnit} {start fuel : Nat} {t : Text}
    (hfound : ∀ u ∈ found, CommentFree none u.text) (h : CommentFree none t) :
    ∀ u ∈ splitFrom found start fuel t, CommentFree none u.text := by
  induction fuel generalizing found start t with
  | zero => exact fun u hu => hfound u (List.mem_reverse.1 hu)
  | succ fuel ih =>
    have hrest := h.dropWhile_asciiBlank
    simp only [splitFrom]
    split
    · exact fun u hu => hfound u (List.mem_reverse.1 hu)
    · refine ih (fun u hu => ?_) (commentFree_drop_lengthAt hrest)
      rcases List.mem_cons.1 hu with rfl | hu
      · exact hrest.take _
      · exact hfound u hu

/-- The units of a text without comments hold none. -/
theorem commentFree_of_mem_split {t : Text} (h : CommentFree none t) :
    ∀ u ∈ split t, CommentFree none u.text :=
  commentFree_of_mem_splitFrom (fun _ hu => absurd hu List.not_mem_nil) h

theorem mem_of_mem_kept {units : List SourceUnit} {u : SourceUnit} (h : u ∈ kept units) :
    u ∈ units := by
  rw [kept, List.mem_append] at h
  rcases h with h | h
  · exact (List.takeWhile_prefix _).subset h
  · exact (List.dropWhile_suffix _).subset (List.mem_of_mem_filter h)

end SourceUnit

/-- The comments of a unit: the unit itself if it is a comment line, else those inside it. -/
def DesignUnit.comments : DesignUnit → List Comment
  | comment c => [c]
  | context _ => []
  | package p => p.comments
  | packageBody b => b.comments
  | entity e => e.comments
  | architecture a => a.comments

theorem DesignUnit.comments_eq_nil {room : Nat} {u : SourceUnit} {d : DesignUnit}
    (h : CommentFree none u.text) (hd : read room u = some d) : d.comments = [] := by
  rw [read] at hd
  split at hd
  · rw [Comment.read_eq_none h.trim] at hd
    cases hd
  · obtain ⟨c, -, rfl⟩ := Option.map_eq_some_iff.1 hd
    rfl
  · obtain ⟨e, he, rfl⟩ := Option.map_eq_some_iff.1 hd
    exact Interface.comments_eq_nil ⟨by decide, by decide⟩ h he
  · obtain ⟨a, ha, rfl⟩ := Option.map_eq_some_iff.1 hd
    exact Architecture.comments_eq_nil h ha
  · obtain ⟨p, hp, rfl⟩ := Option.map_eq_some_iff.1 hd
    exact Package.comments_eq_nil h hp
  · obtain ⟨b, hb, rfl⟩ := Option.map_eq_some_iff.1 hd
    exact PackageBody.comments_eq_nil h hb
  · cases hd

namespace DesignFile

/-- The comments of the units of one kind are among the comments of the units. -/
theorem flatMap_filterMap_eq_nil {α : Type} {kind? : DesignUnit → Option α}
    {comments : α → List Comment} {units : List DesignUnit}
    (h : ∀ d ∈ units, d.comments = [])
    (hkind : ∀ d a, kind? d = some a → comments a = d.comments) :
    (units.filterMap kind?).flatMap comments = [] := by
  rw [List.flatMap_eq_nil_iff]
  intro a ha
  obtain ⟨d, hd, hda⟩ := List.mem_filterMap.1 ha
  rw [hkind d a hda, h d hd]

theorem comments_ofUnits_eq_nil {units : List DesignUnit} (h : ∀ d ∈ units, d.comments = []) :
    (ofUnits units).comments = [] := by
  have hheader : (ofUnits units).header = [] := by
    refine List.filterMap_eq_nil_iff.2 fun d hd => ?_
    have hnone := h d hd
    cases d <;> first | rfl | cases hnone
  rw [comments, hheader, List.nil_append]
  simp only [List.append_eq_nil_iff]
  refine ⟨⟨⟨?_, ?_⟩, ?_⟩, ?_⟩ <;>
    exact flatMap_filterMap_eq_nil h fun d a ha => by cases d <;> cases ha; rfl

/-- **The file read from a text without comments has none.** -/
theorem comments_eq_nil {room : Nat} {t : Text} {f : DesignFile} (h : commentStart? t = none)
    (hf : read room t = some f) : f.comments = [] := by
  rw [read] at hf
  split at hf
  · cases hf
  · obtain ⟨units, hunits, rfl⟩ := Option.map_eq_some_iff.1 hf
    refine comments_ofUnits_eq_nil fun d hd => ?_
    obtain ⟨u, hu, hud⟩ := (mem_mapM hunits).2 d hd
    exact DesignUnit.comments_eq_nil
      (SourceUnit.commentFree_of_mem_split h u (SourceUnit.mem_of_mem_kept hu)) hud

end DesignFile
end CanonicalVhdl
