import CanonicalVhdl.Design.File
import CanonicalVhdl.Proofs.Settled.Concurrent

/-!
# Settled units

Interfaces, types, functions, declarative parts and the units of files that can be
read are settled.

## Main statements

* `Interface.settled_of_readAs` — entities and component declarations.
* `Declaration.settled_of_readPart` — declarative parts.
* `Architecture.settled_of_read`, `Package.settled_of_read`, `PackageBody.settled_of_read` —
  the other units of a file.
-/

namespace CanonicalVhdl

open Text

section Read

variable {room : Nat} {t : Text}

/-! ## Clauses -/

namespace ListEntry

theorem settled_of_ofPieces? {pieces : List Text} :
    ∀ {entries : List ListEntry}, ofPieces? pieces = some entries →
      (∀ e ∈ entries, Settled e.code) → ∀ piece ∈ pieces, Settled piece := by
  induction pieces with
  | nil => exact fun _ _ _ hpiece => nomatch hpiece
  | cons piece pieces ih =>
    intro entries h hentries
    simp only [ofPieces?, Option.bind_eq_bind] at h
    obtain ⟨-, h⟩ := Option.ite_none_left_eq_some.1 h
    obtain ⟨rest, hrest, h⟩ := Option.bind_eq_some_iff.1 h
    obtain rfl := Option.some.inj h
    obtain ⟨hcode, hentries⟩ := List.forall_mem_cons.1 hentries
    exact List.forall_mem_cons.2
      ⟨(show Settled (trim (maskComments piece)) from hcode).of_trim.of_maskComments,
        ih hrest hentries⟩

theorem settled_of_split? {entries : List ListEntry} (h : split? t = some entries)
    (hentries : ∀ e ∈ entries, Settled e.code) : Settled t :=
  Settled.of_splitOuter (by decide) (settled_of_ofPieces? h hentries)

theorem settled_of_interior? {keyword inner : Text} (hkeyword : IsBland keyword)
    (hinner : Settled inner) (h : interior? keyword t = some inner) : Settled t := by
  obtain ⟨rest, hrest, h⟩ := Option.bind_eq_some_iff.1 h
  obtain ⟨⟨inner', after⟩, hgroup, h⟩ := Option.bind_eq_some_iff.1 h
  obtain ⟨hafter, h⟩ := Option.ite_none_right_eq_some.1 h
  obtain rfl := Option.some.inj h
  have hsettled : Settled (trim after) := by
    rw [beq_iff_eq.1 hafter]
    decide
  exact (Settled.of_parenthesised? hinner hsettled.of_trim hgroup).of_afterWord? hkeyword hrest

end ListEntry

theorem Port.settled_of_splitMode? {mode : Mode} {rest : Text} (hrest : Settled rest)
    (h : Port.splitMode? t = some (mode, rest)) : Settled t := by
  rw [splitMode?] at h
  split at h
  · next m _ =>
    obtain ⟨r, hr, h⟩ := Option.map_eq_some_iff.1 h
    obtain ⟨-, rfl⟩ := Prod.mk.inj h
    exact hrest.of_afterWord? (by cases m <;> decide) hr
  · obtain ⟨-, rfl⟩ := Prod.mk.inj (Option.some.inj h)
    exact hrest

theorem Port.settled_of_readEntry {e : ListEntry} {p : Port} (h : Port.readEntry room e = some p) :
    Settled e.code := by
  obtain ⟨⟨name, rest⟩, hname, h⟩ := Option.bind_eq_some_iff.1 h
  obtain ⟨⟨mode, rest'⟩, hmode, h⟩ := Option.bind_eq_some_iff.1 h
  obtain ⟨typed, htyped, -⟩ := Option.bind_eq_some_iff.1 h
  exact TypedName.settled_of_splitName?
    (settled_of_splitMode? (TypedName.settled_of_readTyped htyped) hmode).of_trimStart hname

theorem Generic.settled_of_readEntry {e : ListEntry} {g : Generic}
    (h : Generic.readEntry room e = some g) : Settled e.code := by
  obtain ⟨⟨name, rest⟩, hname, h⟩ := Option.bind_eq_some_iff.1 h
  obtain ⟨typed, htyped, -⟩ := Option.bind_eq_some_iff.1 h
  exact TypedName.settled_of_splitName? (TypedName.settled_of_readTyped htyped).of_trimStart hname

theorem PortClause.settled_of_read {c : PortClause} (h : PortClause.read room t = some c) :
    Settled t := by
  obtain ⟨-, h⟩ := Option.ite_none_left_eq_some.1 h
  obtain ⟨inner, hinner, h⟩ := Option.bind_eq_some_iff.1 h
  obtain ⟨entries, hentries, h⟩ := Option.bind_eq_some_iff.1 h
  obtain ⟨ports, hports, -⟩ := Option.bind_eq_some_iff.1 h
  refine Settled.of_trim (ListEntry.settled_of_interior? (by decide)
    (ListEntry.settled_of_split? hentries fun e he => ?_) hinner)
  obtain ⟨p, hp⟩ := (mem_mapM hports).1 e he
  exact Port.settled_of_readEntry hp

theorem GenericClause.settled_of_read {c : GenericClause} (h : GenericClause.read room t = some c) :
    Settled t := by
  obtain ⟨-, h⟩ := Option.ite_none_left_eq_some.1 h
  obtain ⟨inner, hinner, h⟩ := Option.bind_eq_some_iff.1 h
  obtain ⟨entries, hentries, h⟩ := Option.bind_eq_some_iff.1 h
  obtain ⟨generics, hgenerics, -⟩ := Option.bind_eq_some_iff.1 h
  refine Settled.of_trim (ListEntry.settled_of_interior? (by decide)
    (ListEntry.settled_of_split? hentries fun e he => ?_) hinner)
  obtain ⟨g, hg⟩ := (mem_mapM hgenerics).1 e he
  exact Generic.settled_of_readEntry hg

/-! ## Entities and components -/

open Phase in
/-- Blanks and comments before a settled text.  A comment opens with two hyphens, the
second of which is still to come after the first. -/
theorem Text.isSound_of_triviaEnd {t : Text} :
    ∀ (inComment : Bool) {passed : Nat} {before : Option Char} {p : Phase},
      (inComment = true → p = comment ∨ p = hyphen ∧ t.head? = some '-') →
      (inComment = false → p = code) →
      Settled (triviaEnd inComment passed before t).rest → (p.after t).isSound = true := by
  induction t with
  | nil =>
    intro inComment passed before p hcomment hcode _
    cases inComment with
    | true =>
      obtain rfl | ⟨-, hhead⟩ := hcomment rfl
      · rfl
      · cases hhead
    | false => rw [hcode rfl]; rfl
  | cons c t ih =>
    intro inComment passed before p hcomment hcode h
    rw [triviaEnd] at h
    rw [after_cons]
    cases inComment with
    | true =>
      have hstep : p.step c = if c == '\n' then code else comment := by
        obtain rfl | ⟨rfl, hhead⟩ := hcomment rfl
        · rfl
        · obtain rfl : c = '-' := by simpa using hhead
          rfl
      rw [hstep]
      refine ih _ (fun hline => .inl ?_) (fun hline => ?_) h
      · rw [if_neg (by simpa using hline)]
      · rw [if_pos (by simpa using hline)]
    | false =>
      obtain rfl := hcode rfl
      rw [if_neg (by decide)] at h
      split at h
      · next hblank =>
        refine ih false (fun hfalse => absurd hfalse Bool.false_ne_true) (fun _ => ?_) h
        have hne : ∀ d, isAsciiBlank d = false → c ≠ d := by
          rintro d hd rfl
          rw [hd] at hblank
          cases hblank
        simp [step, hne '"' (by decide), hne '\'' (by decide), hne '-' (by decide)]
      split at h
      · next hdash =>
        rw [Bool.and_eq_true, beq_iff_eq, beq_iff_eq] at hdash
        obtain ⟨rfl, hhead⟩ := hdash
        exact ih true (fun _ => .inr ⟨rfl, hhead⟩) (fun hfalse => absurd hfalse.symm Bool.false_ne_true) h
      · exact h

theorem Text.Settled.of_skipTrivia {p : Place} (h : Settled (skipTrivia p).rest) :
    Settled p.rest :=
  isSound_of_triviaEnd false (fun hfalse => nomatch hfalse) (fun _ => rfl) h

theorem Interface.settled_of_readClauses {fuel : Nat} :
    ∀ {generics generics' : Option GenericClause} {ports ports' : Option PortClause} {t : Text},
      Interface.readClauses room generics ports fuel t = some (generics', ports') → Settled t := by
  induction fuel with
  | zero => exact fun h => nomatch h
  | succ fuel ih =>
    intro generics generics' ports ports' t h
    refine Settled.of_skipTrivia (p := ⟨0, none, t⟩) ?_
    simp only [readClauses, Option.bind_eq_bind] at h
    generalize (skipTrivia ⟨0, none, t⟩).rest = u at h ⊢
    split at h
    · next hempty =>
      rw [List.isEmpty_iff.1 hempty]
      exact settled_nil
    · obtain ⟨n, hn, h⟩ := Option.bind_eq_some_iff.1 h
      split at h
      · obtain ⟨c, hc, h⟩ := Option.bind_eq_some_iff.1 h
        exact Settled.of_extent? hn (GenericClause.settled_of_read hc) (ih h)
      split at h
      · obtain ⟨c, hc, h⟩ := Option.bind_eq_some_iff.1 h
        exact Settled.of_extent? hn (PortClause.settled_of_read hc) (ih h)
      · cases h

theorem Interface.settled_of_splitUnit? {keyword body : Text} {requireIs : Bool} {name : Ident}
    (hkeyword : IsBland keyword) (hbody : Settled body)
    (h : Interface.splitUnit? keyword requireIs t = some (name, body)) : Settled t := by
  simp only [splitUnit?, Option.bind_eq_bind] at h
  obtain ⟨-, h⟩ := Option.ite_none_left_eq_some.1 h
  obtain ⟨rest, hrest, h⟩ := Option.bind_eq_some_iff.1 h
  obtain ⟨n, hn, h⟩ := Option.bind_eq_some_iff.1 h
  refine Settled.of_afterWord? hkeyword (Settled.of_dropWhile (Ident.isBland_of_ofText? hn)
    (Settled.of_trimStart ?_)) hrest
  have hclosed : ∀ {u : Text},
      ((beforeEnd? [keyword] false (some n.text) u).bind fun b => some (n, b)) = some (name, body) →
      Settled u := by
    intro u h
    obtain ⟨b, hb, h⟩ := Option.bind_eq_some_iff.1 h
    obtain ⟨-, rfl⟩ := Prod.mk.inj (Option.some.inj h)
    exact Settled.of_beforeEnd? (List.forall_mem_singleton.2 hkeyword)
      (Ident.isBland_of_mem_map_text (some n)) hbody hb
  split at h
  · next after hafter => exact Settled.of_afterWord? (by decide) (hclosed h) hafter
  · split at h
    · cases h
    · exact hclosed h

theorem Interface.settled_of_readAs {keyword : Text} {requireIs : Bool} {u : Interface}
    (hkeyword : IsBland keyword) (h : Interface.readAs room keyword requireIs t = some u) :
    Settled t := by
  obtain ⟨⟨name, body⟩, hbody, h⟩ := Option.bind_eq_some_iff.1 h
  obtain ⟨⟨generics, ports⟩, hclauses, -⟩ := Option.bind_eq_some_iff.1 h
  exact Settled.of_trim (settled_of_splitUnit? hkeyword (settled_of_readClauses hclauses) hbody)

/-! ## Types -/

theorem RecordField.settled_of_read {f : RecordField} (h : RecordField.read room t = some f) :
    Settled t := by
  simp only [read, Option.bind_eq_bind] at h
  obtain ⟨-, h⟩ := Option.ite_none_left_eq_some.1 h
  obtain ⟨body, hbody, h⟩ := Option.bind_eq_some_iff.1 h
  obtain ⟨⟨name, type⟩, hsplit, h⟩ := Option.bind_eq_some_iff.1 h
  obtain ⟨n, hn, h⟩ := Option.bind_eq_some_iff.1 h
  obtain ⟨m, hm, -⟩ := Option.bind_eq_some_iff.1 h
  have hsettled := Settled.of_splitOnce (by decide) (Ident.settled_of_trim hn)
    (TypeMark.settled_of_read hm) hsplit
  exact ((blandEnd_dropFinal? (by decide) hbody).settled hsettled).of_splitTrailer

theorem TypeDecl.settled_of_readEnumeration {name : Ident} {d : TypeDecl}
    (h : TypeDecl.readEnumeration name t = some d) : Settled t := by
  obtain ⟨⟨inner, after⟩, hgroup, h⟩ := Option.bind_eq_some_iff.1 h
  obtain ⟨hafter, h⟩ := Option.ite_none_left_eq_some.1 h
  obtain ⟨values, hvalues, -⟩ := Option.bind_eq_some_iff.1 h
  have hsettled : Settled (trim after) := by
    rw [show trim after = [';'] by simpa using hafter]
    decide
  refine Settled.of_parenthesised? (Settled.of_splitOuter (c := ',') (by decide)
    fun piece hpiece => ?_) hsettled.of_trim hgroup
  obtain ⟨n, hn⟩ := (mem_mapM hvalues).1 piece hpiece
  exact Ident.settled_of_trim hn

theorem TypeDecl.settled_of_readRecord {name : Ident} {whole : Text} {d : TypeDecl}
    (h : TypeDecl.readRecord room name whole t = some d) : Settled t := by
  obtain ⟨-, h⟩ := Option.ite_none_left_eq_some.1 h
  obtain ⟨rest, hrest, h⟩ := Option.bind_eq_some_iff.1 h
  obtain ⟨body, hbody, h⟩ := Option.bind_eq_some_iff.1 h
  obtain ⟨pieces, hpieces, h⟩ := Option.bind_eq_some_iff.1 h
  obtain ⟨fields, hfields, -⟩ := Option.bind_eq_some_iff.1 h
  refine Settled.of_afterWord? (by decide) (Settled.of_beforeEnd? (by decide)
    (Ident.isBland_of_mem_map_text (some name))
    (settled_of_pieces? hpieces fun code trailer hcode => ?_) hbody) hrest
  obtain ⟨f, hf⟩ := (mem_mapM hfields).1 _ hcode
  obtain ⟨g, hg, -⟩ := Option.map_eq_some_iff.1 hf
  obtain ⟨k, hk, -⟩ := Option.map_eq_some_iff.1 hg
  exact RecordField.settled_of_read hk

theorem TypeDecl.settled_of_readArray {name : Ident} {d : TypeDecl}
    (h : TypeDecl.readArray room name t = some d) : Settled t := by
  obtain ⟨rest, hrest, h⟩ := Option.bind_eq_some_iff.1 h
  obtain ⟨⟨range, after⟩, hgroup, h⟩ := Option.bind_eq_some_iff.1 h
  obtain ⟨element, helement, h⟩ := Option.bind_eq_some_iff.1 h
  obtain ⟨r, hr, h⟩ := Option.bind_eq_some_iff.1 h
  obtain ⟨body, hbody, h⟩ := Option.bind_eq_some_iff.1 h
  obtain ⟨m, hm, -⟩ := Option.bind_eq_some_iff.1 h
  have hafter := ((blandEnd_dropFinal? (by decide) hbody).settled
    (TypeMark.settled_of_read hm)).of_afterWord? (by decide) helement
  exact (Settled.of_parenthesised? (Range.settled_of_read hr) hafter hgroup).of_afterWord?
    (by decide) hrest

theorem TypeDecl.settled_of_read {d : TypeDecl} (h : TypeDecl.read room t = some d) :
    Settled t := by
  simp only [read, Option.bind_eq_bind] at h
  obtain ⟨-, h⟩ := Option.ite_none_left_eq_some.1 h
  obtain ⟨rest, hrest, h⟩ := Option.bind_eq_some_iff.1 h
  obtain ⟨⟨name, body⟩, hsplit, h⟩ := Option.bind_eq_some_iff.1 h
  obtain ⟨n, hn, h⟩ := Option.bind_eq_some_iff.1 h
  refine Settled.of_trim (Settled.of_afterWord? (by decide) (Settled.of_splitAtWord? (by decide)
    (by decide) (Ident.settled_of_trim hn) (Settled.of_trimStart ?_) hsplit) hrest)
  split at h
  · exact settled_of_readRecord h
  · refine Settled.of_stripComments ?_
    split at h
    · exact settled_of_readEnumeration h
    · exact settled_of_readArray h

/-! ## Functions -/

theorem Parameter.settled_of_afterMode? {rest : Text} (hrest : Settled rest)
    (h : Parameter.afterMode? t = some rest) : Settled t := by
  rw [afterMode?] at h
  split at h
  · exact hrest.of_afterWord? (by decide) h
  · cases h
  · obtain rfl := Option.some.inj h
    exact hrest

theorem Parameter.settled_of_read {p : Parameter} (h : Parameter.read room t = some p) :
    Settled t := by
  obtain ⟨⟨name, rest⟩, hsplit, h⟩ := Option.bind_eq_some_iff.1 h
  obtain ⟨type, htype, h⟩ := Option.bind_eq_some_iff.1 h
  obtain ⟨n, hn, h⟩ := Option.bind_eq_some_iff.1 h
  obtain ⟨m, hm, -⟩ := Option.bind_eq_some_iff.1 h
  have hrest := (settled_of_afterMode? (TypeMark.settled_of_read hm) htype).of_trimStart
  exact Settled.of_afterWord?_getD (by decide)
    (Settled.of_splitOnce (by decide) (Ident.settled_of_trim hn) hrest hsplit)

theorem Signature.settled_of_splitParameters? {ps : List Parameter} {rest : Text}
    (hrest : Settled rest) (h : Signature.splitParameters? room t = some (ps, rest)) :
    Settled t := by
  rw [splitParameters?] at h
  split at h
  · obtain ⟨⟨inner, after⟩, hgroup, h⟩ := Option.bind_eq_some_iff.1 h
    obtain ⟨parameters, hparameters, h⟩ := Option.bind_eq_some_iff.1 h
    obtain ⟨-, rfl⟩ := Prod.mk.inj (Option.some.inj h)
    refine Settled.of_parenthesised? (Settled.of_splitOuter (c := ';') (by decide)
      fun piece hpiece => ?_) hrest hgroup
    obtain ⟨p, hp⟩ := (mem_mapM hparameters).1 piece hpiece
    exact Parameter.settled_of_read hp
  · obtain ⟨-, rfl⟩ := Prod.mk.inj (Option.some.inj h)
    exact hrest

theorem Signature.settled_of_readOpen {s : Signature} (h : Signature.readOpen room t = some s) :
    Settled t := by
  obtain ⟨rest, hrest, h⟩ := Option.bind_eq_some_iff.1 h
  obtain ⟨name, hname, h⟩ := Option.bind_eq_some_iff.1 h
  obtain ⟨⟨parameters, after⟩, hparameters, h⟩ := Option.bind_eq_some_iff.1 h
  obtain ⟨result, hresult, h⟩ := Option.bind_eq_some_iff.1 h
  obtain ⟨m, hm, -⟩ := Option.bind_eq_some_iff.1 h
  have hafter := (TypeMark.settled_of_read hm).of_afterWord? (by decide) hresult
  exact Settled.of_afterWord? (by decide) (Settled.of_dropWhile (Ident.isBland_of_ofText? hname)
    (settled_of_splitParameters? hafter hparameters).of_trimStart) hrest

theorem Signature.settled_of_read {s : Signature} (h : Signature.read room t = some s) :
    Settled t := by
  obtain ⟨-, h⟩ := Option.ite_none_left_eq_some.1 h
  obtain ⟨body, hbody, h⟩ := Option.bind_eq_some_iff.1 h
  exact ((blandEnd_dropFinal? (by decide) hbody).settled
    (settled_of_readOpen h).of_trimEnd).of_trim.of_withoutComments

theorem FunctionBody.settled_of_read {f : FunctionBody} (h : FunctionBody.read room t = some f) :
    Settled t := by
  refine Settled.of_trim ?_
  simp only [read] at h
  obtain ⟨-, h⟩ := Option.ite_none_left_eq_some.1 h
  split at h
  · cases h
  obtain ⟨⟨header, rest⟩, hcut, h⟩ := Option.bind_eq_some_iff.1 h
  obtain ⟨s, hs, h⟩ := Option.bind_eq_some_iff.1 h
  obtain ⟨inner, hinner, h⟩ := Option.bind_eq_some_iff.1 h
  obtain ⟨⟨declarations, body⟩, hbegin, h⟩ := Option.bind_eq_some_iff.1 h
  obtain ⟨ds, hds, h⟩ := Option.bind_eq_some_iff.1 h
  obtain ⟨b, hb, -⟩ := Option.bind_eq_some_iff.1 h
  have hparts := Settled.of_cutClause? (by decide) (by decide)
    (Statement.settled_of_readDeclarations hds) (Sequential.settled_of_read hb) hbegin
  have hrest := Settled.of_beforeEnd? (by decide)
    (Ident.isBland_of_mem_map_text (some s.name)) hparts hinner
  exact Settled.of_cutOuter? (by decide) (by decide)
    (Signature.settled_of_readOpen hs).of_trim.of_withoutComments hrest hcut

/-! ## Declarative parts -/

theorem Declaration.settled_of_readItem {d : Declaration} (h : Declaration.readItem room t = some d) :
    Settled t := by
  simp only [readItem, Option.bind_eq_bind] at h
  obtain ⟨word, -, h⟩ := Option.bind_eq_some_iff.1 h
  split at h
  · obtain ⟨d, hd, -⟩ := Option.map_eq_some_iff.1 h
    exact ObjectDecl.settled_of_read hd
  split at h
  · obtain ⟨d, hd, -⟩ := Option.map_eq_some_iff.1 h
    exact TypeDecl.settled_of_read hd
  split at h
  · obtain ⟨c, hc, -⟩ := Option.map_eq_some_iff.1 h
    exact Interface.settled_of_readAs (by decide) hc
  split at h
  · split at h
    · next hf => exact FunctionBody.settled_of_read hf
    · obtain ⟨s, hs, -⟩ := Option.map_eq_some_iff.1 h
      exact Signature.settled_of_read hs
  · cases h

theorem Declaration.settled_of_readPart {items : List Declaration}
    (h : Declaration.readPart room t = some items) : Settled t := by
  obtain ⟨pieces, hpieces, h⟩ := Option.bind_eq_some_iff.1 h
  obtain ⟨elements, helements, -⟩ := Option.bind_eq_some_iff.1 h
  refine settled_of_pieces? hpieces fun code trailer hcode => ?_
  obtain ⟨ds, hds⟩ := (mem_mapM helements).1 _ hcode
  simp only [readPiece] at hds
  split at hds
  · next hd => exact ObjectDecl.settled_of_readWithTrailer hd
  · obtain ⟨item, hitem, -⟩ := Option.bind_eq_some_iff.1 hds
    exact settled_of_readItem hitem

theorem DeclarativePart.settled_of_read {p : DeclarativePart}
    (h : DeclarativePart.read room t = some p) : Settled t := by
  obtain ⟨-, h⟩ := Option.ite_none_left_eq_some.1 h
  obtain ⟨items, hitems, -⟩ := Option.bind_eq_some_iff.1 h
  exact Declaration.settled_of_readPart hitems

/-! ## Units -/

theorem settled_of_splitIdent? {name : Ident} {rest : Text} (hrest : Settled rest)
    (h : splitIdent? t = some (name, rest)) : Settled t := by
  obtain ⟨n, hn, h⟩ := Option.bind_eq_some_iff.1 h
  obtain ⟨-, rfl⟩ := Prod.mk.inj (Option.some.inj h)
  exact (Settled.of_dropWhile (Ident.isBland_of_ofText? hn) hrest.of_trimStart).of_trimStart

theorem Architecture.settled_of_read {a : Architecture} (h : Architecture.read room t = some a) :
    Settled t := by
  refine Settled.of_trim ?_
  simp only [read] at h
  obtain ⟨-, h⟩ := Option.ite_none_left_eq_some.1 h
  split at h
  · cases h
  obtain ⟨rest, hrest, h⟩ := Option.bind_eq_some_iff.1 h
  obtain ⟨⟨name, afterName⟩, hname, h⟩ := Option.bind_eq_some_iff.1 h
  obtain ⟨ofRest, hof, h⟩ := Option.bind_eq_some_iff.1 h
  obtain ⟨⟨entity, afterEntity⟩, hentity, h⟩ := Option.bind_eq_some_iff.1 h
  obtain ⟨isRest, his, h⟩ := Option.bind_eq_some_iff.1 h
  obtain ⟨inner, hinner, h⟩ := Option.bind_eq_some_iff.1 h
  obtain ⟨⟨head, body⟩, hcut, h⟩ := Option.bind_eq_some_iff.1 h
  obtain ⟨p, hp, h⟩ := Option.bind_eq_some_iff.1 h
  obtain ⟨b, hb, -⟩ := Option.bind_eq_some_iff.1 h
  have hparts := Settled.of_cutClause? (by decide) (by decide) (DeclarativePart.settled_of_read hp)
    (Concurrent.settled_of_read hb) hcut
  have hbody := Settled.of_beforeEnd? (by decide)
    (Ident.isBland_of_mem_map_text (some name)) hparts hinner
  have hentity := settled_of_splitIdent? (hbody.of_afterWord? (by decide) his) hentity
  exact (settled_of_splitIdent? (hentity.of_afterWord? (by decide) hof) hname).of_afterWord?
    (by decide) hrest

theorem Package.settled_of_read {p : Package} (h : Package.read room t = some p) : Settled t := by
  refine Settled.of_trim ?_
  simp only [read, Option.bind_eq_bind] at h
  obtain ⟨-, h⟩ := Option.ite_none_left_eq_some.1 h
  obtain ⟨rest, hrest, h⟩ := Option.bind_eq_some_iff.1 h
  obtain ⟨⟨name, afterName⟩, hname, h⟩ := Option.bind_eq_some_iff.1 h
  obtain ⟨isRest, his, h⟩ := Option.bind_eq_some_iff.1 h
  obtain ⟨body, hbody, h⟩ := Option.bind_eq_some_iff.1 h
  obtain ⟨items, hitems, -⟩ := Option.bind_eq_some_iff.1 h
  have hisRest := Settled.of_beforeEnd? (by decide)
    (Ident.isBland_of_mem_map_text (some name)) (Declaration.settled_of_readPart hitems)
    hbody
  exact (settled_of_splitIdent? (hisRest.of_afterWord? (by decide) his) hname).of_afterWord?
    (by decide) hrest

theorem BodyItem.settled_of_readItem {i : BodyItem} (h : BodyItem.readItem room t = some i) :
    Settled t := by
  rw [readItem] at h
  split at h
  · obtain ⟨f, hf, -⟩ := Option.map_eq_some_iff.1 h
    exact FunctionBody.settled_of_read hf
  split at h
  · obtain ⟨d, hd, -⟩ := Option.map_eq_some_iff.1 h
    exact TypeDecl.settled_of_read hd
  · obtain ⟨d, hd, -⟩ := Option.map_eq_some_iff.1 h
    exact ObjectDecl.settled_of_read hd

theorem BodyItem.settled_of_read {i : BodyItem} (h : BodyItem.read room t = some i) :
    Settled t := by
  obtain ⟨-, h⟩ := Option.ite_none_left_eq_some.1 h
  split at h
  · cases h
  obtain ⟨pieces, hpieces, h⟩ := Option.bind_eq_some_iff.1 h
  obtain ⟨elements, helements, -⟩ := Option.bind_eq_some_iff.1 h
  refine settled_of_pieces? hpieces fun code trailer hcode => ?_
  obtain ⟨is, his⟩ := (mem_mapM helements).1 _ hcode
  simp only [readPiece] at his
  split at his
  · next hd => exact ObjectDecl.settled_of_readWithTrailer hd
  · obtain ⟨item, hitem, -⟩ := Option.bind_eq_some_iff.1 his
    exact settled_of_readItem hitem

theorem PackageBody.settled_of_read {b : PackageBody} (h : PackageBody.read room t = some b) :
    Settled t := by
  refine Settled.of_trim ?_
  simp only [read, Option.bind_eq_bind] at h
  obtain ⟨-, h⟩ := Option.ite_none_left_eq_some.1 h
  obtain ⟨rest, hrest, h⟩ := Option.bind_eq_some_iff.1 h
  obtain ⟨⟨name, afterName⟩, hname, h⟩ := Option.bind_eq_some_iff.1 h
  obtain ⟨isRest, his, h⟩ := Option.bind_eq_some_iff.1 h
  obtain ⟨inner, hinner, h⟩ := Option.bind_eq_some_iff.1 h
  obtain ⟨body, hbody, -⟩ := Option.bind_eq_some_iff.1 h
  have hisRest := Settled.of_beforeEnd? (by decide)
    (Ident.isBland_of_mem_map_text (some name)) (BodyItem.settled_of_read hbody) hinner
  exact (settled_of_splitIdent? (hisRest.of_afterWord? (by decide) his) hname).of_afterWords?
    (by decide) hrest

end Read

end CanonicalVhdl
