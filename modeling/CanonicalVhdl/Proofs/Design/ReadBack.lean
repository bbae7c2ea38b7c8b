import CanonicalVhdl.Proofs.Design.Assembly
import CanonicalVhdl.Proofs.Text.Lists

/-!
# Files whose parts read back

A printed file is cut into the texts of its parts, each is recognised as what it is,
and parts of one kind keep their order.  So a file reads back when each of its parts
does by itself.

## Main definitions

* `DesignFile.PartsReadBack room f` — every part of a file reads back by itself.

## Main statements

* `DesignFile.any_read_text` — a file whose parts read back reads back.
-/

namespace CanonicalVhdl

open Text Token SourceUnit

namespace DesignFile

/-- Every part of a file reads back by itself. -/
structure PartsReadBack (room : Nat) (f : DesignFile) : Prop where
  /-- The comments before the first unit. -/
  header : ∀ c ∈ f.header, Comment.read c.line = some c
  /-- The context clauses. -/
  context : ∀ c ∈ f.context, (ContextClause.read c.text).any (·.same c) = true
  /-- The packages. -/
  packages : ∀ p ∈ f.packages, (Package.read room p.text).any (·.same p) = true
  /-- The package bodies. -/
  packageBodies : ∀ b ∈ f.packageBodies, (PackageBody.read room b.text).any (·.same b) = true
  /-- The entities. -/
  entities : ∀ e ∈ f.entities, (Interface.readEntity room e.entityText).any (·.same e) = true
  /-- The architectures. -/
  architectures : ∀ a ∈ f.architectures, (Architecture.read room a.text).any (·.same a) = true

/-- The texts of the parts in the order of the file, with the header and the context
clauses in one group. -/
def groups (f : DesignFile) : List (List Text) :=
  (if (f.header.map (·.line) ++ f.context.map (·.text)).isEmpty then []
    else [f.header.map (·.line) ++ f.context.map (·.text)])
    ++ (f.packages.map (·.text) ++ f.packageBodies.map (·.text) ++ f.entities.map (·.entityText)
      ++ f.architectures.map (·.text)).map ([·])

/-- The parts with their kinds. -/
def contents (f : DesignFile) : List (UnitKind × Text) :=
  f.header.map (fun c => (.comment, c.line)) ++ f.context.map (fun c => (.context, c.text))
    ++ f.packages.map (fun p => (.package, p.text))
    ++ f.packageBodies.map (fun b => (.packageBody, b.text))
    ++ f.entities.map (fun e => (.entity, e.entityText))
    ++ f.architectures.map (fun a => (.architecture, a.text))

theorem text_eq_groups (f : DesignFile) :
    f.text = join "\n\n".toList (f.groups.map (join ['\n'])) := by
  have hone : ∀ ts : List Text, (ts.map ([·])).map (join ['\n']) = ts := by
    intro ts
    rw [List.map_map]
    exact List.map_id'' (fun t => by simp [join]) ts
  have hsections : f.sections = f.groups.map (join ['\n']) := by
    rw [groups, List.map_append, hone, sections]
    split
    · simp only [List.map_nil, List.nil_append]
    · simp only [List.map_cons, List.map_nil, List.cons_append, List.nil_append]
  rw [text, hsections]

theorem flatten_groups (f : DesignFile) : f.groups.flatten = f.contents.map (·.2) := by
  have hone : ∀ ts : List Text, (ts.map ([·])).flatten = ts := by
    intro ts
    induction ts with
    | nil => rfl
    | cons t ts ih => rw [List.map_cons, List.flatten_cons, ih]; rfl
  have hprologue : (if (f.header.map (·.line) ++ f.context.map (·.text)).isEmpty then []
      else [f.header.map (·.line) ++ f.context.map (·.text)]).flatten
        = f.header.map (·.line) ++ f.context.map (·.text) := by
    split
    · rename_i h
      rw [List.isEmpty_iff.1 h]
      rfl
    · simp
  rw [groups, List.flatten_append, hone, hprologue, contents]
  simp only [List.map_append, List.map_map, List.append_assoc]
  rfl

/-! ## The parts of a file as units -/

variable {room : Nat} {f : DesignFile}

/-- A comment that reads back is one line. -/
theorem newline_not_mem_text {c : Comment} (h : Comment.read c.line = some c) : '\n' ∉ c.text := by
  have hof : ∀ t, Comment.ofText? t = some c → '\n' ∉ c.text := by
    intro t ht hmem
    simp only [Comment.ofText?] at ht
    split at ht
    · cases ht
    · rename_i hlines
      cases ht
      have hsub : '\n' ∈ t := List.mem_reverse.1
        ((List.dropWhile_sublist isBlank).subset (List.mem_reverse.1 hmem))
      simp at hlines
      exact hlines.1 hsub
  simp only [Comment.read] at h
  split at h
  · cases h
  · split at h
    · exact hof _ h
    · cases h

/-- Each part is a unit, and its kind shows in its text. -/
theorem PartsReadBack.isUnit (h : PartsReadBack room f) :
    ∀ p ∈ f.contents, IsUnit p.2 ∧ UnitKind.ofText p.2 = p.1 := by
  intro p hp
  simp only [contents, List.mem_append, List.mem_map] at hp
  rcases hp with ((((⟨c, hc, rfl⟩ | ⟨c, hc, rfl⟩) | ⟨p, hp, rfl⟩) | ⟨b, hb, rfl⟩) | ⟨e, he, rfl⟩)
    | ⟨a, ha, rfl⟩
  · exact ⟨isUnit_comment (newline_not_mem_text (h.header c hc)), rfl⟩
  · obtain ⟨d, hd, -⟩ := (Option.any_eq_true _ _).1 (h.context c hc)
    exact ⟨ContextClause.isUnit_text hd, c.ofText_text⟩
  · obtain ⟨q, hq, -⟩ := (Option.any_eq_true _ _).1 (h.packages p hp)
    exact ⟨Package.isUnit_text hq, p.ofText_text⟩
  · obtain ⟨d, hd, -⟩ := (Option.any_eq_true _ _).1 (h.packageBodies b hb)
    exact ⟨PackageBody.isUnit_text hd, b.ofText_text⟩
  · obtain ⟨i, hi, -⟩ := (Option.any_eq_true _ _).1 (h.entities e he)
    exact ⟨Interface.isUnit_entityText hi, e.ofText_entityText⟩
  · obtain ⟨b, hb, -⟩ := (Option.any_eq_true _ _).1 (h.architectures a ha)
    exact ⟨Architecture.isUnit_text hb, a.ofText_text⟩

/-- The units of the text of a file are its parts, each as its kind. -/
theorem PartsReadBack.split_text (h : PartsReadBack room f) :
    (SourceUnit.split f.text).map content = f.contents := by
  by_cases hnil : f.groups = []
  · have hempty : f.contents = [] := by
      have := flatten_groups f
      rw [hnil] at this
      exact List.map_eq_nil_iff.1 this.symm
    rw [text_eq_groups, hnil, hempty]
    rfl
  · have hunit : ∀ g ∈ f.groups, ∀ t ∈ g, IsUnit t := by
      intro g hg t ht
      have hmem : t ∈ f.contents.map (·.2) := by
        rw [← flatten_groups]
        exact List.mem_flatten_of_mem hg ht
      obtain ⟨p, hp, rfl⟩ := List.mem_map.1 hmem
      exact (h.isUnit p hp).1
    have hne : ∀ g ∈ f.groups, g ≠ [] := by
      intro g hg
      rcases List.mem_append.1 hg with hg | hg
      · split at hg
        · cases hg
        · rename_i hprologue
          rw [List.mem_singleton.1 hg]
          simpa using hprologue
      · obtain ⟨t, -, rfl⟩ := List.mem_map.1 hg
        exact List.cons_ne_nil t []
    have hassembled := assembled_groups hne hunit hnil
    rw [← text_eq_groups, flatten_groups] at hassembled
    have hcuts : Cuts (f.contents.map (·.2)) f.text := hassembled.cuts.congr rfl
    have hsplit := splitFrom_cuts hcuts [] 0 (f.text.length + 1) (Nat.lt_succ_self _)
    rw [SourceUnit.split, hsplit]
    simp only [List.reverse_nil, List.map_nil, List.nil_append, List.map_map]
    refine (List.map_congr_left fun p hp => ?_).trans (List.map_id f.contents)
    exact Prod.ext (h.isUnit p hp).2 rfl

/-! ## The file of the parts -/

/-- A list of comments with other units after it is kept whole. -/
theorem kept_append {hs us : List SourceUnit} (hh : ∀ u ∈ hs, u.isComment = true)
    (hu : ∀ u ∈ us, u.isComment = false) : kept (hs ++ us) = hs ++ us := by
  have htake : (hs ++ us).takeWhile isComment = hs := by
    rw [List.takeWhile_append_of_pos hh]
    cases us with
    | nil => simp
    | cons u us => simp [hu u List.mem_cons_self]
  have hdrop : (hs ++ us).dropWhile isComment = us := by
    rw [List.dropWhile_append_of_pos hh]
    cases us with
    | nil => rfl
    | cons u us => simp [hu u List.mem_cons_self]
  rw [kept, htake, hdrop, List.filter_eq_self.2 fun u hmem => by rw [hu u hmem]; rfl]

/-- All units of the text of a file are kept. -/
theorem PartsReadBack.kept_split (h : PartsReadBack room f) :
    kept (SourceUnit.split f.text) = SourceUnit.split f.text := by
  have hsplit := h.split_text
  simp only [contents, List.append_assoc] at hsplit
  obtain ⟨hs, us, hboth, hhs, hus⟩ := List.map_eq_append_iff.1 hsplit
  rw [hboth]
  refine kept_append (fun u hu => ?_) fun u hu => ?_
  · have := List.mem_map_of_mem (f := content) hu
    rw [hhs] at this
    obtain ⟨c, -, hc⟩ := List.mem_map.1 this
    have hkind : u.kind = .comment := (congrArg Prod.fst hc).symm
    rw [isComment, hkind]
    rfl
  · have := List.mem_map_of_mem (f := content) hu
    rw [hus] at this
    have hkind : u.kind ≠ .comment := by
      intro hkind
      have hcomment : (content u).1 = .comment := hkind
      simp only [List.mem_append, List.mem_map] at this
      rcases this with ⟨c, -, hc⟩ | ⟨p, -, hc⟩ | ⟨b, -, hc⟩ | ⟨e, -, hc⟩ | ⟨a, -, hc⟩ <;>
      · rw [← hc] at hcomment
        cases hcomment
    rw [isComment]
    simp [hkind]

/-- Units listed by kind make the file of their lists. -/
theorem ofUnits_kinds (hs : List Comment) (cs : List ContextClause) (ps : List Package)
    (bs : List PackageBody) (es : List Interface) (as : List Architecture) :
    ofUnits (hs.map .comment ++ cs.map .context ++ ps.map .package ++ bs.map .packageBody
      ++ es.map .entity ++ as.map .architecture) = ⟨hs, cs, ps, bs, es, as⟩ := by
  simp [ofUnits, List.filterMap_map, Function.comp_def, DesignUnit.comment?, DesignUnit.context?,
    DesignUnit.package?, DesignUnit.packageBody?, DesignUnit.entity?, DesignUnit.architecture?]

/-- The parts read back as the units of a file that equals the one they come from. -/
theorem PartsReadBack.mapM_contents (h : PartsReadBack room f) :
    ∃ us, f.contents.mapM (fun p => DesignUnit.read room ⟨p.1, 0, p.2⟩) = some us
      ∧ (ofUnits us).same f = true := by
  have hheader : f.header.mapM (fun c => Comment.read c.line) = some f.header :=
    mapM_eq_self h.header
  obtain ⟨cs, hcs, hcsame⟩ := exists_mapM_same ContextClause.sameAll rfl
    (fun _ _ _ _ => rfl) h.context
  obtain ⟨ps, hps, hpsame⟩ := exists_mapM_same Package.sameAll rfl
    (fun _ _ _ _ => rfl) h.packages
  obtain ⟨bs, hbs, hbsame⟩ := exists_mapM_same PackageBody.sameAll rfl
    (fun _ _ _ _ => rfl) h.packageBodies
  obtain ⟨es, hes, hesame⟩ := exists_mapM_same Interface.sameAll rfl
    (fun _ _ _ _ => rfl) h.entities
  obtain ⟨as, has, hasame⟩ := exists_mapM_same Architecture.sameAll rfl
    (fun _ _ _ _ => rfl) h.architectures
  refine ⟨_, ?_, (congrArg (·.same f) (ofUnits_kinds f.header cs ps bs es as)).trans ?_⟩
  · have key : ∀ {α β : Type} (kind : UnitKind) (text : α → Text) (read : Text → Option β)
        (ctor : β → DesignUnit) {as : List α} {out : List β},
        (∀ t, DesignUnit.read room ⟨kind, 0, t⟩ = (read t).map ctor) →
        as.mapM (fun a => read (text a)) = some out →
        (as.map fun a => (kind, text a)).mapM (fun p => DesignUnit.read room ⟨p.1, 0, p.2⟩)
          = some (out.map ctor) := by
      intro α β kind text read ctor as out hread hout
      rw [List.mapM_map]
      simp only [Function.comp_def, hread]
      exact mapM_map_ctor ctor hout
    simp only [contents, List.mapM_append, key .comment _ Comment.read .comment (fun _ => rfl) hheader,
      key .context _ ContextClause.read .context (fun _ => rfl) hcs,
      key .package _ (Package.read room) .package (fun _ => rfl) hps,
      key .packageBody _ (PackageBody.read room) .packageBody (fun _ => rfl) hbs,
      key .entity _ (Interface.readEntity room) .entity (fun _ => rfl) hes,
      key .architecture _ (Architecture.read room) .architecture (fun _ => rfl) has]
    rfl
  · simp only [same, hcsame, hpsame, hbsame, hesame, hasame, beq_self_eq_true, Bool.and_self]

/-- The kept units of the text of a file are read as the units of an equal file. -/
theorem PartsReadBack.mapM_kept (h : PartsReadBack room f) :
    ∃ us, (kept (SourceUnit.split f.text)).mapM (DesignUnit.read room) = some us
      ∧ (ofUnits us).same f = true := by
  obtain ⟨us, hread, hsame⟩ := h.mapM_contents
  refine ⟨us, ?_, hsame⟩
  rw [h.kept_split, ← hread, ← h.split_text, List.mapM_map]
  rfl

/-- A file whose header comments and units each read back reads back as a whole: each
section is there, in order and as its own kind. -/
theorem any_read_text (h : PartsReadBack room f) (hfits : fits Limits.blockBytes f.text = true) :
    (DesignFile.read room f.text).any (·.same f) = true := by
  obtain ⟨us, hread, hsame⟩ := h.mapM_kept
  rw [DesignFile.read, hfits, hread]
  exact hsame

theorem isIdent_probeArchitecture : isIdent ['a'] = true := by decide

theorem isIdent_probeEntity : isIdent ['e'] = true := by decide

theorem isIdent_probePort : isIdent ['q'] = true := by decide

theorem isIdent_probeLibrary : isIdent "ieee".toList = true := by decide

/-- A header, a library clause, an entity with a port whose comment looks like code, its
architecture and a package. -/
def probe : DesignFile :=
  let e : Ident := ⟨['e'], isIdent_probeEntity⟩
  let q : Ident := ⟨['q'], isIdent_probePort⟩
  { header := [⟨" end entity;".toList⟩]
    context := [.library ⟨"ieee".toList, isIdent_probeLibrary⟩]
    packages := [⟨q, []⟩]
    packageBodies := []
    entities := [⟨e, none, some ⟨[⟨q, .output, .builtin (.scalar .bit), none, some ⟨" );".toList⟩⟩]⟩⟩]
    architectures := [⟨⟨['a'], isIdent_probeArchitecture⟩, e, ⟨[]⟩, .region []⟩] }

theorem any_read_probe : PartsReadBack Limits.depth probe
    ∧ (DesignFile.read Limits.depth probe.text).any (·.same probe) = true := by
  have hparts : PartsReadBack Limits.depth probe :=
    ⟨by decide, by decide, by decide, by decide, by decide,
      by decide⟩
  exact ⟨hparts, any_read_text hparts (by decide +kernel)⟩

end DesignFile
end CanonicalVhdl
