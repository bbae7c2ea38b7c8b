import CanonicalVhdl.Proofs.Concurrent.Assignment

/-!
# Instances that read back

The associations of a map stand on lines of their own between parentheses, with a comma
after each but the last.  Wherever the instance stands, its maps are words and groups, so
the reader finds the words `generic` and `port` outside parentheses, and what it cuts out
between them are the texts that were printed.

## Main definitions

* `Instance.mapTokens keyword k associations` — a map inside `k` steps of indentation.
* `Instance.bodyTokens k i` — an instance without its label and its semicolon.

## Main statements

* `Association.Readable.reads` — an association is read from its text.
* `InstanceSource.read_text` — what an instance is made from is read from its text.
* `Instance.splitMap?_mapTokens` — a map is read from its text.
* `Instance.exists_starts` — where the maps of an instance are found.
* `Instance.read_shift` — an instance is read from its text.
-/

namespace CanonicalVhdl

open Text Token

variable {room : Nat}

/-! ## Associations -/

/-- The tokens of what a formal is associated with. -/
def Actual.tokens : Actual → List Token
  | value e => e.tokens
  | unconnected => [word "open".toList]

theorem Actual.render_tokens (a : Actual) : render a.tokens = a.text := by
  cases a with
  | value e => exact e.render_tokens
  | unconnected => rfl

/-- What stands in an association outside parentheses. -/
theorem Actual.Readable.isPhrase_lacks {a : Actual} (h : a.Readable room) :
    IsPhrase a.tokens ∧ Lacks "=>".toList a.tokens ∧ Lacks [','] a.tokens := by
  cases a with
  | value e =>
    have he : e.ReadsBack room := h
    exact ⟨he.isPhrase, lacks_of_isCalm (by decide) he.isCalm, lacks_of_isCalm (by decide) he.isCalm⟩
  | unconnected => exact ⟨isPhrase_word (by decide), by decide, by decide⟩

theorem Actual.Readable.solid {a : Actual} (h : a.Readable room) : Solid a.text := by
  cases a with
  | value e => exact Expr.ReadsBack.solid h
  | unconnected => exact (show IsRun "open".toList by decide).solid

namespace Association

/-- The tokens of an association. -/
def tokens (a : Association) : List Token :=
  match a.formal with
  | none => a.actual.tokens
  | some formal => formal.tokens ++ (spaced "=>".toList ++ a.actual.tokens)

theorem render_tokens (a : Association) : render a.tokens = a.text := by
  obtain ⟨formal, actual⟩ := a
  cases formal with
  | none => exact actual.render_tokens
  | some r =>
    have harrow : " => ".toList = ' ' :: ("=>".toList ++ [' ']) := rfl
    simp [tokens, text, harrow, r.render_tokens, actual.render_tokens]

variable {a : Association}

theorem Readable.isPhrase (h : a.Readable room) : IsPhrase a.tokens := by
  obtain ⟨formal, actual⟩ := a
  cases formal with
  | none => exact h.actual.isPhrase_lacks.1
  | some r => exact (h.formal r rfl).isPhrase.spaced h.actual.isPhrase_lacks.1 (by decide)

/-- Outside the parentheses of an association no comma stands. -/
theorem Readable.lacks_comma (h : a.Readable room) : Lacks [','] a.tokens := by
  obtain ⟨formal, actual⟩ := a
  cases formal with
  | none => exact h.actual.isPhrase_lacks.2.2
  | some r =>
    exact lacks_append.2 ⟨lacks_of_isCalm (by decide) (h.formal r rfl).isCalm,
      lacks_append.2 ⟨by decide, h.actual.isPhrase_lacks.2.2⟩⟩

/-- The reader of an actual tells a value from the word `open`. -/
theorem readActual {actual : Actual} (h : actual.Readable room) (formal : Option Reference) :
    (if sameWord actual.text "open".toList then some (⟨formal, .unconnected⟩ : Association)
      else (Expr.read room actual.text).bind fun value => some ⟨formal, .value value⟩)
        = some ⟨formal, actual⟩ := by
  cases actual with
  | value e =>
    have he : e.ReadsBack room := h
    have hopen := sameWord_eq_false_of_lacks (w := "open".toList) (by decide) he.isPhrase
      (lacks_of_isCalm (isForeign_words _ (by decide)) he.isCalm)
    rw [e.render_tokens] at hopen
    rw [Actual.text, hopen, he.read_text]
    rfl
  | unconnected => rfl

/-- **An association is read from its text**, whatever the padding around it. -/
theorem Readable.reads (h : a.Readable room) : Reads (Association.read room) a.text a := by
  intro g g' hg hg'
  have htrim := h.isInertText_solid.2.trim_pad hg hg'
  obtain ⟨formal, actual⟩ := a
  have hactual := readActual h.actual
  obtain ⟨hphrase, harrow, -⟩ := h.actual.isPhrase_lacks
  cases formal with
  | none =>
    have hcut := cutOuter?_eq_none (.inr (by decide)) (hphrase none none rfl rfl) harrow
    rw [actual.render_tokens] at hcut
    have htext : (⟨none, actual⟩ : Association).text = actual.text := rfl
    rw [Association.read, htrim, htext, hcut]
    exact hactual none
  | some r =>
    have hr := h.formal r rfl
    have hcut := cutOuter?_spaced (s := "=>".toList) (.inr (by decide)) (by decide) hr.isPhrase
      (lacks_of_isCalm (by decide) hr.isCalm) actual.text
    have hread := hr.reads [] [' '] isPad_nil isPad_blank
    have hpad := h.actual.solid.trim_pad isPad_blank isPad_nil
    have htext : (⟨some r, actual⟩ : Association).text
        = r.text ++ ' ' :: ("=>".toList ++ ' ' :: actual.text) := by
      have harrow : " => ".toList = ' ' :: ("=>".toList ++ [' ']) := rfl
      simp [text, harrow]
    rw [r.render_tokens] at hcut
    rw [List.nil_append] at hread
    rw [List.append_nil, List.singleton_append] at hpad
    rw [Association.read, htrim, htext, hcut]
    simp only [hread, hpad, Option.bind_eq_bind, Option.bind_some]
    exact hactual (some r)

end Association

/-! ## What an instance is made from -/

namespace InstanceSource

/-- The tokens of what an instance is made from. -/
def tokens : InstanceSource → List Token
  | component name => [word "component".toList, mark ' ', word name.text]
  | entity library name architecture =>
    [word "entity".toList, mark ' ', word library.text, mark '.', word name.text]
      ++ architecture.toList.map fun a => group [word a.text]

theorem text_component (name : Ident) :
    (component name).text = "component".toList ++ ' ' :: name.text := by
  have hword : "component ".toList = "component".toList ++ [' '] := rfl
  have htext : (component name).text = "component ".toList ++ name.text := rfl
  rw [htext, hword, List.append_assoc, List.singleton_append]

theorem text_entity (library name : Ident) (architecture : Option Ident) :
    (entity library name architecture).text = "entity".toList ++ ' ' :: (library.text ++ '.' ::
      (name.text ++ architecture.elim [] fun a => '(' :: (a.text ++ [')']))) := by
  have hword : "entity ".toList = "entity".toList ++ [' '] := rfl
  have htext : (entity library name architecture).text = "entity ".toList ++ library.text ++ '.' ::
    (name.text ++ architecture.elim [] fun a => '(' :: (a.text ++ [')'])) := rfl
  rw [htext, hword]
  simp only [List.append_assoc, List.cons_append, List.nil_append]

theorem render_tokens (source : InstanceSource) : render source.tokens = source.text := by
  cases source with
  | component name =>
    rw [text_component]
    simp only [tokens, render_cons, render_nil, text_word, text_mark, List.cons_append,
      List.nil_append, List.append_nil]
  | entity library name architecture =>
    rw [text_entity, tokens, render_append]
    cases architecture <;> simp only [Option.toList, Option.elim, List.map_cons, List.map_nil,
      render_cons, render_nil, text_word, text_mark, text_group, List.append_assoc, List.cons_append,
      List.nil_append, List.append_nil]

theorem isPhrase_tokens (source : InstanceSource) : IsPhrase source.tokens := by
  cases source with
  | component name => exact (isPhrase_word name.isName).prefixed (by decide)
  | entity library name architecture =>
    have hselected := (isPhrase_selected library.isName name.isName (.inl rfl)).prefixed
      (w := "entity".toList) (by decide)
    cases architecture with
    | none => exact hselected
    | some a =>
      intro before next hb _
      refine fitAll_append.2 ⟨?_, isPhrase_word a.isName _ _ rfl rfl, trivial⟩
      exact hselected before (some '(') hb rfl

/-- No word of a map stands in it. -/
theorem lacks_tokens (source : InstanceSource) {w : Text}
    (hw : w = "generic".toList ∨ w = "port".toList) : Lacks w source.tokens := by
  have hstatement : w ∈ statementWords := by rcases hw with rfl | rfl <;> decide
  have hname : ∀ i : Ident, (word i.text).spells w = false := fun i =>
    i.lacks_word hstatement _ (List.mem_singleton_self _)
  have hword : ∀ v ∈ ["component".toList, "entity".toList], (word v).spells w = false := by
    rcases hw with rfl | rfl <;> decide
  have hmark : ∀ c ∈ [' ', '.'], (mark c).spells w = false := by
    rcases hw with rfl | rfl <;> decide
  cases source with
  | component name =>
    exact List.forall_mem_cons.2 ⟨hword _ (by decide), List.forall_mem_cons.2
      ⟨hmark _ (by decide), List.forall_mem_singleton.2 (hname name)⟩⟩
  | entity library name architecture =>
    refine lacks_append.2 ⟨?_, ?_⟩
    · exact List.forall_mem_cons.2 ⟨hword _ (by decide), List.forall_mem_cons.2
        ⟨hmark _ (by decide), List.forall_mem_cons.2 ⟨hname library, List.forall_mem_cons.2
          ⟨hmark _ (by decide), List.forall_mem_singleton.2 (hname name)⟩⟩⟩⟩
    · exact List.forall_mem_map.2 fun a _ => rfl

theorem solid_text (source : InstanceSource) : Solid source.text := by
  cases source with
  | component name =>
    have hcomponent : Solid "component".toList := (show IsRun "component".toList by decide).solid
    rw [text_component]
    exact hcomponent.between name.isRun.solid [' ']
  | entity library name architecture =>
    have hentity : Solid "entity".toList := (show IsRun "entity".toList by decide).solid
    rw [text_entity]
    generalize "entity".toList = w at hentity
    cases architecture with
    | none =>
      have := hentity.between name.isRun.solid (' ' :: (library.text ++ ['.']))
      simpa using this
    | some a =>
      have := hentity.between (solid_singleton (by decide : isBlank ')' = false))
        (' ' :: (library.text ++ '.' :: (name.text ++ '(' :: a.text)))
      simpa using this

/-- The text starts with a word that starts no other concurrent statement. -/
theorem exists_firstWord (source : InstanceSource) : ∃ w x, source.text = w ++ ' ' :: x ∧ IsRun w
    ∧ sameWord "process".toList w = false ∧ sameWord "for".toList w = false := by
  cases source with
  | component name => exact ⟨_, _, text_component name, by decide, by decide, by decide⟩
  | entity library name architecture =>
    exact ⟨_, _, text_entity library name architecture, by decide, by decide, by decide⟩

/-- The architecture of an entity is split off at its parenthesis. -/
theorem splitArchitecture?_text (library name : Ident) (architecture : Option Ident) :
    splitArchitecture? (library.text ++ '.' :: (name.text
        ++ architecture.elim [] fun a => '(' :: (a.text ++ [')'])))
      = some (library.text ++ '.' :: name.text, architecture) := by
  have hselected : '(' ∉ library.text ++ '.' :: name.text := by
    rw [List.mem_append, List.mem_cons, not_or, not_or]
    exact ⟨library.isRun.not_mem (by decide), by decide, name.isRun.not_mem (by decide)⟩
  cases architecture with
  | none => rw [Option.elim, List.append_nil, splitArchitecture?, splitOnce_eq_none hselected]
  | some a =>
    have hsplit : library.text ++ '.' :: (name.text ++ '(' :: (a.text ++ [')']))
        = (library.text ++ '.' :: name.text) ++ '(' :: (a.text ++ [')']) := by simp
    have hend : trimEnd (a.text ++ [')']) = a.text ++ [')'] := by
      refine trimEnd_eq_self ?_
      rw [List.getLast?_concat]
      decide
    rw [Option.elim, hsplit, splitArchitecture?, splitOnce_append hselected]
    simp only [hend, dropFinal?_append, trim_eq_self a.isRun.trimmed, a.ofText?_text,
      Option.bind_eq_bind, Option.bind_some]

/-- **What an instance is made from is read from its text**, whatever padding follows. -/
theorem read_text (source : InstanceSource) {g : Text} (hg : IsPad g) :
    InstanceSource.read (source.text ++ g) = some source := by
  have htrim := source.solid_text.trim_pad isPad_nil hg
  rw [List.nil_append] at htrim
  rw [InstanceSource.read, htrim]
  have hentity : IsRun "entity".toList := by decide
  have hcomponent : IsRun "component".toList := by decide
  cases source with
  | component name =>
    have hnone := afterWord?_run (g := []) (u := ' ' :: name.text) rfl hentity hcomponent rfl
    have hname := afterWord?_blank hcomponent name.isRun.trimmed.head
    rw [List.nil_append, if_neg (by decide)] at hnone
    rw [text_component, hnone]
    simp only [hname, Option.getD_some, name.ofText?_text, Option.map_some]
  | entity library name architecture =>
    have hhead : (library.text ++ '.' :: (name.text
        ++ architecture.elim [] fun a => '(' :: (a.text ++ [')']))).head?.any isBlank = false := by
      rw [List.head?_append_of_ne_nil _ library.isRun.ne_nil]
      exact library.isRun.trimmed.head
    have hafter := afterWord?_blank hentity hhead
    have hselected := splitOnce_append (library.isRun.not_mem (by decide : isIdentChar '.' = false))
      name.text
    rw [text_entity, hafter]
    simp only [splitArchitecture?_text, hselected, trim_eq_self library.isRun.trimmed,
      trim_eq_self name.isRun.trimmed, library.ofText?_text, name.ofText?_text, Option.bind_eq_bind,
      Option.bind_some]

end InstanceSource

/-! ## Lists with commas -/

namespace Token

/-- Sequences one after the other, with a comma between them. -/
def commas : List (List Token) → List Token
  | [] => []
  | ts :: rest => ts ++ rest.flatMap (mark ',' :: ·)

theorem commas_cons_cons (ts us : List Token) (rest : List (List Token)) :
    commas (ts :: us :: rest) = ts ++ mark ',' :: commas (us :: rest) := by
  simp [commas]

theorem commas_eq_marked (pieces : List (List Token)) : commas pieces = marked ',' pieces := by
  cases pieces <;> rfl

theorem isPhrase_commas {pieces : List (List Token)} (h : ∀ ts ∈ pieces, IsPhrase ts) :
    IsPhrase (commas pieces) := by
  rw [commas_eq_marked]
  exact isPhrase_marked (.inl rfl) h

/-- Sequences without a comma are cut apart at the commas between them. -/
theorem splitOuter_commas {pieces : List (List Token)} (hne : pieces ≠ [])
    (hphrase : ∀ ts ∈ pieces, IsPhrase ts) (hlacks : ∀ ts ∈ pieces, Lacks [','] ts) :
    splitOuter ',' (render (commas pieces)) = pieces.map render := by
  rw [commas_eq_marked]
  exact splitOuter_marked (.inl rfl) hne hphrase hlacks

end Token

/-! ## Maps -/

namespace Instance

/-- The associations of a map inside `k` steps of indentation, each on a line of its own. -/
def entryTokens (k : Nat) : List Association → List (List Token)
  | [] => []
  | [a] => [pad (lineBreak (k + 2)) ++ (a.tokens ++ pad (lineBreak (k + 1)))]
  | a :: as => (pad (lineBreak (k + 2)) ++ (a.tokens ++ pad [])) :: entryTokens k as

/-- The tokens of a map inside `k` steps of indentation. -/
def mapTokens (keyword : Text) (k : Nat) (associations : List Association) : List Token :=
  [word keyword, mark ' ', word "map".toList, mark ' ', group (commas (entryTokens k associations))]

variable {k : Nat} {associations : List Association}

theorem entryTokens_cons_cons (k : Nat) (a b : Association) (as : List Association) :
    entryTokens k (a :: b :: as)
      = (pad (lineBreak (k + 2)) ++ (a.tokens ++ pad [])) :: entryTokens k (b :: as) := rfl

theorem entryTokens_ne_nil (hne : associations ≠ []) : entryTokens k associations ≠ [] := by
  match associations with
  | [] => exact absurd rfl hne
  | [_] | _ :: _ :: _ => exact List.cons_ne_nil _ _

/-- Whether tokens are those of an association with padding around it. -/
def IsEntry (ts : List Token) (a : Association) : Prop :=
  ∃ g g', IsPad g ∧ IsPad g' ∧ ts = pad g ++ (a.tokens ++ pad g')

theorem forall₂_entryTokens (k : Nat) (associations : List Association) :
    List.Forall₂ IsEntry (entryTokens k associations) associations := by
  induction associations with
  | nil => exact .nil
  | cons a as ih =>
    cases as with
    | nil => exact .cons ⟨_, _, isPad_lineBreak _, isPad_lineBreak _, rfl⟩ .nil
    | cons b as => exact .cons ⟨_, _, isPad_lineBreak _, isPad_nil, rfl⟩ ih

section Readable

variable (h : ∀ a ∈ associations, a.Readable room)
include h

/-- The entries of a map keep apart from their surroundings, and no comma stands in them
outside parentheses. -/
theorem isPhrase_lacks_entryTokens :
    ∀ ts ∈ entryTokens k associations, IsPhrase ts ∧ Lacks [','] ts := by
  have hall := forall₂_entryTokens k associations
  generalize entryTokens k associations = entries at hall
  induction hall with
  | nil => exact fun _ hts => absurd hts List.not_mem_nil
  | @cons ts a entries associations hentry _ ih =>
    obtain ⟨ha, has⟩ := List.forall_mem_cons.1 h
    obtain ⟨g, g', hg, hg', rfl⟩ := hentry
    refine List.forall_mem_cons.2 ⟨⟨ha.isPhrase.pad hg hg', ?_⟩, ih has⟩
    exact lacks_append.2 ⟨lacks_pad (by decide) hg,
      lacks_append.2 ⟨ha.lacks_comma, lacks_pad (by decide) hg'⟩⟩

theorem isPhrase_commas_entryTokens : IsPhrase (commas (entryTokens k associations)) :=
  isPhrase_commas fun ts hts => (isPhrase_lacks_entryTokens h ts hts).1

/-- The entries of a map are cut apart and read. -/
theorem mapM_entries (hne : associations ≠ []) :
    (splitOuter ',' (render (commas (entryTokens k associations)))).mapM (Association.read room)
      = some associations := by
  rw [splitOuter_commas (entryTokens_ne_nil hne)
    (fun ts hts => (isPhrase_lacks_entryTokens h ts hts).1)
    fun ts hts => (isPhrase_lacks_entryTokens h ts hts).2]
  refine mapM_of_forall₂ ?_
  rw [List.forall₂_map_left_iff]
  have hmem := (List.forall₂_and_left _ _).2
    ⟨fun a (ha : a ∈ associations) => ha, (forall₂_entryTokens k associations).flip⟩
  refine hmem.flip.imp ?_
  rintro ts a ⟨ha, g, g', hg, hg', rfl⟩
  rw [render_append, render_append, render_pad, render_pad, a.render_tokens]
  exact (h a ha).reads g g' hg hg'

/-- **A map is read from its text**, whatever follows it. -/
theorem splitMap?_mapTokens {keyword : Text} (hkeyword : IsName keyword) (hne : associations ≠ [])
    (u : Text) :
    splitMap? room keyword (render (mapTokens keyword k associations) ++ u)
      = some (associations, trimStart u) := by
  have hmap : IsRun "map".toList := by decide
  have hgroup : ((group (commas (entryTokens k associations))).text ++ u).head?.any isBlank = false :=
    rfl
  have hparens := @parenthesised?_group (commas (entryTokens k associations)) u
    (isPhrase_commas_entryTokens h _ _ rfl rfl)
  have hsecond := afterWord?_blank hmap hgroup
  have hfirst := @afterWord?_blank keyword ("map".toList ++ ' ' ::
    ((group (commas (entryTokens k associations))).text ++ u)) hkeyword.isRun rfl
  have hsplit : render (mapTokens keyword k associations) ++ u = keyword ++ ' ' :: ("map".toList
      ++ ' ' :: ((group (commas (entryTokens k associations))).text ++ u)) := by
    simp only [mapTokens, render_cons, render_nil, text_word, text_mark, List.append_assoc,
      List.cons_append, List.nil_append, List.append_nil]
  have hwords : afterWords? [keyword, "map".toList] (render (mapTokens keyword k associations) ++ u)
      = some ((group (commas (entryTokens k associations))).text ++ u) := by
    rw [hsplit, afterWords?, List.foldlM_cons, hfirst, Option.bind_eq_bind, Option.bind_some,
      List.foldlM_cons, hsecond, Option.bind_eq_bind, Option.bind_some, List.foldlM_nil]
    rfl
  simp only [splitMap?, hwords, hparens, mapM_entries h hne, Option.bind_eq_bind, Option.bind_some]

end Readable

/-- The words of a map. -/
def mapWords : List Text := ["generic".toList, "port".toList]

/-- A text that starts with another word is no map. -/
theorem splitMap?_eq_none {keyword : Text} (hkeyword : keyword ∈ mapWords) {t : Text}
    (ht : t = [] ∨ ∃ w u, IsRun w ∧ sameWord keyword w = false ∧ t = w ++ ' ' :: u) :
    splitMap? room keyword t = none := by
  have hrun : IsRun keyword := by
    have key : ∀ w ∈ mapWords, IsRun w := by decide
    exact key keyword hkeyword
  have hnone : afterWord? keyword t = none := by
    obtain rfl | ⟨w, u, hw, hsame, rfl⟩ := ht
    · have key : ∀ w ∈ mapWords, afterWord? w [] = none := by decide
      exact key keyword hkeyword
    · have := afterWord?_run (g := []) (u := ' ' :: u) rfl hrun hw rfl
      rwa [List.nil_append, if_neg (by rw [hsame]; decide)] at this
  rw [splitMap?, afterWords?, List.foldlM_cons, hnone]
  rfl

/-! ## The text of an instance -/

/-- A map on a line of its own inside `k` steps of indentation; an empty one is left out. -/
def partTokens (keyword : Text) (k : Nat) (associations : List Association) : List Token :=
  if associations.isEmpty then [] else pad (lineBreak (k + 1)) ++ mapTokens keyword k associations

/-- An instance without its label and its semicolon. -/
def bodyTokens (k : Nat) (i : Instance) : List Token :=
  i.source.tokens ++ (partTokens "generic".toList k i.generics ++ partTokens "port".toList k i.ports)

theorem partTokens_nil (keyword : Text) (k : Nat) : partTokens keyword k [] = [] := rfl

theorem partTokens_of_ne_nil (keyword : Text) (k : Nat) (hne : associations ≠ []) :
    partTokens keyword k associations = pad (lineBreak (k + 1)) ++ mapTokens keyword k associations := by
  have hempty : associations.isEmpty = false := by simpa using hne
  rw [partTokens, hempty]
  rfl

/-- The associations of a map, moved to the right. -/
theorem shift_entries (k : Nat) (h : ∀ a ∈ associations, '\n' ∉ a.text) (hne : associations ≠ []) :
    shift k ('\n' :: join ",\n".toList (associations.map fun a => indentStep ++ indentStep ++ a.text))
        ++ lineBreak (k + 1)
      = render (commas (entryTokens k associations)) := by
  have hline : ∀ (a : Association) (u : Text), '\n' ∉ a.text →
      shift k ('\n' :: (indentStep ++ indentStep ++ a.text ++ u))
        = lineBreak (k + 2) ++ (a.text ++ shift k u) := by
    intro a u ha
    have hsplit : '\n' :: (indentStep ++ indentStep ++ a.text ++ u)
        = lineBreak 2 ++ (a.text ++ u) := by
      rw [List.append_assoc]
      rfl
    rw [hsplit, shift_append, shift_append, shift_lineBreak, shift_of_not_mem ha]
  induction associations with
  | nil => exact absurd rfl hne
  | cons a as ih =>
    obtain ⟨ha, has⟩ := List.forall_mem_cons.1 h
    cases as with
    | nil =>
      have hlast := hline a [] ha
      have hentries : commas (entryTokens k [a])
          = pad (lineBreak (k + 2)) ++ (a.tokens ++ pad (lineBreak (k + 1))) := by
        simp [commas, entryTokens]
      rw [List.append_nil, shift_nil, List.append_nil] at hlast
      rw [List.map_singleton, join, List.intercalate_singleton, hlast, hentries, render_append,
        render_append, render_pad, render_pad, a.render_tokens, List.append_assoc]
    | cons b as =>
      have hrest := ih has (List.cons_ne_nil b as)
      have hcomma : ",\n".toList = [','] ++ ['\n'] := rfl
      have hjoin : ∀ (x : Text) (xs : List Text), xs ≠ [] →
          join ",\n".toList (x :: xs) = x ++ (',' :: '\n' :: join ",\n".toList xs) := by
        intro x xs hxs
        obtain ⟨y, ys, rfl⟩ := List.exists_cons_of_ne_nil hxs
        rw [join, List.intercalate_cons_cons, hcomma, join]
        simp
      have hfirst := hline a (',' :: '\n' :: join ",\n".toList
        ((b :: as).map fun a => indentStep ++ indentStep ++ a.text)) ha
      have hshift : ∀ u, shift k (',' :: u) = ',' :: shift k u := fun u => rfl
      obtain ⟨ts, rest, hentries⟩ := List.exists_cons_of_ne_nil
        (entryTokens_ne_nil (k := k) (List.cons_ne_nil b as))
      rw [hshift] at hfirst
      rw [hentries] at hrest
      rw [List.map_cons, hjoin _ _ (by simp), hfirst, entryTokens_cons_cons, hentries,
        commas_cons_cons, render_append, render_append, render_append, render_pad, render_cons,
        text_mark, a.render_tokens, ← hrest]
      simp [pad]

/-- A map, moved to the right. -/
theorem shift_mapText {keyword : Text} (hkeyword : '\n' ∉ keyword) (k : Nat)
    (h : ∀ a ∈ associations, '\n' ∉ a.text) :
    shift k (mapText keyword associations) = render (partTokens keyword k associations) := by
  by_cases hne : associations = []
  · rw [hne]
    rfl
  · have hempty : associations.isEmpty = false := by simpa using hne
    have hmap : " map (\n".toList = " map (".toList ++ ['\n'] := rfl
    have htext : mapText keyword associations = lineBreak 1 ++ (keyword ++ (" map (".toList
        ++ (('\n' :: join ",\n".toList (associations.map fun a => indentStep ++ indentStep ++ a.text))
          ++ (lineBreak 1 ++ [')'])))) := by
      have hbreak : lineBreak 1 = '\n' :: indentStep := rfl
      rw [mapText, hempty, hmap, hbreak]
      simp only [Bool.false_eq_true, if_false, List.append_assoc, List.cons_append, List.nil_append]
    have hopen : shift k " map (".toList = " map (".toList := shift_of_not_mem (by decide) k
    have hclose : shift k [')'] = [')'] := shift_of_not_mem (by decide) k
    have hwords : " map (".toList = ' ' :: ("map".toList ++ [' ', '(']) := rfl
    rw [htext, partTokens_of_ne_nil keyword k hne, shift_append, shift_append, shift_append,
      shift_append, shift_append k (lineBreak 1), shift_lineBreak, shift_of_not_mem hkeyword, hopen, hclose,
      ← List.append_assoc (shift k ('\n' :: _)), shift_entries k h hne, hwords, mapTokens]
    simp only [render_append, render_pad, render_cons, render_nil, text_word, text_mark, text_group,
      List.append_assoc, List.cons_append, List.nil_append, List.append_nil]

variable {i : Instance}

/-- An instance, moved to the right. -/
theorem shift_text (h : i.Readable room) (k : Nat) :
    shift k i.text = i.label.text ++ ':' :: ' ' :: (render (bodyTokens k i) ++ [';']) := by
  have hlines : ∀ associations : List Association, (∀ a ∈ associations, a.Readable room) →
      ∀ a ∈ associations, '\n' ∉ a.text := fun _ hall a ha =>
    (hall a ha).isInertText_solid.1.newline_not_mem
  have hsource : '\n' ∉ i.source.text := by
    obtain ⟨w, x, hsource, hw, hx, -⟩ := exists_source i.source
    rw [hsource, List.mem_append, List.mem_cons, not_or, not_or]
    exact ⟨hw.isRun.newline_not_mem, by decide, hx.newline_not_mem⟩
  have hhead : shift k i.head = i.head := by
    refine shift_of_not_mem ?_ k
    rw [head]
    simp only [List.mem_append, List.mem_cons, not_or]
    exact ⟨i.label.isRun.newline_not_mem, by decide, by decide, hsource⟩
  have hsemicolon : shift k [';'] = [';'] := shift_of_not_mem (by decide) k
  rw [text_eq, shift_append, shift_append, shift_append, hhead, hsemicolon,
    shift_mapText (by decide) k (hlines _ h.generics), shift_mapText (by decide) k (hlines _ h.ports),
    head, bodyTokens, render_append, render_append, i.source.render_tokens]
  simp only [List.append_assoc, List.cons_append]

/-! ## Reading an instance -/

/-- A map on a line of its own keeps apart from what precedes it. -/
theorem fitAll_partTokens (h : ∀ a ∈ associations, a.Readable room) {keyword : Text}
    (hkeyword : keyword ∈ mapWords) {before next : Option Char} :
    FitAll before (partTokens keyword k associations) next := by
  have hname : ∀ w ∈ mapWords, IsName w := by decide
  have hmap : IsName "map".toList := by decide
  rw [partTokens]
  split
  · trivial
  · refine fitAll_append.2 ⟨(isPad_lineBreak _).fitAll, ?_⟩
    rw [render_pad]
    have hopens := opens_lineBreak (k + 1) before
    exact ⟨(hname keyword hkeyword).fits hopens.ident rfl, fits_blank, hmap.fits rfl rfl, fits_blank,
      isPhrase_commas_entryTokens h _ _ rfl rfl, trivial⟩

theorem closes_partTokens (keyword : Text) (k : Nat) (associations : List Association)
    {next : Option Char} (hnext : Closes next) :
    Closes (firstOr (partTokens keyword k associations) next) := by
  rw [partTokens]
  split
  · exact hnext
  · rfl

theorem isPhrase_bodyTokens (h : i.Readable room) (k : Nat) : IsPhrase (bodyTokens k i) := by
  intro before next hb hn
  have hparts : FitAll (lastOr before (render i.source.tokens))
      (partTokens "generic".toList k i.generics ++ partTokens "port".toList k i.ports) next :=
    fitAll_append.2 ⟨fitAll_partTokens h.generics (by decide), fitAll_partTokens h.ports (by decide)⟩
  refine fitAll_append.2 ⟨i.source.isPhrase_tokens _ _ hb ?_, hparts⟩
  have hclose := closes_partTokens "generic".toList k i.generics
    (closes_partTokens "port".toList k i.ports hn)
  rw [firstOr] at hclose ⊢
  rw [render_append, List.head?_append, Option.or_assoc]
  exact hclose

/-- The words of one map stand in no other part of an instance. -/
theorem lacks_partTokens {keyword w : Text} (hkeyword : keyword ∈ mapWords) (hw : w ∈ mapWords)
    (hne : keyword ≠ w) : Lacks w (partTokens keyword k associations) := by
  have hforeign : ∀ w ∈ mapWords, isForeign w = true := by decide
  have hspells : ∀ w ∈ mapWords, (∀ v ∈ mapWords, v ≠ w → (word v).spells w = false)
      ∧ (word "map".toList).spells w = false ∧ (mark ' ').spells w = false := by decide
  obtain ⟨hwords, hmap, hblank⟩ := hspells w hw
  rw [partTokens]
  split
  · exact fun _ ht => absurd ht List.not_mem_nil
  · refine lacks_append.2 ⟨lacks_pad (hforeign w hw) (isPad_lineBreak _), ?_⟩
    exact List.forall_mem_cons.2 ⟨hwords keyword hkeyword hne, List.forall_mem_cons.2 ⟨hblank,
      List.forall_mem_cons.2 ⟨hmap, List.forall_mem_cons.2 ⟨hblank, List.forall_mem_singleton.2 rfl⟩⟩⟩⟩

/-- The word of a map is found once, in front of the map, if there is a map. -/
theorem outerMatches_part {keyword : Text} (hkeyword : keyword ∈ mapWords) {ts us : List Token}
    (hfit : FitAll none (ts ++ (partTokens keyword k associations ++ us)) none)
    (hts : Lacks keyword ts) (hus : Lacks keyword us) :
    outerMatches keyword (render (ts ++ (partTokens keyword k associations ++ us)))
      = if associations.isEmpty then [] else [(render ts ++ lineBreak (k + 1)).length] := by
  have hname : ∀ w ∈ mapWords, IsName w ∧ isForeign w = true := by decide
  have hspells : ∀ w ∈ mapWords, (word w).spells w = true ∧ (word "map".toList).spells w = false
      ∧ (mark ' ').spells w = false := by decide
  obtain ⟨hword, hmap, hblank⟩ := hspells keyword hkeyword
  have hpattern := isPattern_word (hname keyword hkeyword).1
  by_cases hnil : associations = []
  · rw [hnil, partTokens_nil, List.nil_append] at hfit ⊢
    exact outerMatches_eq_nil hpattern hfit (lacks_append.2 ⟨hts, hus⟩)
  · have hempty : associations.isEmpty = false := by simpa using hnil
    have hsplit : ts ++ (partTokens keyword k associations ++ us)
        = (ts ++ pad (lineBreak (k + 1))) ++ word keyword :: ([mark ' ', word "map".toList, mark ' ',
          group (commas (entryTokens k associations))] ++ us) := by
      rw [partTokens_of_ne_nil keyword k hnil, mapTokens]
      simp
    have hrest : Lacks keyword ([mark ' ', word "map".toList, mark ' ',
        group (commas (entryTokens k associations))] ++ us) :=
      lacks_append.2 ⟨List.forall_mem_cons.2 ⟨hblank, List.forall_mem_cons.2 ⟨hmap,
        List.forall_mem_cons.2 ⟨hblank, List.forall_mem_singleton.2 rfl⟩⟩⟩, hus⟩
    have hbefore := lacks_append.2 ⟨hts, lacks_pad (hname keyword hkeyword).2 (isPad_lineBreak (k + 1))⟩
    rw [hsplit] at hfit ⊢
    rw [outerMatches_eq_singleton hpattern hfit hbefore hword hrest, hempty, render_append, render_pad]
    rfl

/-- A map on a line of its own starts with its word. -/
theorem trimStart_part (hne : associations ≠ []) (keyword : Text) (hkeyword : keyword ∈ mapWords)
    (k : Nat) (u : Text) :
    trimStart (render (partTokens keyword k associations) ++ u)
      = render (mapTokens keyword k associations) ++ u := by
  have hname : ∀ w ∈ mapWords, IsRun w := by decide
  have hrun := hname keyword hkeyword
  have hhead : (render (mapTokens keyword k associations) ++ u).head?.any isBlank = false := by
    rw [mapTokens, render_cons, text_word, List.append_assoc, List.head?_append_of_ne_nil _ hrun.ne_nil]
    exact hrun.trimmed.head
  rw [partTokens_of_ne_nil keyword k hne, render_append, render_pad, List.append_assoc,
    trimStart_append (isPad_lineBreak (k + 1)).all_isBlank, trimStart_eq_self hhead]

/-- A map is read where there is one, if what follows is no map of the same kind. -/
theorem getD_splitMap? (h : ∀ a ∈ associations, a.Readable room) (keyword : Text)
    (hkeyword : keyword ∈ mapWords) (k : Nat) {u : Text}
    (hu : splitMap? room keyword (trimStart u) = none) :
    (splitMap? room keyword (trimStart (render (partTokens keyword k associations) ++ u))).getD
        ([], trimStart (render (partTokens keyword k associations) ++ u))
      = (associations, trimStart u) := by
  have hname : ∀ w ∈ mapWords, IsName w := by decide
  by_cases hnil : associations = []
  · rw [hnil, partTokens_nil, render_nil, List.nil_append, hu, Option.getD_none]
  · rw [trimStart_part hnil keyword hkeyword, splitMap?_mapTokens h (hname keyword hkeyword) hnil,
      Option.getD_some]

/-- The port map is no generic map. -/
theorem splitMap?_generic_port (k : Nat) (associations : List Association) :
    splitMap? room "generic".toList (trimStart (render (partTokens "port".toList k associations)))
      = none := by
  refine splitMap?_eq_none (by decide) ?_
  by_cases hnil : associations = []
  · rw [hnil]
    exact .inl rfl
  · have htrim := trimStart_part hnil "port".toList (by decide) k []
    rw [List.append_nil, List.append_nil] at htrim
    rw [htrim]
    refine .inr ⟨"port".toList, render [word "map".toList, mark ' ',
      group (commas (entryTokens k associations))], by decide, by decide, ?_⟩
    rw [mapTokens, render_cons, render_cons]
    rfl

/-- The first map starts behind the source and a line break, if there is a map. -/
theorem exists_starts (h : i.Readable room) (k : Nat) : ∃ g, IsPad g ∧
    render (bodyTokens k i) = i.source.text ++ g ++ trimStart (render (partTokens "generic".toList k
      i.generics) ++ render (partTokens "port".toList k i.ports)) ∧
    (outerMatches "generic".toList (render (bodyTokens k i))
      ++ outerMatches "port".toList (render (bodyTokens k i))).min?.getD
        (render (bodyTokens k i)).length = (i.source.text ++ g).length := by
  have hfit : FitAll none (bodyTokens k i) none := isPhrase_bodyTokens h k none none rfl rfl
  have hgeneric := outerMatches_part (by decide) hfit (i.source.lacks_tokens (.inl rfl))
    (lacks_partTokens (by decide) (by decide) (by decide))
  have hsplit : bodyTokens k i = (i.source.tokens ++ partTokens "generic".toList k i.generics)
      ++ (partTokens "port".toList k i.ports ++ []) := by
    rw [bodyTokens, List.append_nil, List.append_assoc]
  rw [hsplit] at hfit
  have hport := outerMatches_part (by decide) hfit (lacks_append.2 ⟨i.source.lacks_tokens (.inr rfl),
    lacks_partTokens (by decide) (by decide) (by decide)⟩) fun _ ht => absurd ht List.not_mem_nil
  have hrender : render (bodyTokens k i) = i.source.text
      ++ (render (partTokens "generic".toList k i.generics)
        ++ render (partTokens "port".toList k i.ports)) := by
    rw [bodyTokens, render_append, render_append, i.source.render_tokens]
  rw [← hsplit] at hport
  rw [bodyTokens] at hport hrender
  rw [bodyTokens, hgeneric, hport, hrender]
  by_cases hgenerics : i.generics = []
  · by_cases hports : i.ports = []
    · refine ⟨[], isPad_nil, ?_, ?_⟩
      · rw [hgenerics, hports]
        simp [partTokens_nil, trimStart]
      · rw [hgenerics, hports]
        simp [partTokens_nil]
    · have hempty : i.ports.isEmpty = false := by simpa using hports
      have htrim := trimStart_part hports "port".toList (by decide) k []
      refine ⟨lineBreak (k + 1), isPad_lineBreak _, ?_, ?_⟩
      · rw [List.append_nil, List.append_nil] at htrim
        rw [hgenerics, partTokens_nil, render_nil, List.nil_append, htrim,
          partTokens_of_ne_nil _ k hports, render_append, render_pad, List.append_assoc]
      · rw [hgenerics, hempty, partTokens_nil, List.append_nil, i.source.render_tokens]
        rfl
  · have hempty : i.generics.isEmpty = false := by simpa using hgenerics
    have htrim := trimStart_part hgenerics "generic".toList (by decide) k
      (render (partTokens "port".toList k i.ports))
    refine ⟨lineBreak (k + 1), isPad_lineBreak _, ?_, ?_⟩
    · rw [htrim, partTokens_of_ne_nil _ k hgenerics, render_append, render_pad]
      simp only [List.append_assoc]
    · have hle : (i.source.text ++ lineBreak (k + 1)).length ≤ (render (i.source.tokens
          ++ partTokens "generic".toList k i.generics) ++ lineBreak (k + 1)).length := by
        rw [render_append, i.source.render_tokens]
        simp only [List.length_append]
        omega
      rw [hempty, i.source.render_tokens]
      simp only [Bool.false_eq_true, if_false]
      split
      · rfl
      · exact Nat.min_eq_left hle

theorem solid_bodyTokens (i : Instance) (k : Nat) : Solid (render (bodyTokens k i)) := by
  have hpart : ∀ (keyword : Text) (associations : List Association) {x : Text}, Solid x →
      Solid (x ++ render (partTokens keyword k associations)) := by
    intro keyword associations x hx
    by_cases hnil : associations = []
    · rwa [hnil, partTokens_nil, render_nil, List.append_nil]
    · have hend := hx.between (solid_singleton (by decide : isBlank ')' = false)) (lineBreak (k + 1)
        ++ (keyword ++ ' ' :: ("map".toList ++ ' ' :: '('
          :: render (commas (entryTokens k associations)))))
      rw [partTokens_of_ne_nil keyword k hnil, mapTokens]
      simpa using hend
  rw [bodyTokens, render_append, render_append, i.source.render_tokens, ← List.append_assoc]
  exact hpart _ _ (hpart _ _ i.source.solid_text)

/-- **An instance is read from its text**, wherever it stands. -/
theorem read_shift (h : i.Readable room) (k : Nat)
    (hfits : fits Limits.blockBytes (shift k i.text) = true) :
    Instance.read room (shift k i.text) = some i := by
  have hsolid := solid_bodyTokens i k
  have hphrase := isPhrase_bodyTokens h k
  rw [shift_text h] at hfits ⊢
  have hcode : withoutComments (i.label.text ++ ':' :: ' ' :: (render (bodyTokens k i) ++ [';']))
      = i.label.text ++ ':' :: ' ' :: (render (bodyTokens k i) ++ [';']) := by
    have hfit : FitAll none ((word i.label.text :: mark ':' :: mark ' ' :: bodyTokens k i) ++ [mark ';'])
        none :=
      fitAll_append.2 ⟨hphrase.labelled i.label.isName _ _ rfl rfl, fits_separator (by decide), trivial⟩
    have := withoutComments_render hfit
    simpa using this
  have htrim : trim (i.label.text ++ ':' :: ' ' :: (render (bodyTokens k i) ++ [';']))
      = i.label.text ++ ':' :: ' ' :: (render (bodyTokens k i) ++ [';']) := by
    have := i.label.isRun.solid.between (solid_singleton (by decide : isBlank ';' = false))
      (':' :: ' ' :: render (bodyTokens k i))
    exact trim_eq_self (by simpa using this.toTrimmed)
  have hlabel : labelled? (i.label.text ++ ':' :: ' ' :: (render (bodyTokens k i) ++ [';']))
      = some (i.label, render (bodyTokens k i) ++ [';']) := by
    refine labelled?_text i.label ?_
    rw [List.head?_append_of_ne_nil _ hsolid.ne_nil]
    exact hsolid.head
  obtain ⟨g, hg, hsplit, hstart⟩ := exists_starts h k
  have htake : (render (bodyTokens k i)).take (i.source.text ++ g).length = i.source.text ++ g := by
    rw [hsplit]
    exact List.take_left
  have hdrop : (render (bodyTokens k i)).drop (i.source.text ++ g).length
      = trimStart (render (partTokens "generic".toList k i.generics)
        ++ render (partTokens "port".toList k i.ports)) := by
    rw [hsplit]
    exact List.drop_left
  have hgenerics := getD_splitMap? h.generics "generic".toList (by decide) k
    (splitMap?_generic_port k i.ports)
  have hports := getD_splitMap? h.ports "port".toList (by decide) k (u := [])
    (splitMap?_eq_none (by decide) (.inl rfl))
  rw [List.append_nil] at hports
  simp only [Instance.read, hcode, htrim, hfits, hlabel, dropFinal?_append, trimEnd_eq_self hsolid.last,
    hstart, htake, hdrop, i.source.read_text hg, hgenerics, hports, Bool.not_true, Bool.false_eq_true,
    if_false, Option.bind_eq_bind, Option.bind_some]
  rfl

end Instance
end CanonicalVhdl
