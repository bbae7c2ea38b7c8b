import CanonicalVhdl.Proofs.Concurrent.Layout
import CanonicalVhdl.Proofs.Design.Clause
import CanonicalVhdl.Proofs.Extent.Declaration
import CanonicalVhdl.Proofs.Object.ReadBack

/-!
# Entities and components read back

## Main definitions

* `Port.ReadsBack`, `Generic.ReadsBack`, `Interface.ReadsBack` — the entries have distinct names
  and read back, and their comments take one line.

## Main statements

* `PortClause.ReadsBack.read_clause`, `GenericClause.ReadsBack.read_clause` — a clause is read from
  its text.
* `Interface.ReadsBack.readAs_shift` — an interface is read from its text, wherever it stands.
-/

namespace CanonicalVhdl

open Text Token

variable {room : Nat}

/-! ## Loose words -/

theorem Text.isSeparator_eq_false_of_isIdentChar {c : Char} (h : isIdentChar c = true) :
    isSeparator c = false := by
  have key : ∀ c ∈ "();,+-*/&<>=:".toList, isIdentChar c = false := by decide
  rw [isSeparator, isBlank_eq_false_of_isIdentChar h, Bool.false_or, Bool.eq_false_iff]
  intro hmem
  rw [key c (List.contains_iff_mem.1 hmem)] at h
  cases h

/-- The loose word that a text starts with. -/
theorem Text.firstWord?_run {w u : Text} (hw : IsRun w) (hu : u.head?.all isSeparator = true) :
    firstWord? (w ++ u) = some w := by
  have hstart : (w ++ u).dropWhile isSeparator = w ++ u := by
    obtain ⟨c, v, rfl⟩ := List.exists_cons_of_ne_nil hw.ne_nil
    have hc := isSeparator_eq_false_of_isIdentChar (List.all_eq_true.1 hw.ident c List.mem_cons_self)
    exact List.dropWhile_cons_of_neg (by simp [hc])
  have hend : u.head?.any (!isSeparator ·) = false := by
    cases u with
    | nil => rfl
    | cons c u => simpa using hu
  have hspan := hw.span (p := (!isSeparator ·)) (fun c hc => by
    simp [isSeparator_eq_false_of_isIdentChar hc]) hend
  obtain ⟨c, v, rfl⟩ := List.exists_cons_of_ne_nil hw.ne_nil
  rw [firstWord?, hstart, hspan.1]

/-! ## Entries -/

/-- An entry that starts with a name and a colon. -/
theorem ListEntry.isLaid_labelled (name : Ident) {ts : List Token} {comment : Option Comment}
    (hphrase : IsPhrase ts) (hlacks : Lacks [';'] ts) (hsolid : Solid (render ts))
    (hline : '\n' ∉ render ts) (hcomment : IsRemark comment) :
    IsLaid (word name.text :: mark ':' :: mark ' ' :: ts)
      ⟨name.text ++ ':' :: ' ' :: render ts, comment⟩ where
  code_eq := rfl
  isPhrase := hphrase.labelled name.isName
  lacks := List.forall_mem_cons.2 ⟨rfl, List.forall_mem_cons.2 ⟨rfl, List.forall_mem_cons.2 ⟨rfl, hlacks⟩⟩⟩
  solid := name.isRun.solid.between hsolid [':', ' ']
  newline_not_mem := by
    simp only [List.mem_append, List.mem_cons, not_or]
    exact ⟨name.isRun.newline_not_mem, by decide, by decide, hline⟩
  isRemark := hcomment

theorem Mode.isName (m : Mode) : IsName m.text := by
  cases m <;> decide

theorem Mode.read_text (m : Mode) : Mode.read m.text = some m := by
  cases m <;> decide

namespace Port

/-- Whether the type and the default of a port read back and its comment is one line. -/
structure ReadsBack (room : Nat) (p : Port) : Prop where
  /-- The type and the default read back. -/
  typed : TypedName.ReadsBack room p.type p.default
  /-- The comment is one line. -/
  comment : IsRemark p.comment

/-- The tokens after the name of a port. -/
def typeTokens (p : Port) : List Token :=
  word p.mode.text :: mark ' ' :: TypedName.typeTokens p.type p.default

variable {p : Port}

theorem render_typeTokens (p : Port) :
    render p.typeTokens = p.mode.text ++ ' ' :: TypedName.typeText p.type.text p.default := by
  simp [typeTokens, TypedName.render_typeTokens]

theorem entry_eq (p : Port) :
    p.entry = ⟨p.name.text ++ ':' :: ' ' :: render p.typeTokens, p.comment⟩ := by
  have htext : TypedName.typeText (p.mode.text ++ ' ' :: p.type.text) p.default
      = p.mode.text ++ ' ' :: TypedName.typeText p.type.text p.default := by
    cases p.default with
    | none => rfl
    | some value => exact List.append_assoc ..
  have hcolon : ": ".toList = [':', ' '] := rfl
  rw [entry, htext, render_typeTokens, hcolon, List.append_assoc]
  rfl

theorem ReadsBack.isLaid (h : p.ReadsBack room) :
    p.entry.IsLaid (word p.name.text :: mark ':' :: mark ' ' :: p.typeTokens) := by
  have hsolid := p.mode.isName.isRun.solid.between h.typed.solid [' ']
  rw [entry_eq]
  refine ListEntry.isLaid_labelled p.name (h.typed.isPhrase.prefixed p.mode.isName) ?_ ?_ ?_ h.comment
  · exact List.forall_mem_cons.2 ⟨rfl, List.forall_mem_cons.2 ⟨rfl, h.typed.lacks_semicolon⟩⟩
  · rw [render_typeTokens]
    exact hsolid
  · rw [render_typeTokens, List.mem_append, List.mem_cons, not_or, not_or]
    exact ⟨p.mode.isName.isRun.newline_not_mem, by decide, h.typed.newline_not_mem⟩

/-- A port is read from its entry. -/
theorem ReadsBack.readEntry (h : p.ReadsBack room) : Port.readEntry room p.entry = some p := by
  have hrun := p.mode.isName.isRun
  have hstart : trimStart (' ' :: render p.typeTokens) = render p.typeTokens := by
    refine trimStart_blank ?_
    rw [render_typeTokens]
    exact hrun.solid.head_append _
  have hfirst : (firstWord? (render p.typeTokens)).bind Mode.read = some p.mode := by
    rw [render_typeTokens, firstWord?_run hrun (by rfl), Option.bind_some, p.mode.read_text]
  have hmode : splitMode? (render p.typeTokens)
      = some (p.mode, TypedName.typeText p.type.text p.default) := by
    rw [splitMode?, hfirst]
    simp only [render_typeTokens, afterWord?_blank hrun h.typed.solid.head, Option.map_some]
  have htyped := h.typed.readTyped p.name isPad_nil
  rw [List.nil_append] at htyped
  rw [Port.readEntry, entry_eq]
  simp only [TypedName.splitName?_text, hstart, hmode, htyped, Option.bind_eq_bind, Option.bind_some]

end Port

namespace Generic

/-- Whether the type and the default of a generic read back and its comment is one line. -/
structure ReadsBack (room : Nat) (g : Generic) : Prop where
  /-- The type and the default read back. -/
  typed : TypedName.ReadsBack room g.type g.default
  /-- The comment is one line. -/
  comment : IsRemark g.comment

variable {g : Generic}

theorem entry_eq (g : Generic) :
    g.entry = ⟨g.name.text ++ ':' :: ' ' :: render (TypedName.typeTokens g.type g.default), g.comment⟩ := by
  have hcolon : ": ".toList = [':', ' '] := rfl
  rw [entry, hcolon, TypedName.render_typeTokens, List.append_assoc]
  rfl

theorem ReadsBack.isLaid (h : g.ReadsBack room) :
    g.entry.IsLaid (word g.name.text :: mark ':' :: mark ' ' :: TypedName.typeTokens g.type g.default) := by
  rw [entry_eq]
  refine ListEntry.isLaid_labelled g.name h.typed.isPhrase h.typed.lacks_semicolon ?_ ?_ h.comment
  · rw [TypedName.render_typeTokens]
    exact h.typed.solid
  · rw [TypedName.render_typeTokens]
    exact h.typed.newline_not_mem

/-- A generic is read from its entry. -/
theorem ReadsBack.readEntry (h : g.ReadsBack room) : Generic.readEntry room g.entry = some g := by
  have hstart : trimStart (' ' :: TypedName.typeText g.type.text g.default)
      = TypedName.typeText g.type.text g.default := trimStart_blank h.typed.solid.head
  have htyped := h.typed.readTyped g.name isPad_nil
  rw [List.nil_append] at htyped
  rw [Generic.readEntry, entry_eq, TypedName.render_typeTokens]
  simp only [TypedName.splitName?_text, hstart, htyped, Option.bind_eq_bind, Option.bind_some]

end Generic

/-! ## Clauses -/

/-- The entries of a clause are read from its text. -/
theorem ListEntry.entries_clause {keyword : Text} (hkeyword : IsRun keyword) {es : List ListEntry}
    (h : ∀ e ∈ es, e.IsSound) (hne : es ≠ []) (k : Nat) :
    (interior? keyword (clause keyword k es)).bind split? = some es := by
  rw [interior?_clause hkeyword h, Option.bind_some, split?_interior k h hne]

/-- A clause in the text of an interface is nested. -/
theorem optionalText_some {α : Type} {text : α → Text} {c : α} (hc : IsLined (text c)) :
    Interface.optionalText text (some c) = nested (text c) := by
  have hne : (text c).isEmpty = false := by simpa using hc.ne_nil
  rw [nested, hne]
  rfl

theorem isTail_optionalText {α : Type} {text : α → Text} {clause : Option α}
    (h : ∀ c ∈ clause, IsLined (text c)) : IsTail (Interface.optionalText text clause) := by
  cases clause with
  | none => exact .inl rfl
  | some c =>
    rw [optionalText_some (h c rfl)]
    exact isTail_nested (.inr (h c rfl))

/-- A clause in the text of an interface stands on a line of its own. -/
theorem shift_optionalText {α : Type} {text : α → Text} {clause : Option α}
    (h : ∀ c ∈ clause, IsLined (text c)) (k : Nat) :
    shift k (Interface.optionalText text clause)
      = stack (k + 1) (clause.map fun c => shift (k + 1) (text c)).toList := by
  cases clause with
  | none => rfl
  | some c =>
    rw [optionalText_some (h c rfl), nested_eq (h c rfl), shift_append, shift_lineBreak, shift_shift]
    simp

namespace PortClause

/-- Whether a port clause has ports with distinct names that read back. -/
structure ReadsBack (room : Nat) (c : PortClause) : Prop where
  /-- There is a port. -/
  ne_nil : c.ports ≠ []
  /-- No two ports have the same name. -/
  distinct : Ident.distinct (c.ports.map (·.name)) = true
  /-- The ports read back. -/
  ports : ∀ p ∈ c.ports, p.ReadsBack room

variable {c : PortClause}

theorem ReadsBack.areLaid (h : c.ReadsBack room) : ListEntry.AreLaid (c.ports.map Port.entry) :=
  List.forall_mem_map.2 fun p hp => ⟨_, (h.ports p hp).isLaid⟩

theorem ReadsBack.isLined (h : c.ReadsBack room) : IsLined c.text :=
  ListEntry.isLined_clauseText (by decide) h.areLaid.isSound (by simpa using h.ne_nil)

theorem ReadsBack.shift_text (h : c.ReadsBack room) (k : Nat) :
    shift k c.text = ListEntry.clause "port".toList k (c.ports.map Port.entry) :=
  ListEntry.shift_clauseText (by decide) h.areLaid.isSound (by simpa using h.ne_nil) k

theorem ReadsBack.isStatement (h : c.ReadsBack room) (k : Nat) : IsStatement true (shift k c.text) := by
  rw [h.shift_text]
  exact ListEntry.isStatement_clause (by decide) (by decide) (by decide +kernel) h.areLaid k

/-- A port clause is read from its text. -/
theorem ReadsBack.read_clause (h : c.ReadsBack room) (k : Nat)
    (hfits : fits Limits.blockBytes (shift k c.text) = true) :
    PortClause.read room (shift k c.text) = some c := by
  have hports : (c.ports.map Port.entry).mapM (Port.readEntry room) = some c.ports := by
    refine mapM_of_forall₂ ?_
    rw [List.forall₂_map_left_iff, List.forall₂_same]
    exact fun p hp => (h.ports p hp).readEntry
  have hempty : c.ports.isEmpty = false := by simpa using h.ne_nil
  have hentries := ListEntry.entries_clause (show IsRun "port".toList by decide) h.areLaid.isSound
    (by simpa using h.ne_nil) k
  rw [← h.shift_text] at hentries
  rw [PortClause.read, trim_eq_self (h.isStatement k).solid.toTrimmed, hfits]
  simp only [Bool.not_true, Bool.false_eq_true, if_false, Option.bind_eq_bind, ← Option.bind_assoc,
    hentries, Option.bind_some, hports, ofPorts?, hempty, h.distinct, Bool.not_false, Bool.and_self,
    if_true]

end PortClause

namespace GenericClause

/-- Whether a generic clause has generics with distinct names that read back. -/
structure ReadsBack (room : Nat) (c : GenericClause) : Prop where
  /-- There is a generic. -/
  ne_nil : c.generics ≠ []
  /-- No two generics have the same name. -/
  distinct : Ident.distinct (c.generics.map (·.name)) = true
  /-- The generics read back. -/
  generics : ∀ g ∈ c.generics, g.ReadsBack room

variable {c : GenericClause}

theorem ReadsBack.areLaid (h : c.ReadsBack room) : ListEntry.AreLaid (c.generics.map Generic.entry) :=
  List.forall_mem_map.2 fun g hg => ⟨_, (h.generics g hg).isLaid⟩

theorem ReadsBack.isLined (h : c.ReadsBack room) : IsLined c.text :=
  ListEntry.isLined_clauseText (by decide) h.areLaid.isSound (by simpa using h.ne_nil)

theorem ReadsBack.shift_text (h : c.ReadsBack room) (k : Nat) :
    shift k c.text = ListEntry.clause "generic".toList k (c.generics.map Generic.entry) :=
  ListEntry.shift_clauseText (by decide) h.areLaid.isSound (by simpa using h.ne_nil) k

theorem ReadsBack.isStatement (h : c.ReadsBack room) (k : Nat) : IsStatement true (shift k c.text) := by
  rw [h.shift_text]
  exact ListEntry.isStatement_clause (by decide) (by decide) (by decide +kernel) h.areLaid k

/-- A generic clause is read from its text. -/
theorem ReadsBack.read_clause (h : c.ReadsBack room) (k : Nat)
    (hfits : fits Limits.blockBytes (shift k c.text) = true) :
    GenericClause.read room (shift k c.text) = some c := by
  have hgenerics : (c.generics.map Generic.entry).mapM (Generic.readEntry room) = some c.generics := by
    refine mapM_of_forall₂ ?_
    rw [List.forall₂_map_left_iff, List.forall₂_same]
    exact fun g hg => (h.generics g hg).readEntry
  have hempty : c.generics.isEmpty = false := by simpa using h.ne_nil
  have hentries := ListEntry.entries_clause (show IsRun "generic".toList by decide) h.areLaid.isSound
    (by simpa using h.ne_nil) k
  rw [← h.shift_text] at hentries
  rw [GenericClause.read, trim_eq_self (h.isStatement k).solid.toTrimmed, hfits]
  simp only [Bool.not_true, Bool.false_eq_true, if_false, Option.bind_eq_bind, ← Option.bind_assoc,
    hentries, Option.bind_some, hgenerics, ofGenerics?, hempty, h.distinct, Bool.not_false, Bool.and_self,
    if_true]

end GenericClause

/-! ## Interfaces -/

namespace Interface

/-- Whether the clauses of an interface read back. -/
structure ReadsBack (room : Nat) (u : Interface) : Prop where
  /-- The generic clause reads back. -/
  generics : ∀ c ∈ u.generics, c.ReadsBack room
  /-- The port clause reads back. -/
  ports : ∀ c ∈ u.ports, c.ReadsBack room

variable {u : Interface}

theorem ReadsBack.readable (h : u.ReadsBack room) : u.Readable room where
  generics c hc g hg := by
    obtain ⟨htyped, hcomment⟩ := (h.generics c hc).generics g hg
    exact ⟨htyped.type, htyped.default, fun c hc =>
      ⟨(hcomment c hc).newline_not_mem, (hcomment c hc).return_not_mem⟩⟩
  ports c hc p hp := by
    obtain ⟨htyped, hcomment⟩ := (h.ports c hc).ports p hp
    exact ⟨htyped.type, htyped.default, fun c hc =>
      ⟨(hcomment c hc).newline_not_mem, (hcomment c hc).return_not_mem⟩⟩

/-- The clauses of an interface inside `k` steps of indentation. -/
def clauses (k : Nat) (u : Interface) : List Text :=
  (u.generics.map fun c => shift k c.text).toList ++ (u.ports.map fun c => shift k c.text).toList

theorem ReadsBack.isStatement_clauses (h : u.ReadsBack room) (k : Nat) :
    ∀ x ∈ u.clauses k, IsStatement true x := by
  intro x hx
  simp only [clauses, List.mem_append, Option.mem_toList, Option.map_eq_some_iff] at hx
  rcases hx with ⟨c, hc, rfl⟩ | ⟨c, hc, rfl⟩
  · exact (h.generics c hc).isStatement k
  · exact (h.ports c hc).isStatement k

/-- An interface moved to the right. -/
theorem ReadsBack.shift_textAs (h : u.ReadsBack room) {keyword : Text} (hkeyword : IsRun keyword) (k : Nat) :
    shift k (textAs keyword u) = keyword ++ ' ' :: (u.name.text ++ ' ' :: ("is".toList
      ++ (stack (k + 1) (u.clauses (k + 1))
        ++ (lineBreak k ++ ("end".toList ++ clauseEnd [keyword, u.name.text]))))) := by
  have hhead : '\n' ∉ keyword ++ ' ' :: u.name.text ++ " is".toList := by
    simp only [List.mem_append, List.mem_cons, not_or]
    exact ⟨⟨hkeyword.not_mem (by decide), by decide, u.name.isRun.newline_not_mem⟩, by decide⟩
  have hruns : ∀ v ∈ [keyword, u.name.text], IsRun v :=
    List.forall_mem_cons.2 ⟨hkeyword, List.forall_mem_singleton.2 u.name.isRun⟩
  have hclosing := shift_of_not_mem (isLine_closing hruns).newline_not_mem k
  have hstack : ∀ xs ys : List Text, stack (k + 1) (xs ++ ys) = stack (k + 1) xs ++ stack (k + 1) ys :=
    fun _ _ => List.flatMap_append
  have his : " is".toList = ' ' :: "is".toList := rfl
  rw [textAs_eq, framed, shift_append, shift_of_not_mem hhead, shift_append, shift_append,
    shift_optionalText fun c hc => (h.generics c hc).isLined,
    shift_optionalText fun c hc => (h.ports c hc).isLined, shift_newline, hclosing, clauses, hstack, his]
  simp only [List.append_assoc, List.cons_append]

/-! ## Reading the clauses -/

/-- A statement is one clause, the padding before it aside. -/
theorem readClauses_statement {g x : Text} (hg : IsPad g) (hx : IsStatement true x) (r : Text)
    (generics : Option GenericClause) (ports : Option PortClause) (fuel : Nat) :
    readClauses room generics ports (fuel + 1) (g ++ (x ++ r))
      = if startsWith "generic".toList x && generics.isNone && ports.isNone then
          (GenericClause.read room x).bind fun c => readClauses room (some c) ports fuel r
        else if startsWith "port".toList x && ports.isNone then
          (PortClause.read room x).bind fun c => readClauses room generics (some c) fuel r
        else none := by
  have hskip : (skipTrivia ⟨0, none, g ++ (x ++ r)⟩).rest = x ++ r := by
    obtain ⟨c, v, rfl, hc⟩ := hx.exists_cons
    rw [skipTrivia_pad hg, List.cons_append, skipTrivia_alpha hc]
  have hne : (x ++ r).isEmpty = false := by
    obtain ⟨c, v, rfl, -⟩ := hx.exists_cons
    rfl
  rw [readClauses, hskip]
  simp only [hne, hx.extent? r, List.take_left, List.drop_left, Bool.false_eq_true, if_false,
    Option.bind_eq_bind, Option.bind_some]

theorem readClauses_nil (generics : Option GenericClause) (ports : Option PortClause) (fuel : Nat) :
    readClauses room generics ports (fuel + 1) [] = some (generics, ports) := by
  rw [readClauses]
  rfl

/-- The blanks before the first clause change nothing. -/
theorem readClauses_trimStart {xs : List Text} (h : ∀ x ∈ xs, IsStatement true x) (k fuel : Nat)
    (generics : Option GenericClause) (ports : Option PortClause) :
    readClauses room generics ports fuel (trimStart (stack k xs))
      = readClauses room generics ports fuel (stack k xs) := by
  cases xs with
  | nil => rfl
  | cons x xs =>
    have hx := h x List.mem_cons_self
    have hstart := trimStart_stack hx.solid xs k []
    simp only [List.append_nil] at hstart
    cases fuel with
    | zero => rfl
    | succ fuel =>
      rw [hstart, ← List.nil_append (x ++ stack k xs), readClauses_statement isPad_nil hx, stack_cons,
        readClauses_statement (isPad_lineBreak k) hx]

/-- The word that a clause starts with. -/
theorem startsWith_clause {w keyword : Text} (hw : IsRun w) (hkeyword : IsRun keyword) (k : Nat)
    (es : List ListEntry) : startsWith w (ListEntry.clause keyword k es) = sameWord w keyword := by
  have := startsWith_run (g := []) (u := ' ' :: '(' :: (ListEntry.interior k es ++ [')', ';'])) rfl hw
    hkeyword rfl
  rwa [List.nil_append] at this

/-- The port clause is the last one. -/
theorem ReadsBack.readClauses_ports (h : u.ReadsBack room) {k fuel : Nat}
    (hfits : ∀ x ∈ u.clauses k, fits Limits.blockBytes x = true) (hfuel : u.ports.toList.length < fuel)
    (generics : Option GenericClause) :
    readClauses room generics none fuel (stack k (u.ports.map fun c => shift k c.text).toList)
      = some (generics, u.ports) := by
  obtain ⟨fuel, rfl⟩ : ∃ n, fuel = n + 1 := ⟨fuel - 1, by omega⟩
  cases hports : u.ports with
  | none => exact readClauses_nil generics none fuel
  | some c =>
    have hc := h.ports c hports
    have hread := hc.read_clause k (hfits _ (by simp [clauses, hports]))
    obtain ⟨fuel, rfl⟩ : ∃ n, fuel = n + 1 := ⟨fuel - 1, by simp [hports] at hfuel; omega⟩
    have hgeneric : startsWith "generic".toList (shift k c.text) = false := by
      rw [hc.shift_text, startsWith_clause (by decide) (by decide)]
      decide
    have hport : startsWith "port".toList (shift k c.text) = true := by
      rw [hc.shift_text, startsWith_clause (by decide) (by decide)]
      decide
    rw [Option.map_some, Option.toList_some, stack_cons, stack_nil,
      readClauses_statement (isPad_lineBreak k) (hc.isStatement k), hgeneric, hport, hread]
    exact @readClauses_nil room generics (some c) fuel

/-- The clauses are read from the lines they stand on. -/
theorem ReadsBack.readClauses (h : u.ReadsBack room) {k fuel : Nat}
    (hfits : ∀ x ∈ u.clauses k, fits Limits.blockBytes x = true) (hfuel : (u.clauses k).length < fuel) :
    Interface.readClauses room none none fuel (stack k (u.clauses k)) = some (u.generics, u.ports) := by
  have hlength : (u.clauses k).length = u.generics.toList.length + u.ports.toList.length := by
    cases hgenerics : u.generics <;> cases hports : u.ports <;> simp [clauses, hgenerics, hports]
  cases hgenerics : u.generics with
  | none =>
    have hclauses : u.clauses k = (u.ports.map fun c => shift k c.text).toList := by
      rw [clauses, hgenerics]
      rfl
    rw [hclauses]
    exact h.readClauses_ports hfits (by omega) none
  | some c =>
    have hc := h.generics c hgenerics
    have hread := hc.read_clause k (hfits _ (by simp [clauses, hgenerics]))
    have hclauses : u.clauses k = shift k c.text :: (u.ports.map fun c => shift k c.text).toList := by
      rw [clauses, hgenerics]
      rfl
    rw [hgenerics] at hlength
    obtain ⟨fuel, rfl⟩ : ∃ n, fuel = n + 1 := ⟨fuel - 1, by omega⟩
    have hgeneric : startsWith "generic".toList (shift k c.text) = true := by
      rw [hc.shift_text, startsWith_clause (by decide) (by decide)]
      decide
    rw [hclauses, stack_cons, readClauses_statement (isPad_lineBreak k) (hc.isStatement k), hgeneric, hread]
    refine h.readClauses_ports hfits ?_ (some c)
    simp at hlength
    omega

/-! ## Reading an interface -/

/-- An interface is cut into its name and its clauses. -/
theorem ReadsBack.splitUnit?_shift (h : u.ReadsBack room) {keyword : Text} (hkeyword : IsRun keyword)
    (requireIs : Bool) (k : Nat) (hconstruct : isConstruct (shift k (textAs keyword u)) = true)
    (hfits : fits Limits.blockBytes (shift k (textAs keyword u)) = true) :
    splitUnit? keyword requireIs (shift k (textAs keyword u))
      = some (u.name, trimStart (stack (k + 1) (u.clauses (k + 1)))) := by
  have hend : ∀ c, isIdentChar c = true → (!(isBlank c || c == '-')) = true := by
    intro c hc
    have hhyphen : c ≠ '-' := by
      rintro rfl
      exact absurd hc (by decide)
    simp [isBlank_eq_false_of_isIdentChar hc, hhyphen]
  have hline := atLineEnd_stack (k + 1) (u.clauses (k + 1)) (atLineEnd_lineBreak k
    ("end".toList ++ clauseEnd [keyword, u.name.text]))
  have hclauses : ∀ x ∈ u.clauses (k + 1), Solid x := fun x hx => (h.isStatement_clauses (k + 1) x hx).solid
  have hbody := Text.beforeEnd?_stack false hkeyword u.name.isRun hclauses (k + 1) k
  generalize hrest : stack (k + 1) (u.clauses (k + 1)) ++ (lineBreak k ++ ("end".toList
    ++ clauseEnd [keyword, u.name.text])) = rest at hline hbody
  have htext : shift k (textAs keyword u)
      = keyword ++ ' ' :: (u.name.text ++ ' ' :: ("is".toList ++ rest)) := by
    rw [h.shift_textAs hkeyword, hrest]
  have hname := u.name.isRun.solid.head_append (' ' :: ("is".toList ++ rest))
  obtain ⟨htake, hdrop⟩ := u.name.isRun.span hend (u := ' ' :: ("is".toList ++ rest)) rfl
  have hafter := afterWord?_first (show IsRun "is".toList by decide) (show IsRun "is".toList by decide)
    hline.ident
  rw [sameWord_self, if_pos rfl] at hafter
  have hstart : trimStart (' ' :: ("is".toList ++ rest)) = "is".toList ++ rest := trimStart_blank rfl
  rw [splitUnit?, hfits, hconstruct, htext]
  simp only [afterWord?_blank hkeyword hname, htake, hdrop, u.name.ofText?_text, hstart, hafter, hbody,
    Bool.not_true, Bool.or_self, Bool.false_eq_true, if_false, Option.bind_eq_bind, Option.bind_some]

/-- **An interface is read from its text, wherever it stands.** -/
theorem ReadsBack.readAs_shift (h : u.ReadsBack room) {keyword : Text} (hkeyword : IsRun keyword)
    (requireIs : Bool) (k : Nat) (hstatement : IsStatement true (shift k (textAs keyword u)))
    (hfits : fits Limits.blockBytes (shift k (textAs keyword u)) = true) :
    readAs room keyword requireIs (shift k (textAs keyword u)) = some u := by
  have hclauses := h.isStatement_clauses (k + 1)
  have hpart : ∀ x ∈ u.clauses (k + 1), fits Limits.blockBytes x = true := by
    intro x hx
    refine fits_of_isInfix hfits ?_
    rw [h.shift_textAs hkeyword]
    refine (isInfix_stack hx (k + 1) (lineBreak k ++ ("end".toList ++ clauseEnd [keyword, u.name.text]))).trans
      ⟨keyword ++ ' ' :: (u.name.text ++ ' ' :: "is".toList), [], ?_⟩
    simp
  have hlength : (u.clauses (k + 1)).length < (trimStart (stack (k + 1) (u.clauses (k + 1)))).length + 1 := by
    cases hxs : u.clauses (k + 1) with
    | nil => exact Nat.succ_pos _
    | cons x xs =>
      have hx := (hclauses x (by simp [hxs])).solid
      have hstart := trimStart_stack hx xs (k + 1) []
      have hpos := List.length_pos_iff.2 hx.ne_nil
      have hle := length_le_stack (k + 1) xs
      simp only [List.append_nil] at hstart
      rw [hstart, List.length_append, List.length_cons]
      omega
  rw [readAs, trim_eq_self hstatement.solid.toTrimmed,
    h.splitUnit?_shift hkeyword requireIs k hstatement.isConstruct hfits]
  simp only [Option.bind_eq_bind, Option.bind_some, readClauses_trimStart hclauses,
    h.readClauses hpart hlength]

theorem startsStatement_textAs {keyword : Text} (hkeyword : IsName keyword)
    (hdividing : dividingWords.contains (Text.fold keyword) = false) (u : Interface) :
    StartsStatement (textAs keyword u) := by
  obtain ⟨r, hr⟩ : ∃ r, textAs keyword u = keyword ++ ' ' :: r := by
    rw [textAs_eq, framed, List.append_assoc, List.append_assoc]
    exact ⟨_, rfl⟩
  exact ⟨keyword, _, hr, hkeyword, rfl, hdividing⟩

/-- An interface is made of lines. -/
theorem ReadsBack.isLined_textAs (h : u.ReadsBack room) {keyword : Text} (hkeyword : IsName keyword) :
    IsLined (textAs keyword u) := by
  rw [textAs_eq]
  exact isLined_framed (isRow_head hkeyword u.name.isInertText).toIsLine
    ((isTail_optionalText fun c hc => (h.generics c hc).isLined).append
      (isTail_optionalText fun c hc => (h.ports c hc).isLined))
    (List.forall_mem_cons.2 ⟨hkeyword.isRun, List.forall_mem_singleton.2 u.name.isRun⟩)

/-- A declaration of a component is one statement, wherever it stands. -/
theorem ReadsBack.isStatement_component (h : u.ReadsBack room) (k : Nat) :
    IsStatement true (shift k u.componentText) :=
  h.readable.stands.isStatement (startsStatement_textAs (by decide) (by decide) u) k

/-- **A declaration of a component is read from its text, wherever it stands.** -/
theorem ReadsBack.readComponent_shift (h : u.ReadsBack room) (k : Nat)
    (hfits : fits Limits.blockBytes (shift k u.componentText) = true) :
    readComponent room (shift k u.componentText) = some u :=
  h.readAs_shift (by decide) false k (h.isStatement_component k) hfits

/-- **An entity is read from its text.** -/
theorem ReadsBack.readEntity_text (h : u.ReadsBack room)
    (hfits : fits Limits.blockBytes u.entityText = true) : readEntity room u.entityText = some u := by
  have hstatement : IsStatement true (shift 0 u.entityText) :=
    h.readable.stands_entity.isStatement (startsStatement_textAs (by decide) (by decide) u) 0
  rw [← shift_zero u.entityText] at hfits ⊢
  exact h.readAs_shift (by decide) true 0 hstatement hfits

end Interface
end CanonicalVhdl
