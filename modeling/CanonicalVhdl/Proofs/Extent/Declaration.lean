import CanonicalVhdl.Design.Declaration
import CanonicalVhdl.Proofs.Extent.Concurrent
import CanonicalVhdl.Proofs.Extent.Looking
import CanonicalVhdl.Proofs.Extent.Sequential
import CanonicalVhdl.Proofs.Sequential.ReadBack

/-!
# The extent of declarations and other fragments

A declaration whose parts read back is one statement, like an element of sequential or of
concurrent code.  So each of the three is delimited by the scan for the end of a construct.

## Main definitions

* `TypeDecl.Readable`, `Interface.Readable`, `Signature.Readable`, `FunctionBody.Readable`,
  `Declaration.Readable` — declarations whose parts read back.
* `Declaration.code` — a declaration without the comment behind it.
* `Fragment` — an element of a region or of a declarative part.

## Main statements

* `Declaration.Readable.stands` — a declaration is one statement.
* `Fragment.extent?_text` — the extent of an element is the length of its code.
-/

namespace CanonicalVhdl

open Text Token

variable {room : Nat}

/-! ## Types -/

section Types

/-- Whether the type of a field reads back and its comment takes one line. -/
structure RecordField.Readable (room : Nat) (f : RecordField) : Prop where
  /-- The type reads back. -/
  type : f.type.ReadsBack room
  /-- The comment takes one line. -/
  comment : ∀ c ∈ f.comment, c.IsOneLine

theorem RecordField.Readable.stays {f : RecordField} (h : f.Readable room) :
    Stays true (rows f.text) := by
  have hinert := h.type.isInertText.labelled f.name
  have hstands : Stands true (f.name.text ++ ':' :: ' ' :: f.type.text ++ [';']) :=
    hinert.stands f.name.isRun.solid
  have hrow : IsRow (f.name.text ++ ':' :: ' ' :: f.type.text ++ [';']) := by
    rw [List.append_assoc]
    refine isRow_append f.name.isRun.solid ?_ ?_
    · rw [← List.append_assoc, List.mem_append, not_or]
      exact ⟨hinert.newline_not_mem, by decide⟩
    · rw [← List.append_assoc, List.getLast?_concat]
      decide
  have hcolon : ": ".toList = [':', ' '] := rfl
  have htext : f.text = f.name.text ++ ':' :: ' ' :: f.type.text ++ [';'] ++ remark f.comment := by
    rw [RecordField.text, Comment.append_eq, hcolon]
    simp
  rw [htext]
  exact hstands.stays_remark hrow h.comment

namespace TypeDecl

/-- Whether the types, ranges and fields of a declaration read back. -/
def Readable (room : Nat) : TypeDecl → Prop
  | enumeration _ _ => True
  | record _ fields => ∀ f ∈ fields, f.Readable room
  | array _ range element => range.Readable room ∧ element.ReadsBack room

/-- The words before the definition of a type. -/
theorem isInertText_head (name : Ident) : IsInertText ("type".toList ++ ' ' :: name.text) :=
  name.isInertText.prefixed (by decide) (by decide +kernel)

/-- A type with its definition in one line. -/
theorem stands_defined {free : Bool} {name : Ident} {x : Text} (hx : IsInertText x) :
    Stands free ("type".toList ++ ' ' :: (name.text ++ ' ' :: ("is".toList ++ ' ' :: x)) ++ [';']) := by
  have hflat := IsFlatText.spaced (s := "is".toList) (isInertText_head name) hx.isFlatText (by decide)
    (by decide) fun _ _ => ⟨false, rfl⟩
  have hsplit : "type".toList ++ ' ' :: name.text ++ ' ' :: ("is".toList ++ ' ' :: x)
      = "type".toList ++ ' ' :: (name.text ++ ' ' :: ("is".toList ++ ' ' :: x)) := by
    simp
  rw [hsplit] at hflat
  exact hflat.stands (IsRun.solid (by decide))

/-- The values of an enumeration in parentheses. -/
def valuesText (values : List Ident) : Text :=
  '(' :: (join ", ".toList (values.map (·.text)) ++ [')'])

/-- The definition of an array. -/
def arrayText (range : Range) (element : TypeMark) : Text :=
  "array".toList ++ ' ' :: ('(' :: (range.text ++ [')']) ++ ' ' :: ("of".toList ++ ' ' :: element.text))

theorem isInertText_valuesText (values : List Ident) : IsInertText (valuesText values) :=
  (isPhraseText_join (c := ',') (.inl rfl)
    (List.forall_mem_map.2 fun (i : Ident) (_ : i ∈ values) => i.isInertText.isPhraseText)).group

theorem isInertText_arrayText {range : Range} {element : TypeMark} (hrange : IsPhraseText range.text)
    (helement : IsInertText element.text) : IsInertText (arrayText range element) :=
  (isInertText_spaced (s := "of".toList) hrange.group helement (by decide) (by decide +kernel)
    (by decide)).prefixed (by decide) (by decide +kernel)

theorem text_enumeration (name : Ident) (values : List Ident) :
    (enumeration name values).text
      = "type".toList ++ ' ' :: (name.text ++ ' ' :: ("is".toList ++ ' ' :: valuesText values)) ++ [';'] := by
  have htype : "type ".toList = "type".toList ++ [' '] := rfl
  have his : " is (".toList = ' ' :: ("is".toList ++ [' ', '(']) := rfl
  have hclose : ");".toList = [')', ';'] := rfl
  have htext : (enumeration name values).text = "type ".toList ++ name.text ++ " is (".toList
      ++ join ", ".toList (values.map (·.text)) ++ ");".toList := rfl
  rw [htext, htype, his, hclose, valuesText]
  simp only [List.append_assoc, List.cons_append, List.nil_append]

theorem text_array (name : Ident) (range : Range) (element : TypeMark) :
    (array name range element).text = "type".toList ++ ' ' :: (name.text ++ ' ' :: ("is".toList
      ++ ' ' :: arrayText range element)) ++ [';'] := by
  have htype : "type ".toList = "type".toList ++ [' '] := rfl
  have his : " is array (".toList = ' ' :: ("is".toList ++ ' ' :: ("array".toList ++ [' ', '('])) := rfl
  have hof : ") of ".toList = ')' :: ' ' :: ("of".toList ++ [' ']) := rfl
  have htext : (array name range element).text = "type ".toList ++ name.text ++ " is array (".toList
      ++ range.text ++ ") of ".toList ++ element.text ++ [';'] := rfl
  rw [htext, htype, his, hof, arrayText]
  simp only [List.append_assoc, List.cons_append, List.nil_append]

/-- The line that a record starts with. -/
def recordHead (name : Ident) : Text :=
  "type".toList ++ ' ' :: (name.text ++ ' ' :: ("is".toList ++ ' ' :: "record".toList))

theorem text_record (name : Ident) (fields : List RecordField) :
    (record name fields).text = framed (recordHead name)
      ('\n' :: indent 1 (join ['\n'] (fields.map (·.text)))) ["record".toList, name.text] := by
  have htype : "type ".toList = "type".toList ++ [' '] := rfl
  have his : " is record\n".toList = ' ' :: ("is".toList ++ ' ' :: ("record".toList ++ ['\n'])) := rfl
  have hend : "\nend record ".toList = '\n' :: ("end".toList ++ ' ' :: ("record".toList ++ [' '])) := rfl
  have htext : (record name fields).text = "type ".toList ++ name.text ++ " is record\n".toList
      ++ indent 1 (join ['\n'] (fields.map (·.text))) ++ "\nend record ".toList ++ name.text ++ [';'] :=
    rfl
  rw [htext, htype, his, hend, framed, recordHead]
  simp only [clauseEnd, List.flatMap_cons, List.flatMap_nil, List.append_assoc, List.cons_append,
    List.nil_append, List.append_nil]

/-- A record's first line opens a construct. -/
theorem passes_recordHead (name : Ident) (depth : Nat) (header : Bool) :
    Passes 0 ⟨depth, false, header⟩ [recordHead name] 0 ⟨depth + 1, false, false⟩ := by
  obtain ⟨⟨ts, hrender, hts, hinert⟩, hline, -⟩ := isInertText_head name
  have hrecord : IsName "record".toList := by decide
  have hphrase : IsPhrase (ts ++ (spaced "is".toList ++ [word "record".toList])) :=
    hts.spaced (isPhrase_word hrecord) (by decide)
  have hwhole : render (ts ++ (spaced "is".toList ++ [word "record".toList])) = recordHead name := by
    simp [recordHead, hrender]
  have hrow : IsRow (recordHead name) := by
    refine isRow_append (IsRun.solid (by decide)) ?_ ?_
    · simp only [List.mem_append, List.mem_cons, not_or]
      exact ⟨by decide, by decide, name.isRun.newline_not_mem, by decide, by decide, by decide,
        by decide⟩
    · have hsplit : "type".toList ++ ' ' :: (name.text ++ ' ' :: ("is".toList ++ ' ' :: "record".toList))
          = "type".toList ++ ' ' :: (name.text ++ ' ' :: ("is".toList ++ [' '])) ++ "record".toList := by
        simp
      rw [hsplit, List.getLast?_append_of_ne_nil _ hrecord.isRun.ne_nil]
      decide
  have hopen : Nesting.after ⟨depth, false, header⟩ (spaced "is".toList ++ [word "record".toList])
      = some ⟨depth + 1, false, false⟩ := rfl
  rw [← hwhole] at hrow ⊢
  refine passes_tokens hphrase hrow ?_
  rw [Nesting.after_append, Nesting.after_eq_self rfl hinert, Option.bind_some, hopen]

/-- **A declaration of a type is one statement.** -/
theorem Readable.stands {free : Bool} {d : TypeDecl} (h : d.Readable room) : Stands free d.text := by
  cases d with
  | enumeration name values =>
    rw [text_enumeration]
    exact stands_defined (isInertText_valuesText values)
  | array name range element =>
    obtain ⟨hrange, helement⟩ := h
    rw [text_array]
    exact stands_defined (isInertText_arrayText hrange.isInertText.isPhraseText helement.isInertText)
  | record name fields =>
    have hfields : Stays true (rows (join ['\n'] (fields.map (·.text)))) :=
      stays_join (List.forall_mem_map.2 fun f hf => (h f hf).stays)
    have hinner : Stays true (rows ('\n' :: indent 1 (join ['\n'] (fields.map (·.text))))) := by
      rwa [rows_newline, rows_indent hfields.isTidy]
    rw [text_record]
    exact stands_construct ((passes_recordHead name 0 false).isRow _ (List.mem_singleton_self _))
      (fun depth header _ => passes_recordHead name depth header) (atLineEnd_newline _) hinner (by decide)
      (List.forall_mem_singleton.2 ⟨name.isRun, name.not_mem_structureWords⟩)

end TypeDecl

end Types

/-! ## Clauses -/

namespace ListEntry

/-- Whether the code of an entry is a phrase on one line and its comment takes one line. -/
structure Readable (e : ListEntry) : Prop where
  /-- The code is a phrase. -/
  code : IsPhraseText e.code
  /-- The code has no blanks at its ends. -/
  solid : Solid e.code
  /-- The comment takes one line. -/
  comment : ∀ c ∈ e.comment, c.IsOneLine

/-- An entry on a line in parentheses, its semicolon included. -/
theorem Readable.passes {e : ListEntry} (h : e.Readable) {parens : Nat} {s : Nesting} {mark : Text}
    (hmark : mark = [] ∨ mark = [';']) :
    Passes (parens + 1) s (rows (Comment.append (e.code ++ mark) e.comment)) (parens + 1) s := by
  have hphrase : IsPhraseText (e.code ++ mark) := by
    rcases hmark with rfl | rfl
    · rw [List.append_nil]
      exact h.code
    · exact h.code.separated (.inr rfl)
  have hrow : IsRow (e.code ++ mark) := by
    refine isRow_append h.solid hphrase.newline_not_mem ?_
    rcases hmark with rfl | rfl
    · rw [List.append_nil]
      exact h.solid.last_ne_return
    · simp
  rw [Comment.append_eq, (isRow_remark hrow h.comment).rows_eq]
  exact hphrase.passes hrow h.comment

/-- The entries of a clause on lines in parentheses. -/
theorem passes_lines {entries : List ListEntry} (h : ∀ e ∈ entries, e.Readable) {parens : Nat}
    {s : Nesting} : Passes (parens + 1) s (rows (join ['\n'] (lines entries))) (parens + 1) s := by
  rw [rows_join]
  induction entries with
  | nil => exact .nil
  | cons e entries ih =>
    have he := h e List.mem_cons_self
    cases entries with
    | nil =>
      have hpass : Passes (parens + 1) s (rows (Comment.append (e.code ++ []) e.comment)) (parens + 1) s :=
        he.passes (.inl rfl)
      rw [List.append_nil] at hpass
      rw [lines, List.flatMap_cons, List.flatMap_nil, List.append_nil]
      exact hpass
    | cons e' entries =>
      have hlines : lines (e :: e' :: entries)
          = Comment.append (e.code ++ [';']) e.comment :: lines (e' :: entries) := rfl
      rw [hlines, List.flatMap_cons]
      exact (he.passes (.inr rfl)).append (ih fun e he => h e (List.mem_cons_of_mem _ he))

/-- **A clause is one statement.** -/
theorem stands_clause {free : Bool} {keyword : Text} {entries : List ListEntry}
    (hkeyword : keyword = "generic".toList ∨ keyword = "port".toList) (h : ∀ e ∈ entries, e.Readable) :
    Stands free (clauseText keyword entries)
      ∧ ∃ ls, rows (clauseText keyword entries) = (keyword ++ " (".toList) :: ls := by
  have hname : IsName keyword := by rcases hkeyword with rfl | rfl <;> decide
  have hinert : IsInertText (keyword ++ []) := by
    rw [List.append_nil]
    exact hname.isInertText (by rcases hkeyword with rfl | rfl <;> decide +kernel)
  have hopen : " (\n".toList = " (".toList ++ ['\n'] := rfl
  have hclose : "\n);".toList = '\n' :: ");".toList := rfl
  have htext : clauseText keyword entries
      = (keyword ++ " (".toList) ++ '\n' :: (indent 1 (join ['\n'] (lines entries))
        ++ '\n' :: ");".toList) := by
    rw [clauseText, hopen, hclose]
    simp only [List.append_assoc, List.cons_append, List.nil_append]
  have hpass : ∀ depth header, Passes 0 ⟨depth, false, header⟩ [keyword ++ " (".toList] 1
      ⟨depth, false, header⟩ := by
    intro depth header
    have := hinert.passes_open (s := ⟨depth, false, header⟩) hname.isRun.solid rfl
    rwa [List.append_nil] at this
  have hlines : ∀ s, Passes 1 s (rows (join ['\n'] (lines entries))) 1 s := fun s => passes_lines h
  have hend : rows ");".toList = [");".toList] := rfl
  have hrow : IsRow (keyword ++ " (".toList) := (hpass 0 false).isRow _ (List.mem_singleton_self _)
  have hrows : rows (clauseText keyword entries) = (keyword ++ " (".toList)
      :: (rows (join ['\n'] (lines entries)) ++ [");".toList]) := by
    rw [htext, rows_append, rows_append, hrow.rows_eq, hend, rows_indent (hlines .start).isTidy]
    rfl
  refine ⟨⟨?_, fun depth header _ => ?_⟩, _, hrows⟩
  · have hsplit : clauseText keyword entries
        = keyword ++ " (\n".toList ++ indent 1 (join ['\n'] (lines entries)) ++ "\n)".toList ++ [';'] := by
      have hclose' : "\n);".toList = "\n)".toList ++ [';'] := rfl
      rw [clauseText, hclose']
      simp only [List.append_assoc]
    rw [hsplit, List.getLast?_concat]
  · rw [hrows, ← List.singleton_append]
    exact .after (hpass depth header) (.after (hlines _) finishes_close)

end ListEntry

/-- Whether the type and the default of a port read back and its comment takes one line. -/
structure Port.Readable (room : Nat) (p : Port) : Prop where
  /-- The type reads back. -/
  type : p.type.ReadsBack room
  /-- The default reads back. -/
  default : ∀ e ∈ p.default, e.ReadsBack room
  /-- The comment takes one line. -/
  comment : ∀ c ∈ p.comment, c.IsOneLine

/-- Whether the type and the default of a generic read back and its comment takes one line. -/
structure Generic.Readable (room : Nat) (g : Generic) : Prop where
  /-- The type reads back. -/
  type : g.type.ReadsBack room
  /-- The default reads back. -/
  default : ∀ e ∈ g.default, e.ReadsBack room
  /-- The comment takes one line. -/
  comment : ∀ c ∈ g.comment, c.IsOneLine

theorem solid_typeText {t : Text} {default : Option Expr} (ht : Solid t)
    (hdefault : ∀ e ∈ default, e.ReadsBack room) : Solid (TypedName.typeText t default) := by
  cases default with
  | none => exact ht
  | some value =>
    exact ht.between (hdefault value rfl).solid _

theorem Port.Readable.entry {p : Port} (h : p.Readable room) : p.entry.Readable := by
  have hmode : IsName p.mode.text := by cases p.mode <;> decide
  have htype : IsInertText (p.mode.text ++ ' ' :: p.type.text) :=
    h.type.isInertText.prefixed hmode (by cases p.mode <;> decide +kernel)
  have hcolon : ": ".toList = [':', ' '] := rfl
  have hcode : p.entry.code = p.name.text ++ ':' :: ' ' ::
      TypedName.typeText (p.mode.text ++ ' ' :: p.type.text) p.default := by
    rw [Port.entry, hcolon]
    simp
  have hsolid : Solid (p.mode.text ++ ' ' :: p.type.text) := by
    have := hmode.isRun.solid.between h.type.solid [' ']
    simpa using this
  refine ⟨?_, ?_, h.comment⟩
  · rw [hcode]
    exact ((isInertText_typeText htype h.default).labelled p.name).isPhraseText
  · have := p.name.isRun.solid.between (solid_typeText hsolid h.default) [':', ' ']
    rw [hcode]
    simpa using this

theorem Generic.Readable.entry {g : Generic} (h : g.Readable room) : g.entry.Readable := by
  have hcolon : ": ".toList = [':', ' '] := rfl
  have hcode : g.entry.code
      = g.name.text ++ ':' :: ' ' :: TypedName.typeText g.type.text g.default := by
    rw [Generic.entry, hcolon]
    simp
  refine ⟨?_, ?_, h.comment⟩
  · rw [hcode]
    exact ((isInertText_typeText h.type.isInertText h.default).labelled g.name).isPhraseText
  · have := g.name.isRun.solid.between (solid_typeText h.type.solid h.default) [':', ' ']
    rw [hcode]
    simpa using this

/-! ## Lines with a word that looks ahead -/

section Heads

variable {w x : Text}

theorem isRow_head (hw : IsName w) (hx : IsInertText x) : IsRow (w ++ ' ' :: x ++ " is".toList) := by
  rw [List.append_assoc]
  refine isRow_append hw.isRun.solid ?_ ?_
  · simp only [List.mem_append, List.mem_cons, not_or]
    exact ⟨hw.isRun.newline_not_mem, ⟨by decide, hx.newline_not_mem⟩, by decide⟩
  · rw [← List.append_assoc, List.getLast?_append_of_ne_nil _ (by decide)]
    decide

/-- A line opens a construct if its first word does, whatever stands on the lines after it. -/
theorem passes_head (hw : w ∈ lookingWords) (hx : IsInertText x)
    (hopens : ∀ position before {u : Text}, u.head?.any isIdentChar = false →
      opensConstruct w ⟨position, before, ' ' :: (x ++ (" is".toList ++ u))⟩ = true)
    (depth : Nat) (header : Bool) :
    Passes 0 ⟨depth, false, header⟩ [w ++ ' ' :: x ++ " is".toList] 0 ⟨depth + 1, false, false⟩ := by
  have hname : ∀ w ∈ lookingWords, IsName w := by decide
  have his : IsName "is".toList := by decide
  refine .single (isRow_head (hname w hw) hx) fun position before u hbefore hu => ?_
  have hnext : u.head?.any isIdentChar = false := by
    obtain rfl | ⟨v, rfl⟩ := hu.cases <;> rfl
  have hword : ∀ position before, Nesting.word ⟨depth, false, header⟩ w
      ⟨position, before, ' ' :: (x ++ (" is".toList ++ u))⟩ = some ⟨depth + 1, false, false⟩ := by
    intro position before
    rw [Nesting.word_looking hw rfl, hopens _ _ hnext, if_pos rfl]
  have hsplit : w ++ ' ' :: x ++ " is".toList ++ u = w ++ ' ' :: (x ++ (" is".toList ++ u)) := by
    simp
  have hfit : ∀ before, FitAll before [Token.mark ' ', Token.word "is".toList] u.head? := fun _ =>
    ⟨fits_blank, his.fits rfl hnext, trivial⟩
  have hclose : Closes (" is".toList ++ u).head? := rfl
  have hrender : render [Token.mark ' ', Token.word "is".toList] = " is".toList := rfl
  have hafter : Nesting.after ⟨depth + 1, false, false⟩ [Token.mark ' ', Token.word "is".toList]
      = some ⟨depth + 1, false, false⟩ := rfl
  rw [hsplit, extentFrom_looking (hname w hw) hx hbefore.ident hclose rfl hword, ← hrender,
    extentFrom_render (hfit _) hafter, hrender, @List.length_append _ (w ++ ' ' :: x),
    lastOr_append before (w ++ ' ' :: x), Nat.add_assoc]

end Heads

/-! ## Components -/

namespace Interface

/-- Whether every generic and every port reads back. -/
structure Readable (room : Nat) (u : Interface) : Prop where
  /-- The generics read back. -/
  generics : ∀ c ∈ u.generics, ∀ g ∈ c.generics, g.Readable room
  /-- The ports read back. -/
  ports : ∀ c ∈ u.ports, ∀ p ∈ c.ports, p.Readable room

variable {u : Interface}

/-- A line after which `component … is` is a declaration. -/
def Declares (l : Text) : Prop :=
  (∃ keyword, (keyword = "generic".toList ∨ keyword = "port".toList) ∧ l = keyword ++ " (".toList)
    ∨ ∃ r, l = "end".toList ++ ' ' :: r

/-- The first line of a component opens a construct. -/
theorem finishes_component {depth : Nat} {header : Bool} (name : Ident) {l : Text} {ls : List Text}
    (hl : Declares l) (hfinish : Finishes depth 0 ⟨depth + 1, false, false⟩ (l :: ls)) :
    Finishes depth 0 ⟨depth, false, header⟩
      (("component".toList ++ ' ' :: name.text ++ " is".toList) :: l :: ls) := by
  have hcomponent : IsName "component".toList := by decide
  have his : IsName "is".toList := by decide
  have hblank : " is".toList = ' ' :: "is".toList := rfl
  refine .cons (isRow_head (by decide) name.isInertText) (fun position before r hbefore hr => ?_) hfinish
  obtain ⟨g, v, hg, rfl⟩ := hr.next _ rfl
  have hword : ∀ position before, Nesting.word ⟨depth, false, header⟩ "component".toList
      ⟨position, before, ' ' :: (name.text ++ (" is".toList ++ '\n' :: (g ++ (l ++ v))))⟩
        = some ⟨depth + 1, false, false⟩ := by
    intro position before
    rw [Nesting.word_looking (by decide) rfl, opens_declared hg hl, if_pos rfl]
  have hsplit : "component".toList ++ ' ' :: name.text ++ " is".toList ++ '\n' :: (g ++ (l ++ v))
      = "component".toList ++ ' ' :: (name.text ++ (" is".toList ++ '\n' :: (g ++ (l ++ v)))) := by
    simp
  have hfit : ∀ before, FitAll before [Token.mark ' ', Token.word "is".toList] (some '\n') := fun _ =>
    ⟨fits_blank, his.fits rfl rfl, trivial⟩
  have hclose : Closes (" is".toList ++ '\n' :: (g ++ (l ++ v))).head? := rfl
  have hrender : render [Token.mark ' ', Token.word "is".toList] = " is".toList := rfl
  have hafter : Nesting.after ⟨depth + 1, false, false⟩ [Token.mark ' ', Token.word "is".toList]
      = some ⟨depth + 1, false, false⟩ := rfl
  rw [hsplit, extentFrom_looking hcomponent name.isInertText hbefore.ident hclose rfl hword, ← hrender,
    extentFrom_render (u := '\n' :: (g ++ (l ++ v))) (hfit _) hafter,
    @List.length_append _ ("component".toList ++ ' ' :: name.text),
    lastOr_append before ("component".toList ++ ' ' :: name.text), Nat.add_assoc]

/-- An optional clause on the lines of a component. -/
def optionalText {α : Type} (text : α → Text) (clause : Option α) : Text :=
  clause.elim [] fun c => '\n' :: indent 1 (text c)

section Clauses

variable {α : Type} {text : α → Text} {clause : Option α}

theorem atLineEnd_optionalText : AtLineEnd (optionalText text clause) := by
  cases clause with
  | none => exact atLineEnd_nil
  | some c => exact atLineEnd_newline _

theorem stays_optionalText (h : ∀ c ∈ clause, Stays true (rows (text c))) :
    Stays true (rows (optionalText text clause)) := by
  cases clause with
  | none => exact stays_nil
  | some c =>
    have hc := h c rfl
    rw [optionalText, Option.elim, rows_newline, rows_indent hc.isTidy]
    exact hc

/-- The line after the first line of a component says that it is a declaration. -/
theorem exists_declares {keyword : Text} (hkeyword : keyword = "generic".toList ∨ keyword = "port".toList)
    (h : ∀ c ∈ clause, Stays true (rows (text c)))
    (hopen : ∀ c ∈ clause, ∃ ls, rows (text c) = (keyword ++ " (".toList) :: ls) {ls : List Text}
    (hls : ∃ l ls', ls = l :: ls' ∧ Declares l) :
    ∃ l ls', rows (optionalText text clause) ++ ls = l :: ls' ∧ Declares l := by
  cases clause with
  | none => exact hls
  | some c =>
    obtain ⟨ls', hrows⟩ := hopen c rfl
    rw [optionalText, Option.elim, rows_newline, rows_indent (h c rfl).isTidy, hrows, List.cons_append]
    exact ⟨_, _, rfl, .inl ⟨keyword, hkeyword, rfl⟩⟩

end Clauses

/-- An interface is a line with its name, its clauses and a closing clause. -/
theorem textAs_eq (keyword : Text) (u : Interface) :
    textAs keyword u = framed (keyword ++ ' ' :: u.name.text ++ " is".toList)
      (optionalText GenericClause.text u.generics ++ optionalText PortClause.text u.ports)
      [keyword, u.name.text] := by
  have hend : "\nend ".toList = '\n' :: ("end".toList ++ [' ']) := rfl
  rw [textAs, hend, framed, optionalText, optionalText]
  simp only [clauseEnd, List.flatMap_cons, List.flatMap_nil, List.append_assoc, List.cons_append,
    List.nil_append, List.append_nil]

theorem componentText_eq (u : Interface) :
    u.componentText = framed ("component".toList ++ ' ' :: u.name.text ++ " is".toList)
      (optionalText GenericClause.text u.generics ++ optionalText PortClause.text u.ports)
      ["component".toList, u.name.text] :=
  textAs_eq _ u

theorem Readable.stands_generics (h : u.Readable room) : ∀ c ∈ u.generics, Stands true c.text
    ∧ ∃ ls, rows c.text = ("generic".toList ++ " (".toList) :: ls := fun c hc =>
  ListEntry.stands_clause (.inl rfl) (List.forall_mem_map.2 fun g hg => (h.generics c hc g hg).entry)

theorem Readable.stands_ports (h : u.Readable room) : ∀ c ∈ u.ports, Stands true c.text
    ∧ ∃ ls, rows c.text = ("port".toList ++ " (".toList) :: ls := fun c hc =>
  ListEntry.stands_clause (.inr rfl) (List.forall_mem_map.2 fun p hp => (h.ports c hc p hp).entry)

/-- The clauses of an interface leave the nesting as it is. -/
theorem Readable.stays_clauses (h : u.Readable room) : Stays true
    (rows (optionalText GenericClause.text u.generics ++ optionalText PortClause.text u.ports)) := by
  rw [rows_append_of_atLineEnd _ atLineEnd_optionalText]
  exact (stays_optionalText fun c hc => (h.stands_generics c hc).1.stays).append
    (stays_optionalText fun c hc => (h.stands_ports c hc).1.stays)

/-- **An entity is one statement.** -/
theorem Readable.stands_entity {free : Bool} (h : u.Readable room) : Stands free u.entityText := by
  have hpass := passes_head (w := "entity".toList) (by decide) u.name.isInertText
    fun position before {_} hu => opens_named (.inl rfl) u.name position before hu
  rw [entityText, textAs_eq]
  exact stands_construct (isRow_head (by decide) u.name.isInertText) (fun depth header _ => hpass depth header)
    (atLineEnd_optionalText.append atLineEnd_optionalText) h.stays_clauses (by decide)
    (List.forall_mem_singleton.2 ⟨u.name.isRun, u.name.not_mem_structureWords⟩)

/-- **A declaration of a component is one statement.** -/
theorem Readable.stands {free : Bool} (h : u.Readable room) : Stands free u.componentText := by
  have hgenerics := h.stands_generics
  have hports := h.stands_ports
  have hname : ∀ v ∈ [u.name.text], IsRun v ∧ structureWords.contains (Text.fold v) = false :=
    List.forall_mem_singleton.2 ⟨u.name.isRun, u.name.not_mem_structureWords⟩
  have hruns : ∀ v ∈ ["component".toList, u.name.text], IsRun v :=
    List.forall_mem_cons.2 ⟨by decide, fun v hv => (hname v hv).1⟩
  have hclosing : IsRow ("end".toList ++ clauseEnd ["component".toList, u.name.text]) :=
    ⟨isLine_closing hruns, by simp⟩
  have hhead : IsRow ("component".toList ++ ' ' :: u.name.text ++ " is".toList) :=
    isRow_head (by decide) u.name.isInertText
  obtain ⟨l, ls, hls, hl⟩ := exists_declares (.inl rfl) (fun c hc => (hgenerics c hc).1.stays)
    (fun c hc => (hgenerics c hc).2) (exists_declares (.inr rfl) (fun c hc => (hports c hc).1.stays)
      (fun c hc => (hports c hc).2)
      ⟨"end".toList ++ clauseEnd ["component".toList, u.name.text], [], rfl,
        .inr ⟨_, by rw [clauseEnd_cons]⟩⟩)
  have hrows : rows u.componentText
      = ("component".toList ++ ' ' :: u.name.text ++ " is".toList) :: l :: ls := by
    rw [componentText_eq, framed, rows_append_of_atLineEnd _
        ((atLineEnd_optionalText.append atLineEnd_optionalText).append (atLineEnd_newline _)),
      rows_append, rows_append_of_atLineEnd _ atLineEnd_optionalText, hhead.rows_eq, hclosing.rows_eq,
      List.append_assoc (rows (optionalText GenericClause.text u.generics)), hls]
    rfl
  refine ⟨?_, fun depth header _ => ?_⟩
  · simp only [componentText_eq, framed, clauseEnd, ← List.append_assoc, ← List.cons_append,
      List.getLast?_concat]
  · rw [hrows]
    refine finishes_component u.name hl ?_
    obtain ⟨header', -, hpass⟩ := ((stays_optionalText fun c hc => (hgenerics c hc).1.stays).append
      (stays_optionalText fun c hc => (hports c hc).1.stays)) depth false
      fun hheader => absurd hheader Bool.false_ne_true
    rw [← hls, ← List.append_assoc]
    exact .after hpass (finishes_closing (by decide) hname)

end Interface

/-! ## Functions -/

namespace Signature

/-- Whether the types of a signature read back. -/
structure Readable (room : Nat) (s : Signature) : Prop where
  /-- The types of the parameters read back. -/
  parameters : ∀ p ∈ s.parameters, p.type.ReadsBack room
  /-- The type of the result reads back. -/
  result : s.result.ReadsBack room

/-- A signature after its first word. -/
def afterWord (s : Signature) : Text :=
  (s.name.text ++ if s.parameters.isEmpty then []
    else '(' :: (join "; ".toList (s.parameters.map (·.text)) ++ [')']))
    ++ ' ' :: ("return".toList ++ ' ' :: s.result.text)

variable {s : Signature}

theorem openText_eq (s : Signature) : s.openText = "function".toList ++ ' ' :: s.afterWord := by
  have hfunction : "function ".toList = "function".toList ++ [' '] := rfl
  have hreturn : " return ".toList = ' ' :: ("return".toList ++ [' ']) := rfl
  have hdef : s.openText = "function ".toList ++ s.name.text ++ (if s.parameters.isEmpty then []
      else '(' :: (join "; ".toList (s.parameters.map (·.text)) ++ [')']))
      ++ " return ".toList ++ s.result.text := rfl
  rw [hdef, afterWord, hfunction, hreturn]
  simp only [List.append_assoc, List.cons_append, List.nil_append]

theorem Readable.isInertText (h : s.Readable room) : IsInertText s.afterWord := by
  have hname : IsInertText (s.name.text ++ if s.parameters.isEmpty then []
      else '(' :: (join "; ".toList (s.parameters.map (·.text)) ++ [')'])) := by
    split
    · rw [List.append_nil]
      exact s.name.isInertText
    · have hsemicolon : "; ".toList = [';', ' '] := rfl
      have hparameters := isPhraseText_join (c := ';') (.inr rfl) (List.forall_mem_map.2
        fun (p : Parameter) (hp : p ∈ s.parameters) =>
          ((h.parameters p hp).isInertText.labelled p.name).isPhraseText)
      have htexts : s.parameters.map (·.text)
          = s.parameters.map fun p => p.name.text ++ ':' :: ' ' :: p.type.text := by
        have hcolon : ": ".toList = [':', ' '] := rfl
        refine List.map_congr_left fun p _ => ?_
        rw [Parameter.text, hcolon]
        simp
      rw [hsemicolon, htexts]
      exact hparameters.call s.name.isName s.name.not_mem_structureWords
  exact isInertText_spaced hname h.result.isInertText (by decide) (by decide +kernel) (by decide)

/-- A line that starts with a signature. -/
theorem Readable.isRow (h : s.Readable room) {x : Text} (hline : '\n' ∉ x)
    (hlast : x ≠ []) (hreturn : x.getLast? ≠ some '\r') : IsRow (s.openText ++ x) := by
  rw [openText_eq, List.append_assoc]
  refine isRow_append (IsRun.solid (by decide)) ?_ ?_
  · simp only [List.mem_append, List.mem_cons, not_or]
    exact ⟨by decide, ⟨by decide, h.isInertText.newline_not_mem⟩, hline⟩
  · rwa [← List.append_assoc, List.getLast?_append_of_ne_nil _ hlast]

/-- **A declaration of a function is one statement.** -/
theorem Readable.stands {free : Bool} (h : s.Readable room) : Stands free s.text := by
  have hrow : IsRow s.text := h.isRow (by decide) (by decide) (by decide)
  have hfunction : IsName "function".toList := by decide
  refine ⟨by rw [text, List.getLast?_concat], fun depth header _ => ?_⟩
  rw [hrow.rows_eq]
  refine .last hrow (by rw [text, List.getLast?_concat]) fun position before u hbefore => ?_
  have hword : ∀ position before, Nesting.word ⟨depth, false, header⟩ "function".toList
      ⟨position, before, ' ' :: (s.afterWord ++ ';' :: u)⟩ = some ⟨depth, false, header⟩ := by
    intro position before
    rw [Nesting.word_looking (by decide) rfl, not_opens_signature h.isInertText, if_neg (by decide)]
  have hsplit : s.text ++ u = "function".toList ++ ' ' :: (s.afterWord ++ ';' :: u) := by
    rw [text, openText_eq]
    simp
  have hlength : s.text.length = ("function".toList ++ ' ' :: s.afterWord).length + 1 := by
    rw [text, openText_eq, List.length_append, List.length_singleton]
  have hclose : Closes (';' :: u).head? := rfl
  rw [hsplit, extentFrom_looking hfunction h.isInertText hbefore.ident hclose rfl hword,
    extentFrom_semicolon_ended, hlength, Nat.add_assoc]

end Signature

namespace FunctionBody

/-- Whether the parts of a function read back and its comments take one line. -/
structure Readable (room : Nat) (f : FunctionBody) : Prop where
  /-- The signature reads back. -/
  signature : f.signature.Readable room
  /-- The declarations read back. -/
  declarations : ∀ d ∈ f.declarations, d.Readable room
  /-- The body reads back. -/
  body : f.body.Readable room

variable {f : FunctionBody}

theorem text_eq_framed (f : FunctionBody) :
    f.text = framed (f.signature.openText ++ " is".toList)
      (nested (join ['\n'] (f.declarations.map (·.text)))
        ++ '\n' :: ("begin".toList ++ nested f.body.text))
      ["function".toList, f.signature.name.text] := by
  have hbegin : "\nbegin".toList = '\n' :: "begin".toList := rfl
  have hend : "\nend function ".toList = '\n' :: ("end".toList ++ ' ' :: ("function".toList ++ [' '])) :=
    rfl
  rw [text, framed, hbegin, hend]
  simp only [clauseEnd, List.flatMap_cons, List.flatMap_nil, List.append_assoc, List.cons_append,
    List.nil_append, List.append_nil]

/-- The first line of a function with a body opens a construct. -/
theorem Readable.passes_head (h : f.Readable room) (depth : Nat) (header : Bool) :
    Passes 0 ⟨depth, false, header⟩ [f.signature.openText ++ " is".toList] 0
      ⟨depth + 1, false, false⟩ := by
  rw [Signature.openText_eq]
  exact CanonicalVhdl.passes_head (by decide) h.signature.isInertText
    (fun position before {_} hu => opens_body h.signature.isInertText position before hu) depth header

/-- **A function with its body is one statement.** -/
theorem Readable.stands {free : Bool} (h : f.Readable room) : Stands free f.text := by
  rw [text_eq_framed]
  exact stands_construct ((h.passes_head 0 false).isRow _ (List.mem_singleton_self _))
    (fun depth header _ => h.passes_head depth header)
    ((atLineEnd_nested _).append (atLineEnd_newline _)) (stays_program h.declarations h.body) (by decide)
    (List.forall_mem_singleton.2 ⟨f.signature.name.isRun, f.signature.name.not_mem_structureWords⟩)

end FunctionBody

/-! ## Declarations -/

namespace Declaration

/-- Whether the parts of a declaration read back and its comments take one line. -/
def Readable (room : Nat) : Declaration → Prop
  | object d => d.Readable room
  | comment c => c.IsOneLine
  | type d => d.Readable room
  | component c => c.Readable room
  | signature s => s.Readable room
  | function f => f.Readable room

/-- A declaration without the comment behind it. -/
def code : Declaration → Text
  | object d => d.code
  | comment c => c.line
  | type d => d.text
  | component c => c.componentText
  | signature s => s.text
  | function f => f.text

/-- Whether a declaration is a comment line. -/
def isComment : Declaration → Bool
  | comment _ => true
  | _ => false

/-- **A declaration is one statement.** -/
theorem Readable.stands {free : Bool} {d : Declaration} (h : d.Readable room)
    (hcomment : d.isComment = false) : Stands free d.code := by
  cases d with
  | object d => exact ObjectDecl.Readable.stands h
  | comment c => cases hcomment
  | type d => exact TypeDecl.Readable.stands h
  | component c => exact Interface.Readable.stands h
  | signature s => exact Signature.Readable.stands h
  | function f => exact FunctionBody.Readable.stands h

end Declaration

/-! ## The extent of a fragment

Every sequential element, concurrent element and declarative item that is no comment line
is cut out of the text after it at its own last semicolon, whatever that text is. -/

/-- An element of sequential or concurrent code, or an item of a declarative part. -/
inductive Fragment where
  /-- Sequential code. -/
  | sequential (s : Sequential)
  /-- Concurrent code. -/
  | concurrent (c : Concurrent)
  /-- A declaration. -/
  | declaration (d : Declaration)

namespace Fragment

/-- The canonical text. -/
def text : Fragment → Text
  | sequential s => s.text
  | concurrent c => c.text
  | declaration d => d.text

/-- An element without the comment behind it. -/
def code : Fragment → Text
  | sequential s => s.code
  | concurrent c => c.text
  | declaration d => d.code

/-- The comment behind an element. -/
def comment : Fragment → Option Comment
  | sequential (.simple (.declaration d)) => d.comment
  | declaration (.object d) => d.comment
  | _ => none

/-- Whether the parts of an element read back and its comments take one line. -/
def Readable (room : Nat) : Fragment → Prop
  | sequential s => s.Readable room
  | concurrent c => c.Readable room
  | declaration d => d.Readable room

/-- Whether it is a single element and no comment line. -/
def isElement : Fragment → Bool
  | sequential s => s.isElement
  | concurrent c => c.isElement
  | declaration d => !d.isComment

variable {e : Fragment}

/-- The text of an element is its code and the comment behind it. -/
theorem text_eq (e : Fragment) : e.text = e.code ++ remark e.comment := by
  cases e with
  | sequential s =>
    cases s with
    | simple s =>
      cases s with
      | declaration d => exact d.text_eq
      | _ => exact (List.append_nil _).symm
    | _ => exact (List.append_nil _).symm
  | concurrent c => exact (List.append_nil _).symm
  | declaration d =>
    cases d with
    | object d => exact d.text_eq
    | _ => exact (List.append_nil _).symm

theorem Readable.stands (h : e.Readable room) (helement : e.isElement = true) :
    Stands false e.code := by
  cases e with
  | sequential s =>
    have hs : Stands true s.code := Sequential.Readable.stands h helement
    exact hs.mono
  | concurrent c => exact Concurrent.Readable.stands h helement
  | declaration d => exact Declaration.Readable.stands h (by simpa [isElement] using helement)

/-- **The scan for the end of a construct delimits every element exactly**: before any text
it finds the length of the element without the comment behind it. -/
theorem extent?_text (h : e.Readable room) (helement : e.isElement = true) (u : Text) :
    extent? (e.text ++ u) = some e.code.length := by
  rw [text_eq, List.append_assoc]
  exact (h.stands helement).extent? (remark e.comment ++ u)

/-- A conditional statement with the comment ` end if; (` inside. -/
def commented : Fragment :=
  sequential (.conditional Sequential.probeExpr (.comment ⟨" end if; (".toList⟩)
    (some (.simple .null)))

theorem readable_commented : commented.Readable 1 := by
  have hcomment : Comment.IsOneLine ⟨" end if; (".toList⟩ := ⟨by decide, by decide⟩
  refine .conditional (Sequential.readsBack_probeExpr 0) (.simple hcomment) fun s hs => ?_
  cases hs
  exact .simple trivial

theorem extent?_text_commented :
    commented.Readable 1 ∧ commented.isElement = true ∧
      commented.text = "if a then\n    -- end if; (\nelse\n    null;\nend if;".toList ∧
      extent? (commented.text ++ "\nend if;".toList) = some commented.code.length :=
  ⟨readable_commented, rfl, by decide +kernel,
    extent?_text readable_commented rfl "\nend if;".toList⟩

end Fragment

end CanonicalVhdl
