import CanonicalVhdl.Proofs.Concurrent.Layout
import CanonicalVhdl.Proofs.Extent.Declaration
import CanonicalVhdl.Proofs.Settled.Text

/-!
# Declarations of types read back

The values of an enumeration are cut apart at their commas, the fields of a record stand in a
block, and the range of an array stands in parentheses of its own.  A field may have a comment
behind its semicolon; the other types are single statements without one.

## Main definitions

* `RecordField.ReadsBack`, `TypeDecl.ReadsBack` — the parts of a declaration read back, and what
  must be distinct is.

## Main statements

* `TypeDecl.ReadsBack.isStatement` — a declaration is one statement, wherever it stands.
* `TypeDecl.ReadsBack.read_shift` — a declaration is read from its text, wherever it stands.
-/

namespace CanonicalVhdl

open Text Token

variable {room : Nat}

/-- A line of tokens holds no comment to remove. -/
theorem Text.stripComments_render {ts : List Token} (h : FitAll none ts none) (hline : '\n' ∉ render ts)
    (hlast : (render ts).getLast?.any isBlank = false) : stripComments (render ts) = render ts := by
  rw [stripComments_line hline, lineCode, commentStart?_render h, Option.elim_none, trimEnd_eq_self hlast]

/-- An inert text with a semicolon holds no comment to remove. -/
theorem IsInertText.stripComments {t : Text} (h : IsInertText t) :
    Text.stripComments (t ++ [';']) = t ++ [';'] := by
  obtain ⟨⟨ts, rfl, hts, -⟩, hline, -⟩ := h
  have hrender : render ts ++ [';'] = render (ts ++ [mark ';']) := by simp
  have hfit : FitAll none (ts ++ [mark ';']) none :=
    fitAll_append.2 ⟨hts _ _ rfl rfl, fits_separator (by decide), trivial⟩
  have hlast : (render (ts ++ [mark ';'])).getLast?.any isBlank = false := by
    rw [← hrender, List.getLast?_concat]
    decide
  rw [hrender]
  refine Text.stripComments_render hfit ?_ hlast
  rw [← hrender, List.mem_append, not_or]
  exact ⟨hline, by decide⟩

/-! ## Fields -/

namespace RecordField

/-- A field without the comment behind it. -/
def code (f : RecordField) : Text := f.name.text ++ ':' :: ' ' :: (f.type.text ++ [';'])

/-- Whether the type of a field reads back, its comment is one line, and it is not too long. -/
structure ReadsBack (room : Nat) (f : RecordField) : Prop where
  /-- The type reads back. -/
  type : f.type.ReadsBack room
  /-- The comment is one line. -/
  comment : IsRemark f.comment
  /-- The field is not too long. -/
  fits : Text.fits Limits.statementBytes f.code = true

variable {f : RecordField}

theorem text_eq (f : RecordField) : f.text = f.code ++ remark f.comment := by
  have hcolon : ": ".toList = [':', ' '] := rfl
  rw [text, Comment.append_eq, hcolon, code]
  simp

theorem code_eq (f : RecordField) :
    f.code = render (word f.name.text :: mark ':' :: mark ' ' :: f.type.tokens) ++ [';'] := by
  simp [code, TypeMark.render_tokens]

theorem ReadsBack.isPhrase (h : f.ReadsBack room) :
    IsPhrase (word f.name.text :: mark ':' :: mark ' ' :: f.type.tokens) :=
  h.type.isPhrase.labelled f.name.isName

/-- A field is one statement. -/
theorem ReadsBack.isStatement (h : f.ReadsBack room) : IsStatement true f.code := by
  rw [code_eq]
  refine isStatement_inert h.isPhrase f.name.isName f.name.not_mem_dividingWords fun t ht => ?_
  have hsplit : word f.name.text :: mark ':' :: mark ' ' :: f.type.tokens
      = [word f.name.text, mark ':', mark ' '] ++ f.type.tokens := rfl
  rw [hsplit, List.mem_append] at ht
  rcases ht with ht | ht
  · exact f.name.isInert_label t ht
  · exact h.type.isInert t ht

theorem ReadsBack.newline_not_mem (h : f.ReadsBack room) : '\n' ∉ f.code := by
  simp only [code, List.mem_append, List.mem_cons, List.not_mem_nil, not_or, or_false]
  exact ⟨f.name.isRun.newline_not_mem, by decide, by decide, h.type.newline_not_mem, by decide⟩

/-- A field without a comment is read from its code. -/
theorem ReadsBack.read_code (h : f.ReadsBack room) : read room f.code = some { f with comment := none } := by
  have hcomment : commentStart? f.code = none := by
    have hfit : FitAll none ((word f.name.text :: mark ':' :: mark ' ' :: f.type.tokens) ++ [mark ';'])
        none := fitAll_append.2 ⟨h.isPhrase _ _ rfl rfl, fits_separator (by decide), trivial⟩
    have := commentStart?_render hfit
    rwa [render_append, render_cons (mark ';'), text_mark, render_nil, List.append_nil, ← code_eq] at this
  have htrailer := Comment.splitTrailer_line h.isStatement.solid h.newline_not_mem hcomment
  have htype := h.type.reads [' '] [] isPad_blank isPad_nil
  have hcode : f.code = (f.name.text ++ ':' :: ' ' :: f.type.text) ++ [';'] := by simp [code]
  have hname : splitOnce ':' (f.name.text ++ ':' :: ' ' :: f.type.text)
      = some (f.name.text, ' ' :: f.type.text) := splitOnce_append (f.name.isRun.not_mem (by decide)) _
  rw [List.append_nil, List.singleton_append] at htype
  rw [read, h.fits, htrailer]
  simp only [Bool.not_true, Bool.false_eq_true, if_false, hcode, dropFinal?_append, hname,
    trim_eq_self f.name.isRun.trimmed, f.name.ofText?_text, htype, Option.bind_eq_bind, Option.bind_some]

/-- What a field is in a region. -/
def piece (f : RecordField) : Piece := .code f.code (f.comment.map (·.text))

/-- What a field looks like in a region. -/
theorem ReadsBack.isLaid (h : f.ReadsBack room) : Laid true (fun _ => f.piece) f.text := by
  have hline : '\n' ∉ f.code ++ remark f.comment := by
    rw [List.mem_append, not_or]
    exact ⟨h.newline_not_mem, h.comment.newline_not_mem⟩
  rw [text_eq]
  refine .of_line ?_ hline
  rw [piece]
  cases hc : f.comment with
  | none =>
    rw [remark, List.append_nil]
    exact .code h.isStatement
  | some c => exact .trailed h.isStatement (h.comment c hc)

/-- A field is read from its piece. -/
theorem ReadsBack.readField (h : f.ReadsBack room) : TypeDecl.readField room f.piece = some (some f) := by
  obtain ⟨name, type, comment⟩ := f
  have hread := h.read_code
  rw [piece, TypeDecl.readField, readWithTrailer, hread]
  cases comment with
  | none => rfl
  | some c => simp [(h.comment c rfl).ofText?]

end RecordField

/-! ## Types -/

theorem Range.ReadsBack.isInertText {r : Range} (h : r.ReadsBack room) : IsInertText r.text := by
  have hinert := isInertText_render h.isPhrase (r.isInert h.designators)
  rw [r.render_tokens] at hinert
  exact hinert h.newline_not_mem h.solid.last_ne_return

namespace TypeDecl

/-- Whether the types, ranges and fields of a declaration read back, and what must be distinct is. -/
def ReadsBack (room : Nat) : TypeDecl → Prop
  | enumeration _ values => values ≠ [] ∧ Ident.distinct values = true
  | record _ fields =>
    fields ≠ [] ∧ Ident.distinct (fields.map (·.name)) = true ∧ ∀ f ∈ fields, f.ReadsBack room
  | array _ range element => range.ReadsBack room ∧ element.ReadsBack room

variable {d : TypeDecl}

/-- A declaration is one statement. -/
theorem ReadsBack.stands {free : Bool} (h : d.ReadsBack room) : Stands free d.text := by
  cases d with
  | enumeration name values =>
    have hreadable : Readable room (enumeration name values) := trivial
    exact hreadable.stands
  | record name fields =>
    obtain ⟨-, -, hfields⟩ := h
    have hreadable : Readable room (record name fields) := fun f hf => ⟨(hfields f hf).type, fun c hc =>
      ⟨((hfields f hf).comment c hc).newline_not_mem, ((hfields f hf).comment c hc).return_not_mem⟩⟩
    exact hreadable.stands
  | array name range element =>
    obtain ⟨hrange, helement⟩ := h
    rw [text_array]
    exact stands_defined (isInertText_arrayText hrange.isInertText.isPhraseText helement.isInertText)

/-- The fields of a record and its closing clause, inside `k` steps of indentation. -/
def recordText (k : Nat) (name : Ident) (fields : List RecordField) : Text :=
  "record".toList ++ (blockOf RecordField.text (k + 1) fields
    ++ (lineBreak k ++ ("end".toList ++ clauseEnd ["record".toList, name.text])))

theorem recordText_eq (k : Nat) (name : Ident) (fields : List RecordField) :
    recordText k name fields = "record".toList ++ (stack (k + 1) (fields.map fun f => shift (k + 1) f.text)
      ++ (lineBreak k ++ ("end".toList ++ clauseEnd ["record".toList, name.text]))) :=
  rfl

/-- What a declaration says about its name, inside `k` steps of indentation. -/
def definition (k : Nat) : TypeDecl → Text
  | enumeration _ values => valuesText values ++ [';']
  | record name fields => recordText k name fields
  | array _ range element => arrayText range element ++ [';']

theorem newline_not_mem_defined {x : Text} (hx : IsInertText x) (name : Ident) :
    '\n' ∉ "type".toList ++ ' ' :: (name.text ++ ' ' :: ("is".toList ++ ' ' :: x)) ++ [';'] := by
  simp only [List.mem_append, List.mem_cons, List.not_mem_nil, not_or, or_false]
  exact ⟨⟨by decide, by decide, name.isRun.newline_not_mem, by decide, by decide, by decide,
    hx.newline_not_mem⟩, by decide⟩

/-- The fields of a record, nested. -/
theorem nested_fields {fields : List RecordField} (hne : fields ≠ [])
    (h : ∀ f ∈ fields, f.ReadsBack room) : '\n' :: indent 1 (join ['\n'] (fields.map (·.text)))
      = nested (join ['\n'] (fields.map (·.text))) := by
  have hjoin : (join ['\n'] (fields.map (·.text))).isEmpty = false := by
    rw [List.isEmpty_eq_false_iff]
    exact (isLined_join (by simpa using hne) (List.forall_mem_map.2 fun f hf => (h f hf).isLaid.lined)).ne_nil
  rw [nested, hjoin]
  rfl

/-- A declaration is made of lines. -/
theorem ReadsBack.isLined (h : d.ReadsBack room) : IsLined d.text := by
  have hrow : ∀ {x : Text}, IsInertText x → ∀ name : Ident, IsLined ("type".toList ++ ' ' :: (name.text
      ++ ' ' :: ("is".toList ++ ' ' :: x)) ++ [';']) := by
    intro x hx name
    have hsolid := (show IsRun "type".toList by decide).solid.between (solid_singleton (c := ';') (by decide))
      (' ' :: (name.text ++ ' ' :: ("is".toList ++ ' ' :: x)))
    rw [← List.append_assoc] at hsolid
    exact (isLine_of_solid hsolid (newline_not_mem_defined hx name)).isLined
  cases d with
  | enumeration name values =>
    rw [text_enumeration]
    exact hrow (isInertText_valuesText values) name
  | array name range element =>
    obtain ⟨hrange, helement⟩ := h
    rw [text_array]
    exact hrow (isInertText_arrayText hrange.isInertText.isPhraseText helement.isInertText) name
  | record name fields =>
    obtain ⟨hne, -, hfields⟩ := h
    have hhead := (passes_recordHead name 0 false).isRow _ (List.mem_singleton_self _)
    rw [text_record, nested_fields hne hfields]
    exact isLined_framed hhead.toIsLine
      (isTail_nested (isLined_block fun f hf => (hfields f hf).isLaid))
      (List.forall_mem_cons.2 ⟨by decide, List.forall_mem_singleton.2 name.isRun⟩)

/-- A declaration moved to the right. -/
theorem ReadsBack.shift_text (h : d.ReadsBack room) (k : Nat) : shift k d.text
    = "type".toList ++ ' ' :: (d.declaredName.text ++ ' ' :: ("is".toList ++ ' ' :: d.definition k)) := by
  cases d with
  | enumeration name values =>
    rw [text_enumeration, shift_of_not_mem (newline_not_mem_defined (isInertText_valuesText values) name)]
    simp only [declaredName, definition, List.append_assoc, List.cons_append]
  | array name range element =>
    obtain ⟨hrange, helement⟩ := h
    rw [text_array, shift_of_not_mem (newline_not_mem_defined (isInertText_arrayText hrange.isInertText.isPhraseText
      helement.isInertText) name)]
    simp only [declaredName, definition, List.append_assoc, List.cons_append]
  | record name fields =>
    obtain ⟨hne, -, hfields⟩ := h
    have hlaid : ∀ f ∈ fields, Laid true (fun _ => f.piece) f.text := fun f hf => (hfields f hf).isLaid
    have hruns : ∀ v ∈ ["record".toList, name.text], IsRun v :=
      List.forall_mem_cons.2 ⟨by decide, List.forall_mem_singleton.2 name.isRun⟩
    have hhead := ((passes_recordHead name 0 false).isRow _ (List.mem_singleton_self _)).newline_not_mem
    rw [text_record, nested_fields hne hfields, framed, shift_append, shift_of_not_mem hhead, shift_append,
      shift_nested_block hlaid, shift_newline, shift_of_not_mem (isLine_closing hruns).newline_not_mem]
    simp only [declaredName, definition, recordHead, recordText_eq, blockOf, List.append_assoc, List.cons_append]

/-- A declaration is one statement, wherever it stands. -/
theorem ReadsBack.isStatement (h : d.ReadsBack room) (k : Nat) : IsStatement true (shift k d.text) := by
  have htext := h.shift_text 0
  rw [shift_zero] at htext
  exact h.stands.isStatement ⟨"type".toList, _, htext, by decide, rfl, by decide⟩ k

/-! ## Reading a definition -/

/-- An enumeration is read from its values. -/
theorem readEnumeration_text {values : List Ident} (hne : values ≠ [])
    (hdistinct : Ident.distinct values = true) (name : Ident) :
    readEnumeration name (valuesText values ++ [';']) = some (enumeration name values) := by
  have hrender : render (commaJoin (values.map fun i => [word i.text]))
      = join ", ".toList (values.map (·.text)) := by
    rw [render_commaJoin, List.map_map]
    congr 1
    refine List.map_congr_left fun i _ => ?_
    simp
  have hphrase : ∀ i ∈ values, IsPhrase [word i.text] := fun i _ => isPhrase_word i.isName
  have hgroup := parenthesised?_group (u := [';'])
    (IsPhrase.commaJoin (List.forall_mem_map.2 hphrase) (some '(') (some ')') rfl rfl)
  have hreads : ∀ i ∈ values, Reads (fun t => Ident.ofText? (trim t)) (render [word i.text]) i := by
    intro i _ g g' hg hg'
    simp [i.isRun.solid.trim_pad hg hg', i.ofText?_text]
  have hvalues := mapM_splitOuter_commaJoin hne hphrase (fun _ _ => by simp [Lacks, spells]) hreads
  have hempty : values.isEmpty = false := by simpa using hne
  have hend : trim [';'] = [';'] := by decide
  rw [hrender] at hgroup hvalues
  rw [text_group, hrender] at hgroup
  rw [readEnumeration, valuesText, hgroup]
  simp only [hend, hvalues, enumeration?, hempty, hdistinct, Option.bind_eq_bind, Option.bind_some,
    bne_self_eq_false, Bool.false_eq_true, if_false, Bool.not_false, Bool.and_self, if_true]

/-- An array is read from its range and the type of its elements. -/
theorem readArray_text {range : Range} {element : TypeMark} (hrange : range.ReadsBack room)
    (helement : element.ReadsBack room) (name : Ident) :
    readArray room name (arrayText range element ++ [';']) = some (array name range element) := by
  have hgroup := parenthesised?_group (u := ' ' :: ("of".toList ++ ' ' :: (element.text ++ [';'])))
    (hrange.isPhrase (some '(') (some ')') rfl rfl)
  rw [text_group, range.render_tokens] at hgroup
  have harray := @afterWord?_blank "array".toList (('(' :: (range.text ++ [')']))
    ++ ' ' :: ("of".toList ++ ' ' :: (element.text ++ [';']))) (by decide) rfl
  have hsolid := helement.solid.head_append [';']
  have hof : afterWord? "of".toList (' ' :: ("of".toList ++ ' ' :: (element.text ++ [';'])))
      = some (element.text ++ [';']) := by
    rw [← List.singleton_append, afterWord?_pad (by decide)]
    exact afterWord?_blank (by decide) hsolid
  have htext : arrayText range element ++ [';'] = "array".toList ++ ' ' :: (('(' :: (range.text ++ [')']))
      ++ ' ' :: ("of".toList ++ ' ' :: (element.text ++ [';']))) := by
    simp only [arrayText, List.append_assoc, List.cons_append, List.nil_append]
  rw [readArray, htext, harray]
  simp only [hgroup, hof, hrange.read_text, dropFinal?_append, helement.read_text,
    Option.bind_eq_bind, Option.bind_some]

/-- A record is read from its fields. -/
theorem readRecord_block {name : Ident} {fields : List RecordField} (h : (record name fields).ReadsBack room)
    {whole : Text} (hwhole : isConstruct whole = true) (k : Nat) :
    readRecord room name whole (recordText k name fields) = some (record name fields) := by
  obtain ⟨hne, hdistinct, hfields⟩ := h
  have hlaid : ∀ f ∈ fields, Laid true (fun _ => f.piece) f.text := fun f hf => (hfields f hf).isLaid
  have hrecord : IsRun "record".toList := by decide
  have hline := atLineEnd_stack (k + 1) (fields.map fun f => shift (k + 1) f.text) (atLineEnd_lineBreak k
    ("end".toList ++ clauseEnd ["record".toList, name.text]))
  have hafter := afterWord?_first hrecord hrecord hline.ident
  have hsolid : ∀ x ∈ fields.map fun f => shift (k + 1) f.text, Solid x :=
    List.forall_mem_map.2 fun f hf => ((hlaid f hf).shows (k + 1)).solid
  have hbody := Text.beforeEnd?_stack true hrecord name.isRun hsolid (k + 1) k
  have hpieces := (region_trimStart_block hlaid (k + 1)).pieces?
  have hread : (fields.map RecordField.piece).mapM (readField room) = some (fields.map some) := by
    refine mapM_of_forall₂ ?_
    rw [List.forall₂_map_left_iff, List.forall₂_map_right_iff, List.forall₂_same]
    exact fun f hf => (hfields f hf).readField
  have hempty : fields.isEmpty = false := by simpa using hne
  have hid : (fields.map some).filterMap id = fields := by simp
  rw [sameWord_self, if_pos rfl] at hafter
  rw [readRecord, hwhole, recordText_eq]
  rw [blockOf] at hpieces
  simp only [hafter, hbody, hpieces, hread, hid, record?, hempty, hdistinct, Bool.not_true,
    Bool.false_eq_true, if_false, Option.bind_eq_bind, Option.bind_some, Bool.not_false, Bool.and_self,
    if_true]

/-- **A declaration is read from its text, wherever it stands.** -/
theorem ReadsBack.read_shift (h : d.ReadsBack room) (k : Nat)
    (hfits : fits Limits.blockBytes (shift k d.text) = true) : read room (shift k d.text) = some d := by
  have hstatement := h.isStatement k
  have hname := d.declaredName.isRun.solid.head_append (' ' :: ("is".toList ++ ' ' :: d.definition k))
  have hafter := afterWord?_blank (show IsRun "type".toList by decide) hname
  have hsplit := splitAtWord?_behind (show IsRun "is".toList by decide) d.declaredName.isRun
    (u := ' ' :: d.definition k) (by rw [sameWord_comm]; exact d.declaredName.sameWord_eq_false (by decide +kernel))
    rfl
  have htrim : trim (d.declaredName.text ++ [' ']) = d.declaredName.text := by
    have := d.declaredName.isRun.solid.trim_pad isPad_nil isPad_blank
    rwa [List.nil_append] at this
  have hblank : (d.definition k).head?.any isBlank = false := by cases d <;> rfl
  have hstart : trimStart (' ' :: d.definition k) = d.definition k := trimStart_blank hblank
  rw [read, trim_eq_self hstatement.solid.toTrimmed, hfits]
  simp only [Bool.not_true, Bool.false_eq_true, if_false, h.shift_text, hafter, hsplit, htrim,
    d.declaredName.ofText?_text, hstart, Option.bind_eq_bind, Option.bind_some]
  rw [← h.shift_text]
  have hrecord : IsRun "record".toList := by decide
  cases d with
  | enumeration name values =>
    have hstarts : startsWith "record".toList (valuesText values ++ [';']) = false := by
      rw [startsWith, valuesText, List.cons_append, afterWord?_eq_none hrecord (by decide) (by decide)]
      rfl
    rw [definition, hstarts, if_neg (by decide), (isInertText_valuesText values).stripComments]
    exact readEnumeration_text h.1 h.2 name
  | array name range element =>
    obtain ⟨hrange, helement⟩ := h
    have hinert := isInertText_arrayText hrange.isInertText.isPhraseText helement.isInertText
    have hstarts : startsWith "record".toList (arrayText range element ++ [';']) = false := by
      rw [startsWith, arrayText, List.append_assoc, afterWord?_first hrecord (by decide) (by rfl)]
      rfl
    rw [definition, hstarts, if_neg (by decide), hinert.stripComments]
    exact readArray_text hrange helement name
  | record name fields =>
    have hline := atLineEnd_stack (k + 1) (fields.map fun f => shift (k + 1) f.text) (atLineEnd_lineBreak k
      ("end".toList ++ clauseEnd ["record".toList, name.text]))
    have hstarts : startsWith "record".toList (recordText k name fields) = true := by
      rw [startsWith, recordText_eq, afterWord?_first hrecord hrecord hline.ident]
      rfl
    rw [definition, hstarts, if_pos rfl]
    exact readRecord_block h hstatement.isConstruct k

end TypeDecl
end CanonicalVhdl
