import CanonicalVhdl.Proofs.Concurrent.Instance
import CanonicalVhdl.Proofs.Sequential.Layout

/-!
# The layout of concurrent code

As in sequential code, the body of a construct stands in a block.  Assignments and instances
are single statements; processes and generated regions are constructs, whose interiors are
blocks.

## Main definitions

* `ProcessStatement.ReadsBack` — the parts of a process read back.
* `Concurrent.IsRegion room c` — code that a reader with some room gives back.
* `Concurrent.block k c` — the elements of `c` with `k` steps of indentation.

## Main statements

* `Stands.isStatement` — a statement stays one when it is moved to the right.
* `Concurrent.IsElement.isLaid` — every element is one piece of a region, at every depth
  of indentation.
-/

namespace CanonicalVhdl

open Text Token

/-! ## Statements moved to the right -/

theorem rows_blanks_append (n : Nat) (t : Text) : rows (List.replicate n ' ' ++ t) = rows t := by
  by_cases h : '\n' ∈ t
  · obtain ⟨a, b, rfl, ha⟩ := List.eq_append_cons_of_mem h
    rw [← List.append_assoc, rows_append, rows_append, rows_blanks n ha]
  · exact rows_blanks n h

theorem shift_newline (k : Nat) (t : Text) : shift k ('\n' :: t) = lineBreak k ++ shift k t := by
  rw [← List.singleton_append, shift_append]
  simp [shift]

/-- Moving a text to the right keeps its rows. -/
theorem rows_shift (k : Nat) (t : Text) : rows (shift k t) = rows t := by
  obtain ⟨hjoin, hlines⟩ := join_splitOn '\n' t
  generalize splitOn '\n' t = parts at hjoin hlines
  subst hjoin
  induction parts with
  | nil => rfl
  | cons l parts ih =>
    obtain ⟨hl, hparts⟩ := List.forall_mem_cons.1 hlines
    by_cases hnil : parts = []
    · rw [hnil, join, List.intercalate_singleton, shift_of_not_mem hl]
    · rw [join_cons_of_ne_nil l hnil, shift_append, shift_newline, shift_of_not_mem hl, lineBreak,
        List.cons_append, rows_append, rows_append, rows_blanks_append, ih hparts]

/-- Moving a text to the right does not change its first character. -/
theorem head?_shift (k : Nat) (t : Text) : (shift k t).head? = t.head? := by
  cases t with
  | nil => rfl
  | cons c t =>
    rw [← List.singleton_append, shift_append]
    by_cases hc : c = '\n'
    · subst hc
      rfl
    · have hone : shift k [c] = [c] := by simp [shift, hc]
      rw [hone]
      rfl

/-- Whether a word that divides nothing starts a text. -/
def StartsStatement (t : Text) : Prop :=
  ∃ w r, t = w ++ r ∧ IsName w ∧ r.head?.any isIdentChar = false
    ∧ dividingWords.contains (fold w) = false

/-- A label has no part in the structure of statements. -/
theorem Ident.isInert_label (i : Ident) :
    ∀ t ∈ [word i.text, mark ':', mark ' '], Nesting.isInert t = true := by
  have hname : Nesting.isInert (word i.text) = true := by
    simp only [Nesting.isInert, i.not_mem_structureWords]
    rfl
  exact List.forall_mem_cons.2 ⟨hname, by decide⟩

/-- A name starts a statement. -/
theorem Ident.startsStatement (i : Ident) {r : Text} (hr : r.head?.any isIdentChar = false) :
    StartsStatement (i.text ++ r) :=
  ⟨i.text, r, rfl, i.isName, hr, i.not_mem_dividingWords⟩

/-- **A statement stays one when it is moved to the right.** -/
theorem Stands.isStatement {free : Bool} {t : Text} (h : Stands free t) (hfirst : StartsStatement t)
    (k : Nat) : IsStatement free (shift k t) := by
  have hlast : (shift k t).getLast? = some ';' := by
    obtain ⟨init, rfl⟩ := List.getLast?_eq_some_iff.1 h.last
    have hsemicolon : shift k [';'] = [';'] := shift_of_not_mem (by decide) k
    rw [shift_append, hsemicolon, List.getLast?_concat]
  refine ⟨?_, hlast, fun {depth header position before} u hheader hbefore => ?_⟩
  · obtain ⟨w, r, rfl, hw, hr, hdividing⟩ := hfirst
    refine ⟨w, shift k r, ?_, hw, ?_, hdividing⟩
    · rw [shift_append, shift_of_not_mem hw.isRun.newline_not_mem]
    · rwa [head?_shift]
  · have hfinishes := h.finishes depth header hheader
    rw [← rows_shift k] at hfinishes
    exact hfinishes.extentFrom hlast hbefore u position

/-! ## Lines -/

/-- A line with a character behind it. -/
theorem Text.IsLine.concat {l : Text} (h : IsLine l) {c : Char} (hnewline : c ≠ '\n')
    (hreturn : c ≠ '\r') : IsLine (l ++ [c]) := by
  refine ⟨by simp, ?_, ?_⟩
  · rw [List.mem_append, not_or, List.mem_singleton]
    exact ⟨h.newline_not_mem, Ne.symm hnewline⟩
  · rw [List.getLast?_concat]
    exact fun heq => hreturn (Option.some.inj heq)

/-- Lines with a character behind the last one. -/
theorem Text.IsLined.concat {t : Text} (h : IsLined t) {c : Char} (hnewline : c ≠ '\n')
    (hreturn : c ≠ '\r') : IsLined (t ++ [c]) := by
  obtain ⟨ls, hne, hls, rfl⟩ := h
  induction ls with
  | nil => exact absurd rfl hne
  | cons l ls ih =>
    obtain ⟨hl, hls⟩ := List.forall_mem_cons.1 hls
    by_cases hnil : ls = []
    · rw [hnil, join, List.intercalate_singleton]
      exact (hl.concat hnewline hreturn).isLined
    · rw [join_cons_of_ne_nil l hnil, List.append_assoc, List.cons_append]
      exact hl.cons (ih hnil hls)

/-- Lines with a comma behind each but the last. -/
theorem Text.isLined_commaJoin {ls : List Text} (hne : ls ≠ []) (h : ∀ l ∈ ls, IsLine l) :
    IsLined (join ",\n".toList ls) := by
  have hcomma : ",\n".toList = [',', '\n'] := rfl
  induction ls with
  | nil => exact absurd rfl hne
  | cons l ls ih =>
    obtain ⟨hl, hls⟩ := List.forall_mem_cons.1 h
    cases ls with
    | nil =>
      rw [join, List.intercalate_singleton]
      exact hl.isLined
    | cons m ms =>
      have hjoin : join ",\n".toList (l :: m :: ms)
          = (l ++ [',']) ++ '\n' :: join ",\n".toList (m :: ms) := by
        rw [join, List.intercalate_cons_cons, hcomma, join]
        simp
      rw [hjoin]
      exact (hl.concat (by decide) (by decide)).cons (ih (List.cons_ne_nil m ms) hls)

/-! ## Assignments -/

namespace ConcurrentStatement

variable {room : Nat} {target : Reference}

theorem newline_not_mem_assignment (htarget : target.ReadsBack room) {value : Waveform}
    (hvalue : value.ReadsBack room) : '\n' ∉ (assignment target value).text := by
  rw [text_assignment]
  simp only [List.mem_append, List.mem_cons, List.not_mem_nil, not_or, or_false]
  exact ⟨⟨htarget.newline_not_mem, by decide, by decide, by decide,
    hvalue.readable.isFlatText.newline_not_mem⟩, by decide⟩

theorem startsStatement_assignment (htarget : target.ReadsBack room) (value : Waveform) :
    StartsStatement (assignment target value).text := by
  obtain ⟨n, a, b, c, hsplit, -, -, -, -, hhead⟩ :=
    Reference.exists_mark htarget ('=' :: ' ' :: (value.text ++ [';']))
  have htext : (assignment target value).text = n.text ++ (a ++ c :: b) := by
    rw [text_assignment, ← hsplit]
    simp
  rw [htext]
  exact n.startsStatement hhead

end ConcurrentStatement

/-! ## Instances -/

namespace Instance

variable {room : Nat} {i : Instance}

/-- A map stands on lines of its own. -/
theorem isTail_mapText {keyword : Text} {associations : List Association}
    (hkeyword : keyword ∈ mapWords) (h : ∀ a ∈ associations, a.Readable room) :
    IsTail (mapText keyword associations) := by
  by_cases hnil : associations = []
  · rw [hnil]
    exact .inl rfl
  have hempty : associations.isEmpty = false := by simpa using hnil
  have hsteps : ∀ {l : Text}, IsLine l → IsLine (indentStep ++ l) := by
    intro l hl
    refine ⟨by simp [hl.ne_nil], ?_, ?_⟩
    · rw [List.mem_append, not_or]
      exact ⟨by decide, hl.newline_not_mem⟩
    · rw [List.getLast?_append_of_ne_nil _ hl.ne_nil]
      exact hl.last_ne
  have hhead : ∀ w ∈ mapWords, IsLine (indentStep ++ (w ++ " map (".toList)) := by
    have key : ∀ w ∈ mapWords, w ++ " map (".toList ≠ [] ∧ '\n' ∉ w ++ " map (".toList
        ∧ (w ++ " map (".toList).getLast? ≠ some '\r' := by decide
    exact fun w hw => hsteps ⟨(key w hw).1, (key w hw).2.1, (key w hw).2.2⟩
  have hentries : IsLined (join ",\n".toList
      (associations.map fun a => indentStep ++ indentStep ++ a.text)) := by
    refine isLined_commaJoin (by simpa using hnil) fun l hl => ?_
    obtain ⟨a, ha, rfl⟩ := List.mem_map.1 hl
    obtain ⟨hinert, hsolid⟩ := (h a ha).isInertText_solid
    rw [List.append_assoc]
    exact hsteps (hsteps (isLine_of_solid hsolid hinert.newline_not_mem))
  have hclose : IsLine (indentStep ++ [')']) := ⟨by decide, by decide, by decide⟩
  have hmap : " map (\n".toList = " map (".toList ++ ['\n'] := rfl
  have htext : mapText keyword associations = '\n' :: ((indentStep ++ (keyword ++ " map (".toList))
      ++ '\n' :: (join ",\n".toList (associations.map fun a => indentStep ++ indentStep ++ a.text)
        ++ '\n' :: (indentStep ++ [')']))) := by
    rw [mapText, hempty, hmap]
    simp only [Bool.false_eq_true, if_false, List.append_assoc, List.cons_append, List.nil_append]
  rw [htext]
  exact ((hhead keyword hkeyword).cons (hentries.append hclose.isLined)).tail

theorem isLined_text (h : i.Readable room) : IsLined i.text := by
  have hgenerics := isTail_mapText (show "generic".toList ∈ ["generic".toList, "port".toList] by decide)
    h.generics
  have hports := isTail_mapText (show "port".toList ∈ ["generic".toList, "port".toList] by decide) h.ports
  have hmaps := hgenerics.append hports
  have hlined := (i.isRow_head.1.toIsLine.isLined.append_tail hmaps).concat (c := ';') (by decide)
    (by decide)
  rw [text_eq]
  simpa only [List.append_assoc] using hlined

theorem startsStatement (i : Instance) : StartsStatement i.text := by
  rw [text_eq, head, List.append_assoc]
  exact i.label.startsStatement rfl

end Instance

/-! ## Processes -/

namespace ProcessStatement

/-- Names with commas between them, as in a sensitivity list. -/
def nameTokens : List Ident → List (List Token)
  | [] => []
  | n :: ns => [word n.text] :: ns.map fun n => [mark ' ', word n.text]

/-- The tokens of the line that a process starts with, its label aside. -/
def lineTokens (p : ProcessStatement) : List Token :=
  word "process".toList
    :: if p.sensitivity.isEmpty then [] else [group (commas (nameTokens p.sensitivity))]

theorem render_commas_nameTokens (names : List Ident) :
    render (commas (nameTokens names)) = join ", ".toList (names.map (·.text)) := by
  have hcomma : ", ".toList = [',', ' '] := rfl
  have hrest : ∀ ns : List Ident,
      render ((ns.map fun n => [mark ' ', word n.text]).flatMap (mark ',' :: ·))
        = ns.flatMap fun n => ',' :: ' ' :: n.text := by
    intro ns
    induction ns with
    | nil => rfl
    | cons n ns ih => simp [ih]
  have hjoin : ∀ (n : Ident) (ns : List Ident), join ", ".toList ((n :: ns).map (·.text))
      = n.text ++ ns.flatMap fun n => ',' :: ' ' :: n.text := by
    intro n ns
    induction ns generalizing n with
    | nil => simp [join]
    | cons m ms ih =>
      have hstep : join ", ".toList ((n :: m :: ms).map (·.text))
          = n.text ++ (',' :: ' ' :: join ", ".toList ((m :: ms).map (·.text))) := by
        simp [join, hcomma]
      rw [hstep, ih, List.flatMap_cons]
      simp
  cases names with
  | nil => rfl
  | cons n ns =>
    rw [nameTokens, commas, render_append, hrest, hjoin, render_cons, render_nil, text_word,
      List.append_nil]

theorem isPhrase_lacks_nameTokens (names : List Ident) :
    ∀ ts ∈ nameTokens names, IsPhrase ts ∧ Lacks [','] ts := by
  have hlacks : ∀ n : Ident, (word n.text).spells [','] = false := fun _ => rfl
  cases names with
  | nil => exact fun _ h => absurd h List.not_mem_nil
  | cons n ns =>
    refine List.forall_mem_cons.2 ⟨⟨isPhrase_word n.isName, List.forall_mem_singleton.2 (hlacks n)⟩, ?_⟩
    refine List.forall_mem_map.2 fun m _ => ⟨?_, ?_⟩
    · intro before next _ hn
      exact ⟨fits_blank, isPhrase_word m.isName _ _ rfl hn⟩
    · exact List.forall_mem_cons.2 ⟨by decide, List.forall_mem_singleton.2 (hlacks m)⟩

theorem isPhrase_lineTokens (p : ProcessStatement) : IsPhrase p.lineTokens := by
  have hprocess : IsName "process".toList := by decide
  rw [lineTokens]
  split
  · exact isPhrase_word hprocess
  · have hnames := isPhrase_lacks_nameTokens p.sensitivity
    exact (isPhrase_commas fun ts hts => (hnames ts hts).1).call hprocess

/-- The tokens of the line that a process starts with. -/
def headTokens (p : ProcessStatement) : List Token :=
  (p.label.elim [] fun label => [word label.text, mark ':', mark ' ']) ++ p.lineTokens

/-- The sensitivity list, in parentheses unless it is empty. -/
def sensitivityText (p : ProcessStatement) : Text :=
  if p.sensitivity.isEmpty then [] else '(' :: (render (commas (nameTokens p.sensitivity)) ++ [')'])

theorem render_lineTokens (p : ProcessStatement) :
    render p.lineTokens = "process".toList ++ p.sensitivityText := by
  rw [lineTokens, render_cons, text_word, sensitivityText]
  split
  · rfl
  · rw [render_cons, text_group, render_nil, List.append_nil]

theorem render_headTokens (p : ProcessStatement) : render p.headTokens = p.head := by
  rw [headTokens, head, render_append, render_lineTokens, sensitivityText, render_commas_nameTokens]
  cases p.label with
  | none => rfl
  | some label => simp [Option.elim]

theorem exists_headTokens (p : ProcessStatement) : ∃ w ts, p.headTokens = word w :: ts ∧ IsName w
    ∧ dividingWords.contains (Text.fold w) = false := by
  cases hlabel : p.label with
  | none =>
    rw [headTokens, hlabel, lineTokens]
    exact ⟨_, _, rfl, by decide, by decide⟩
  | some label =>
    rw [headTokens, hlabel]
    exact ⟨_, _, rfl, label.isName, label.not_mem_dividingWords⟩

theorem isPhrase_headTokens (p : ProcessStatement) : IsPhrase p.headTokens := by
  rw [headTokens]
  cases p.label with
  | none => exact p.isPhrase_lineTokens
  | some label => exact p.isPhrase_lineTokens.labelled label.isName

/-- The line that a process starts with opens a construct. -/
theorem after_headTokens (p : ProcessStatement) (depth : Nat) (header : Bool) :
    Nesting.after ⟨depth, false, header⟩ p.headTokens = some ⟨depth + 1, false, false⟩ := by
  have hline : Nesting.after ⟨depth, false, header⟩ p.lineTokens = some ⟨depth + 1, false, false⟩ := by
    rw [lineTokens]
    split <;> rfl
  rw [headTokens]
  cases p.label with
  | none => exact hline
  | some label =>
    rw [Option.elim, Nesting.after_append, Nesting.after_eq_self rfl label.isInert_label,
      Option.bind_some, hline]

/-- Whether a statement is a declaration or a comment line that a reader with some room
gives back. -/
inductive Declares (room : Nat) : Statement → Prop
  | declaration {d : ObjectDecl} : d.ReadsBack room → Declares room (.declaration d)
  | comment {c : Comment} : IsCommentText c.text → Declares room (.comment c)

theorem Declares.readsBack {room : Nat} {s : Statement} (h : Declares room s) : s.ReadsBack room := by
  cases h with
  | declaration h => exact .declaration h
  | comment h => exact .comment h

/-- Whether the parts of a process read back. -/
structure ReadsBack (room : Nat) (p : ProcessStatement) : Prop where
  /-- No signal is named twice. -/
  distinct : Ident.distinct p.sensitivity = true
  /-- What stands before `begin` is declarations and comment lines. -/
  declarations : ∀ s ∈ p.declarations, Declares room s
  /-- The body reads back. -/
  body : p.body.IsRegion room

variable {room : Nat} {p : ProcessStatement}

/-- The declarations and comment lines of a process, as a region. -/
def declarativePart (p : ProcessStatement) : Sequential :=
  .region (p.declarations.map .simple)

theorem text_declarativePart (p : ProcessStatement) :
    p.declarativePart.text = join ['\n'] (p.declarations.map (·.text)) := by
  rw [Sequential.text_eq_join, declarativePart, Sequential.elements, List.map_map]
  rfl

theorem ReadsBack.isBlock_declarativePart (h : p.ReadsBack room) : p.declarativePart.IsBlock := by
  intro e he
  obtain ⟨s, hs, rfl⟩ := List.mem_map.1 he
  exact Sequential.isLaid_simple (h.declarations s hs).readsBack

/-- What stands between the first line of a process and its closing clause. -/
def interior (k : Nat) (p : ProcessStatement) : Text :=
  Sequential.block (k + 1) p.declarativePart
    ++ (lineBreak k ++ ("begin".toList ++ Sequential.block (k + 1) p.body))

/-- A process, moved to the right. -/
theorem ReadsBack.shift_text (h : p.ReadsBack room) (k : Nat) :
    shift k p.text = p.head ++ (p.interior k ++ (lineBreak k ++ ("end".toList
      ++ clauseEnd ("process".toList :: p.label.toList.map (·.text))))) := by
  have hclosing : '\n' ∉ "end".toList
      ++ clauseEnd ("process".toList :: p.label.toList.map (·.text)) := by
    rw [List.mem_append, not_or]
    refine ⟨by decide, newline_not_mem_clauseEnd (List.forall_mem_cons.2 ⟨by decide, ?_⟩)⟩
    exact List.forall_mem_map.2 fun label _ => label.isRun
  have hdeclarations := h.isBlock_declarativePart.shift_nested k
  have hbegin : shift k "begin".toList = "begin".toList := shift_of_not_mem (by decide) k
  rw [text_declarativePart] at hdeclarations
  rw [text_eq_framed, framed, shift_append, shift_of_not_mem p.isRow_head.newline_not_mem, shift_append,
    shift_append, hdeclarations, shift_newline, shift_newline, shift_append, hbegin,
    h.body.isBlock.shift_nested, shift_of_not_mem hclosing, interior]

theorem ReadsBack.isLined_text (h : p.ReadsBack room) : IsLined p.text := by
  have hruns : ∀ k ∈ "process".toList :: p.label.toList.map (·.text), IsRun k :=
    List.forall_mem_cons.2 ⟨by decide, List.forall_mem_map.2 fun label _ => label.isRun⟩
  have hbegin : IsLine "begin".toList := ⟨by decide, by decide, by decide⟩
  have hdeclarations := isTail_nested h.isBlock_declarativePart.lined
  have hbody := hbegin.isLined.append_tail (isTail_nested h.body.isBlock.lined)
  have hclosing := (isLine_closing hruns).isLined.tail
  rw [text_declarativePart] at hdeclarations
  rw [text_eq_framed, framed]
  refine p.isRow_head.toIsLine.isLined.append_tail ?_
  exact (hdeclarations.append hbody.tail).append hclosing

/-- After the interior of a process the same constructs are open as before. -/
theorem ReadsBack.isInterior (h : p.ReadsBack room) (k : Nat) :
    IsInterior true p.body.endsWithComment (p.interior k) := by
  have hbegin : IsInterior true false (lineBreak k ++ render [word "begin".toList]) :=
    isInterior_tokens (isPad_lineBreak k) (atLineEnd_lineBreak k []) (List.cons_ne_nil _ _)
      (fun _ _ hopens hcloses _ => isPhrase_word (by decide) _ _ hopens hcloses)
      (fun depth header hheader => ⟨header, hheader, rfl⟩)
  have hdeclarations := h.isBlock_declarativePart.isInterior (k + 1)
  have hinner := hdeclarations.append (hbegin.append (h.body.isBlock.isInterior (k + 1))
    fun _ h => nomatch h) fun hnil => nomatch hnil
  rw [interior]
  simpa only [render_cons, render_nil, text_word, List.append_nil, List.append_assoc] using hinner

/-- **A process is one statement**, wherever it stands. -/
theorem ReadsBack.isStatement {free : Bool} (h : p.ReadsBack room) (k : Nat) :
    IsStatement free (shift k p.text) := by
  obtain ⟨w, ts, htokens, hw, hdividing⟩ := p.exists_headTokens
  have hphrase := p.isPhrase_headTokens
  have hafter := p.after_headTokens
  rw [h.shift_text, ← p.render_headTokens]
  rw [htokens] at hphrase hafter ⊢
  refine isStatement_construct hphrase hw hdividing (fun depth header _ => hafter depth header)
    (h.isInterior k) (isPad_lineBreak k) (List.cons_ne_nil _ _) (fun _ => atLineEnd_lineBreak k [])
    (by decide) ?_
  exact List.forall_mem_map.2 fun label _ => ⟨label.isRun, label.not_mem_structureWords⟩

end ProcessStatement

/-! ## Code that reads back -/

namespace Concurrent

/-- What an element is in a region with `k` steps of indentation. -/
def piece (k : Nat) : Concurrent → Piece
  | simple (.comment c) => .comment c.text
  | element => .code (shift k element.text) none

/-- Whether an element is one piece of a region, at every depth of indentation. -/
abbrev IsLaid (c : Concurrent) : Prop :=
  Laid false (piece · c) c.text

mutual

/-- Code that a reader with some room gives back as a region. -/
inductive IsRegion : Nat → Concurrent → Prop
  | single {room : Nat} {c : Concurrent} : IsElement room c → IsRegion (room + 1) c
  | several {room : Nat} {cs : List Concurrent} : cs.length ≠ 1 → (∀ c ∈ cs, IsElement room c) →
    IsRegion (room + 1) (.region cs)

/-- Code that a reader with some room gives back as one element of a region. -/
inductive IsElement : Nat → Concurrent → Prop
  | simple {room : Nat} {s : ConcurrentStatement} : s.ReadsBack room → IsElement room (.simple s)
  | process {room : Nat} {p : ProcessStatement} : p.ReadsBack room → IsElement (room + 1) (.process p)
  | component {room : Nat} {i : Instance} : i.Readable room → IsElement room (.component i)
  | generate {room : Nat} {label parameter : Ident} {range : Range} {body : Concurrent} :
    range.ReadsBack room → IsRegion room body →
    IsElement (room + 1) (.generate label parameter range body)

end

/-! ## Blocks -/

/-- The text of concurrent code is made of the texts of its elements. -/
theorem text_eq_join (c : Concurrent) : c.text = join ['\n'] (c.elements.map text) := by
  have hsingle : ∀ c : Concurrent, c.text = join ['\n'] ([c].map text) := fun c => by simp [join]
  cases c with
  | region cs =>
    have htext : (region cs).text = join ['\n'] (texts cs) := rfl
    rw [htext, texts_eq, elements]
  | _ => exact hsingle _

/-- The elements of some code, each on lines of its own, with `k` steps of indentation. -/
def block (k : Nat) (c : Concurrent) : Text :=
  blockOf text k c.elements

/-- Whether every element of some code is one piece of a region. -/
def IsBlock (c : Concurrent) : Prop :=
  ∀ e ∈ c.elements, e.IsLaid

/-- Whether a comment ends the last line of the code. -/
def endsWithComment (k : Nat) (c : Concurrent) : Bool :=
  (c.elements.getLast?.map (piece k)).any Piece.endsLine

namespace IsBlock

variable {c : Concurrent}

theorem lined (h : c.IsBlock) : c.text = [] ∨ IsLined c.text := by
  rw [text_eq_join]
  exact isLined_block h

/-- A nested block, moved to the right. -/
theorem shift_nested (h : c.IsBlock) (k : Nat) : shift k (nested c.text) = block (k + 1) c := by
  rw [text_eq_join]
  exact shift_nested_block h k

theorem region (h : c.IsBlock) (k : Nat) : Region false (c.elements.map (piece k)) (block k c) := by
  have := region_block h k isPad_nil atLineEnd_nil
  rwa [List.append_nil] at this

theorem isInterior (h : c.IsBlock) (k : Nat) :
    IsInterior false (c.endsWithComment k) (block k c) :=
  isInterior_block h k

theorem solid (h : c.IsBlock) (k : Nat) {x : Text} (hx : Solid x) : Solid (x ++ block k c) :=
  solid_block h k hx

end IsBlock

/-! ## Elements are laid -/

section Simple

variable {room : Nat} {s : ConcurrentStatement}

theorem isLaid_simple (h : s.ReadsBack room) : (simple s).IsLaid := by
  cases h with
  | comment hc =>
    rename_i c
    have hline : '\n' ∉ ('-' :: '-' :: c.text) := by
      rw [List.mem_cons, List.mem_cons, not_or, not_or]
      exact ⟨by decide, by decide, hc.newline_not_mem⟩
    have htext : (simple (.comment c)).text = '-' :: '-' :: c.text := rfl
    have hpiece : ∀ k, (simple (.comment c)).piece k = .comment c.text := fun _ => rfl
    refine ⟨?_, fun k => ?_⟩
    · rw [htext]
      exact (isLine_of_solid hc.solid_line hline).isLined
    · rw [htext, hpiece, shift_of_not_mem hline]
      exact .comment hc
  | assignment htarget hvalue hfits =>
    rename_i target value
    have hstands : Stands false (ConcurrentStatement.assignment target value).text :=
      ConcurrentStatement.Readable.stands (s := .assignment target value) ⟨htarget, hvalue.readable⟩ rfl
    have hsolid := ConcurrentStatement.solid_assignment htarget value
    have hline := ConcurrentStatement.newline_not_mem_assignment htarget hvalue
    exact ⟨(isLine_of_solid hsolid hline).isLined, fun k =>
      .code (hstands.isStatement (ConcurrentStatement.startsStatement_assignment htarget value) k)⟩

theorem isLaid_process {p : ProcessStatement} (h : p.ReadsBack room) : (process p).IsLaid where
  lined := h.isLined_text
  shows k := .code (h.isStatement k)

theorem isLaid_component {i : Instance} (h : i.Readable room) : (component i).IsLaid where
  lined := Instance.isLined_text h
  shows k := .code (h.stands.isStatement i.startsStatement k)

end Simple

section Generate

variable {room : Nat} {label parameter : Ident} {range : Range} {body : Concurrent}

/-- The tokens of the line that a generated region starts with. -/
def generateTokens (label parameter : Ident) (range : Range) : List Token :=
  word label.text :: mark ':' :: mark ' ' :: header "for".toList [' ']
    (Sequential.loopTokens parameter range) "generate".toList

/-- The line that a generated region starts with, its label aside. -/
def generateLine (parameter : Ident) (range : Range) : Text :=
  "for".toList ++ ' ' :: ((parameter.text ++ ' ' :: ("in".toList ++ ' ' :: range.text))
    ++ ' ' :: "generate".toList)

theorem render_generateTokens (label parameter : Ident) (range : Range) :
    render (generateTokens label parameter range)
      = label.text ++ ':' :: ' ' :: generateLine parameter range := by
  rw [generateTokens, render_cons, render_cons, render_cons, render_header, Sequential.render_loopTokens,
    text_word, text_mark, text_mark, generateLine]
  simp only [List.append_assoc, List.cons_append, List.nil_append]

theorem newline_not_mem_generateLine (hr : range.ReadsBack room) :
    '\n' ∉ label.text ++ ':' :: ' ' :: generateLine parameter range := by
  rw [generateLine]
  simp only [List.mem_append, List.mem_cons, not_or]
  exact ⟨label.isRun.newline_not_mem, by decide, by decide, by decide, by decide,
    ⟨parameter.isRun.newline_not_mem, by decide, by decide, by decide, hr.newline_not_mem⟩, by decide,
    by decide⟩

theorem text_generate_eq :
    (generate label parameter range body).text
      = (label.text ++ ':' :: ' ' :: generateLine parameter range)
        ++ (nested body.text ++ '\n' :: ("end".toList ++ clauseEnd ["generate".toList, label.text])) := by
  rw [text_generate, framed, generateLine]
  simp only [List.append_assoc, List.cons_append]

/-- A generated region, moved to the right. -/
theorem shift_generate (hr : range.ReadsBack room) (hb : body.IsBlock) (k : Nat) :
    shift k (generate label parameter range body).text
      = (label.text ++ ':' :: ' ' :: generateLine parameter range) ++ (block (k + 1) body
        ++ (lineBreak k ++ ("end".toList ++ clauseEnd ["generate".toList, label.text]))) := by
  have hclosing : '\n' ∉ "end".toList ++ clauseEnd ["generate".toList, label.text] := by
    rw [List.mem_append, not_or]
    refine ⟨by decide, newline_not_mem_clauseEnd (List.forall_mem_cons.2 ⟨by decide, ?_⟩)⟩
    exact List.forall_mem_singleton.2 label.isRun
  rw [text_generate_eq, shift_append, shift_of_not_mem (newline_not_mem_generateLine hr), shift_append,
    hb.shift_nested, shift_newline, shift_of_not_mem hclosing]

/-- **A generated region is one statement**, but not among the words after `else`. -/
theorem isStatement_generate (hr : range.ReadsBack room) (hb : body.IsBlock) (k : Nat) :
    IsStatement false (shift k (generate label parameter range body).text) := by
  have hphrase : IsPhrase (generateTokens label parameter range) :=
    (isPhrase_header (Sequential.isPhrase_loopTokens hr) (by decide) isPad_blank (List.cons_ne_nil _ _)
      (by decide)).labelled label.isName
  have hafter : ∀ depth header, (header = true → false = true) →
      Nesting.after ⟨depth, false, header⟩ (generateTokens label parameter range)
        = some ⟨depth + 1, false, false⟩ := by
    intro depth header hheader
    have hsplit : generateTokens label parameter range = [word label.text, mark ':', mark ' ']
      ++ Token.header "for".toList [' '] (Sequential.loopTokens parameter range) "generate".toList := rfl
    have hfor : Nesting.token ⟨depth, false, false⟩ (word "for".toList) = some ⟨depth, false, false⟩ :=
      rfl
    cases header with
    | true => cases hheader rfl
    | false =>
      rw [hsplit, Nesting.after_append, Nesting.after_eq_self rfl label.isInert_label,
        Option.bind_some]
      exact Nesting.after_header hfor rfl isPad_blank (Sequential.isInert_loopTokens hr) rfl
  rw [shift_generate hr hb, ← render_generateTokens]
  exact isStatement_construct hphrase label.isName label.not_mem_dividingWords hafter
    (hb.isInterior (k + 1)) (isPad_lineBreak k) (List.cons_ne_nil _ _)
    (fun _ => atLineEnd_lineBreak k []) (by decide)
    (List.forall_mem_singleton.2 ⟨label.isRun, label.not_mem_structureWords⟩)

theorem isLaid_generate (hr : range.ReadsBack room) (hb : body.IsBlock) :
    (generate label parameter range body).IsLaid where
  lined := by
    have hsolid : Solid (label.text ++ ':' :: ' ' :: generateLine parameter range) := by
      have hgenerate : IsRun "generate".toList := by decide
      have := label.isRun.solid.between hgenerate.solid (':' :: ' ' :: ("for".toList
        ++ ' ' :: ((parameter.text ++ ' ' :: ("in".toList ++ ' ' :: range.text)) ++ [' '])))
      rw [generateLine]
      simpa only [List.append_assoc, List.cons_append, List.nil_append] using this
    have hruns : ∀ k ∈ ["generate".toList, label.text], IsRun k :=
      List.forall_mem_cons.2 ⟨by decide, List.forall_mem_singleton.2 label.isRun⟩
    have hclosing := (isLine_closing hruns).isLined.tail
    rw [text_generate_eq]
    exact (isLine_of_solid hsolid (newline_not_mem_generateLine hr)).isLined.append_tail
      ((isTail_nested hb.lined).append hclosing)
  shows k := .code (isStatement_generate hr hb k)

end Generate

/-! ## Every element is laid -/

theorem IsElement.elements {room : Nat} {c : Concurrent} (h : IsElement room c) :
    c.elements = [c] := by
  cases h <;> rfl

/-- The elements of regions that read back are laid out in pieces. -/
theorem isLaid_all (room : Nat) :
    (∀ c, IsElement room c → c.IsLaid) ∧ ∀ c, IsRegion room c → c.IsBlock := by
  induction room with
  | zero =>
    refine ⟨fun c hc => ?_, fun c hc => nomatch hc⟩
    cases hc with
    | simple h => exact isLaid_simple h
    | component h => exact isLaid_component h
  | succ room ih =>
    obtain ⟨helement, hregion⟩ := ih
    refine ⟨fun c hc => ?_, fun c hc => ?_⟩
    · cases hc with
      | simple h => exact isLaid_simple h
      | process h => exact isLaid_process h
      | component h => exact isLaid_component h
      | generate hr hb => exact isLaid_generate hr (hregion _ hb)
    · cases hc with
      | single hc =>
        rw [IsBlock, hc.elements]
        simpa using helement _ hc
      | several _ hcs => exact fun c hc => helement c (hcs c hc)

theorem IsElement.isLaid {room : Nat} {c : Concurrent} (h : IsElement room c) : c.IsLaid :=
  (isLaid_all room).1 c h

theorem IsRegion.isBlock {room : Nat} {c : Concurrent} (h : IsRegion room c) : c.IsBlock :=
  (isLaid_all room).2 c h

end Concurrent

end CanonicalVhdl
