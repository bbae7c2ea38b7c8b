import CanonicalVhdl.Concurrent.Basic
import CanonicalVhdl.Proofs.Extent.Looking
import CanonicalVhdl.Proofs.Extent.Sequential

/-!
# The extent of concurrent code

## Main definitions

* `ConcurrentStatement.Readable`, `ProcessStatement.Readable`, `Instance.Readable`,
  `Concurrent.Readable` — trees whose parts read back.

## Main statements

* `Concurrent.Readable.stands` — an element of concurrent code is one statement.
* `Concurrent.Readable.stays` — code inside a construct leaves the nesting as it is.
-/

namespace CanonicalVhdl

open Text Token

variable {room : Nat}

/-! ## Assignments -/

/-- Whether every value and every condition of a chain reads back. -/
def ConditionalWaveform.Readable (room : Nat) : ConditionalWaveform → Prop
  | value e => e.ReadsBack room
  | choose v c rest => v.ReadsBack room ∧ c.ReadsBack room ∧ rest.Readable room

theorem ConditionalWaveform.Readable.isFlatText {chain : ConditionalWaveform}
    (h : chain.Readable room) : IsFlatText chain.text := by
  induction chain with
  | value e => exact (Expr.ReadsBack.isInertText h).isFlatText
  | choose v c rest ih =>
    obtain ⟨hv, hc, hrest⟩ := h
    have hinert := isInertText_spaced hv.isInertText hc.isInertText (s := "when".toList) (by decide)
      (by decide +kernel) (by decide)
    have hflat := IsFlatText.spaced (s := "else".toList) hinert (ih hrest) (by decide) (by decide)
      fun depth header => ⟨true, rfl⟩
    have htext : (choose v c rest).text
        = v.text ++ ' ' :: ("when".toList ++ ' ' :: c.text)
          ++ ' ' :: ("else".toList ++ ' ' :: rest.text) := by
      have hwhen : " when ".toList = ' ' :: ("when".toList ++ [' ']) := rfl
      have helse : " else ".toList = ' ' :: ("else".toList ++ [' ']) := rfl
      have hdef : (choose v c rest).text
          = v.text ++ " when ".toList ++ c.text ++ " else ".toList ++ rest.text := rfl
      rw [hdef, hwhen, helse]
      simp only [List.append_assoc, List.cons_append, List.nil_append]
    rw [htext]
    exact hflat

/-- Whether the value of an assignment reads back. -/
def Waveform.Readable (room : Nat) : Waveform → Prop
  | plain e => e.ReadsBack room
  | conditional chain => chain.Readable room

theorem Waveform.Readable.isFlatText {w : Waveform} (h : w.Readable room) : IsFlatText w.text := by
  cases w with
  | plain e => exact (Expr.ReadsBack.isInertText h).isFlatText
  | conditional chain => exact ConditionalWaveform.Readable.isFlatText h

namespace ConcurrentStatement

/-- Whether the parts of a statement read back and its comment takes one line. -/
def Readable (room : Nat) : ConcurrentStatement → Prop
  | assignment target value => target.ReadsBack room ∧ value.Readable room
  | comment c => c.IsOneLine

/-- Whether a statement is a comment line. -/
def isComment : ConcurrentStatement → Bool
  | comment _ => true
  | assignment .. => false

variable {s : ConcurrentStatement}

theorem Readable.stands {free : Bool} (h : s.Readable room) (hcomment : s.isComment = false) :
    Stands free s.text := by
  cases s with
  | comment c => cases hcomment
  | assignment target value =>
    obtain ⟨htarget, hvalue⟩ := h
    have hflat := IsFlatText.spaced (s := "<=".toList) htarget.isInertText hvalue.isFlatText
      (by decide) (by decide) fun depth header => ⟨header, rfl⟩
    have htext : (assignment target value).text
        = target.text ++ ' ' :: ("<=".toList ++ ' ' :: value.text) ++ [';'] := by
      have hsymbol : " <= ".toList = ' ' :: ("<=".toList ++ [' ']) := rfl
      have hdef : (assignment target value).text
          = target.text ++ " <= ".toList ++ value.text ++ [';'] := rfl
      rw [hdef, hsymbol]
      simp only [List.append_assoc, List.cons_append, List.nil_append]
    rw [htext]
    exact hflat.stands htarget.solid

theorem Readable.stays {free : Bool} (h : s.Readable room) : Stays free (rows s.text) := by
  cases s with
  | comment c =>
    have hc : c.IsOneLine := h
    have htext : (comment c).text = c.line := rfl
    rw [htext, (isRow_comment hc).rows_eq]
    exact stays_comment hc
  | assignment target value => exact (stands (s := assignment target value) h rfl).stays

end ConcurrentStatement

/-! ## Processes -/

namespace ProcessStatement

/-- Whether the parts of a process read back and its comments take one line. -/
structure Readable (room : Nat) (p : ProcessStatement) : Prop where
  /-- The declarations read back. -/
  declarations : ∀ d ∈ p.declarations, d.Readable room
  /-- The body reads back. -/
  body : p.body.Readable room

/-- The line that a process starts with. -/
def head (p : ProcessStatement) : Text :=
  (p.label.elim [] fun label => label.text ++ [':', ' ']) ++ ("process".toList
    ++ if p.sensitivity.isEmpty then []
      else '(' :: (join ", ".toList (p.sensitivity.map (·.text)) ++ [')']))

variable {p : ProcessStatement}

/-- The tokens of the line that a process starts with. -/
theorem exists_head_tokens (p : ProcessStatement) :
    ∃ ts, render ts = p.head ∧ IsPhrase ts ∧ '\n' ∉ p.head ∧ ∀ depth header,
      Nesting.after ⟨depth, false, header⟩ ts = some ⟨depth + 1, false, false⟩ := by
  have hprocess : IsName "process".toList := by decide
  have hword : ∀ depth header, Nesting.token ⟨depth, false, header⟩ (word "process".toList)
      = some ⟨depth + 1, false, false⟩ := fun _ _ => rfl
  -- the word and the sensitivity list
  obtain ⟨ts, hrender, hts, hline, hafter⟩ : ∃ ts, render ts = "process".toList
      ++ (if p.sensitivity.isEmpty then []
        else '(' :: (join ", ".toList (p.sensitivity.map (·.text)) ++ [')']))
      ∧ IsPhrase ts ∧ '\n' ∉ render ts ∧ ∀ depth header,
        Nesting.after ⟨depth, false, header⟩ ts = some ⟨depth + 1, false, false⟩ := by
    split
    · exact ⟨[word "process".toList], by simp, isPhrase_word hprocess, by decide, hword⟩
    · obtain ⟨⟨us, hus, hphrase⟩, hline⟩ := isPhraseText_join (c := ',') (.inl rfl)
        (List.forall_mem_map.2 fun (i : Ident) (_ : i ∈ p.sensitivity) => i.isInertText.isPhraseText)
      have hcomma : ", ".toList = [',', ' '] := rfl
      refine ⟨[word "process".toList, group us], by simp [hus, hcomma], hphrase.call hprocess, ?_, ?_⟩
      · simp only [render_cons, text_word, text_group, render_nil, List.append_nil, hus,
          List.mem_append, List.mem_cons, List.not_mem_nil, not_or, or_false]
        exact ⟨by decide, by decide, hline, by decide⟩
      · exact hword
  unfold head
  cases p.label with
  | none => exact ⟨ts, hrender, hts, by rw [← hrender]; exact hline, hafter⟩
  | some label =>
    refine ⟨word label.text :: mark ':' :: mark ' ' :: ts, ?_, hts.labelled label.isName, ?_, ?_⟩
    · simp [hrender]
    · rw [← hrender]
      simp only [Option.elim, List.mem_append, List.mem_cons, List.not_mem_nil, not_or, or_false]
      exact ⟨⟨label.isName.isRun.newline_not_mem, by decide, by decide⟩, hline⟩
    · intro depth header
      have hinert : ∀ t ∈ [word label.text, mark ':', mark ' '], Nesting.isInert t = true := by
        have hname : Nesting.isInert (word label.text) = true := by
          simp only [Nesting.isInert, label.not_mem_structureWords]
          rfl
        exact List.forall_mem_cons.2 ⟨hname, by decide⟩
      have hsplit : word label.text :: mark ':' :: mark ' ' :: ts
          = [word label.text, mark ':', mark ' '] ++ ts := rfl
      rw [hsplit, Nesting.after_append, Nesting.after_eq_self rfl hinert, Option.bind_some, hafter]

/-- The line that a process starts with does not start with a blank, nor end with a
carriage return. -/
theorem isRow_head (p : ProcessStatement) : IsRow p.head := by
  obtain ⟨-, -, -, hline, -⟩ := exists_head_tokens p
  have hprocess : IsRun "process".toList := by decide
  have hlast : ∀ a : Text, (a ++ ("process".toList ++ if p.sensitivity.isEmpty then []
      else '(' :: (join ", ".toList (p.sensitivity.map (·.text)) ++ [')']))).getLast? ≠ some '\r' := by
    intro a
    split
    · rw [List.append_nil, List.getLast?_append_of_ne_nil _ (by decide)]
      decide
    · simp only [← List.cons_append, ← List.append_assoc, List.getLast?_concat]
      decide
  unfold head at hline ⊢
  cases hlabel : p.label with
  | none =>
    rw [hlabel] at hline
    simp only [Option.elim, List.nil_append] at hline ⊢
    exact isRow_append hprocess.solid hline (hlast [])
  | some label =>
    rw [hlabel] at hline
    have hsplit : ∀ x : Text, (label.text ++ [':', ' ']) ++ x = label.text ++ ([':', ' '] ++ x) :=
      fun x => List.append_assoc ..
    simp only [Option.elim, hsplit] at hline ⊢
    refine isRow_append label.isRun.solid hline ?_
    rw [← hsplit]
    exact hlast _

theorem text_eq_framed (p : ProcessStatement) :
    p.text = framed p.head (nested (join ['\n'] (p.declarations.map (·.text)))
      ++ '\n' :: ("begin".toList ++ nested p.body.text))
      ("process".toList :: p.label.toList.map (·.text)) := by
  have hcolon : ": ".toList = [':', ' '] := rfl
  have hbegin : "\nbegin".toList = '\n' :: "begin".toList := rfl
  have hend : "\nend process".toList = '\n' :: ("end".toList ++ ' ' :: "process".toList) := rfl
  rw [text, framed, head, hcolon, hbegin, hend]
  cases p.label <;>
    simp only [clauseEnd, Option.elim, Option.toList, List.map_cons, List.map_nil, List.flatMap_cons,
      List.flatMap_nil, List.append_assoc, List.cons_append, List.nil_append, List.append_nil]

/-- **A process is one statement.** -/
theorem Readable.stands {free : Bool} (h : p.Readable room) : Stands free p.text := by
  obtain ⟨ts, hrender, hts, -, hafter⟩ := exists_head_tokens p
  have hrow := isRow_head p
  have hpass : ∀ depth header, Passes 0 ⟨depth, false, header⟩ [p.head] 0 ⟨depth + 1, false, false⟩ := by
    intro depth header
    rw [← hrender] at hrow ⊢
    exact passes_tokens hts hrow (hafter depth header)
  rw [text_eq_framed]
  refine stands_construct hrow (fun depth header _ => hpass depth header)
    ((atLineEnd_nested _).append (atLineEnd_newline _))
    (stays_program h.declarations h.body) (by decide) fun v hv => ?_
  obtain ⟨label, -, rfl⟩ := List.mem_map.1 hv
  exact ⟨label.isRun, label.not_mem_structureWords⟩

end ProcessStatement

/-! ## Maps -/

/-- Whether a value that is associated reads back. -/
def Actual.Readable (room : Nat) : Actual → Prop
  | value e => e.ReadsBack room
  | unconnected => True

namespace Association

/-- Whether the parts of an association read back. -/
structure Readable (room : Nat) (a : Association) : Prop where
  /-- The formal reads back. -/
  formal : ∀ r ∈ a.formal, r.ReadsBack room
  /-- The actual reads back. -/
  actual : a.actual.Readable room

variable {a : Association}

/-- The text of an association is inert and has no blanks at its ends. -/
theorem Readable.isInertText_solid (h : a.Readable room) : IsInertText a.text ∧ Solid a.text := by
  obtain ⟨formal, actual⟩ := a
  have hactual : IsInertText actual.text ∧ Solid actual.text := by
    cases actual with
    | value e =>
      have he : e.ReadsBack room := h.actual
      exact ⟨he.isInertText, he.solid⟩
    | unconnected =>
      have hopen : IsName "open".toList := by decide
      exact ⟨hopen.isInertText (by decide +kernel), hopen.isRun.solid⟩
  cases formal with
  | none => exact hactual
  | some r =>
    have hr := h.formal r rfl
    have harrow : " => ".toList = ' ' :: ("=>".toList ++ [' ']) := rfl
    have htext : (⟨some r, actual⟩ : Association).text
        = r.text ++ ' ' :: ("=>".toList ++ ' ' :: actual.text) := by
      rw [text, harrow]
      simp
    rw [htext]
    refine ⟨isInertText_spaced hr.isInertText hactual.1 (by decide) (fun h => absurd h (by decide))
      (by decide), ?_⟩
    have := hr.solid.between hactual.2 (' ' :: ("=>".toList ++ [' ']))
    simpa using this

end Association

theorem rows_blanks (n : Nat) {l : Text} (h : '\n' ∉ l) : rows (List.replicate n ' ' ++ l) = rows l := by
  rw [rows_of_not_mem h, rows_of_not_mem, flush_pad]
  rw [List.mem_append, not_or]
  exact ⟨fun hm => absurd (List.eq_of_mem_replicate hm) (by decide), h⟩

/-- Inert texts with commas between them, on lines of their own in parentheses. -/
theorem passes_commaLines {parens : Nat} {s : Nesting} {n : Nat} {parts : List Text}
    (h : ∀ t ∈ parts, IsInertText t ∧ Solid t) :
    Passes (parens + 1) s (rows (join ",\n".toList (parts.map (List.replicate n ' ' ++ ·))))
      (parens + 1) s := by
  have hseparator : ",\n".toList = [',', '\n'] := rfl
  induction parts with
  | nil => exact .nil
  | cons t parts ih =>
    obtain ⟨hinert, hsolid⟩ := h t List.mem_cons_self
    have hrow : IsRow t := isRow_of_solid hsolid hinert.newline_not_mem
    cases parts with
    | nil =>
      have hjoin : join ",\n".toList ([t].map (List.replicate n ' ' ++ ·)) = List.replicate n ' ' ++ t := by
        simp [join]
      have hpass : Passes (parens + 1) s [t ++ remark none] (parens + 1) s :=
        hinert.isPhraseText.passes hrow fun c hc => absurd hc (Option.not_mem_none c)
      rw [remark, List.append_nil] at hpass
      rwa [hjoin, rows_blanks n hinert.newline_not_mem, hrow.rows_eq]
    | cons t' parts =>
      have hrest := ih fun t ht => h t (List.mem_cons_of_mem _ ht)
      have hphrase := hinert.isPhraseText.separated (.inl rfl)
      have hcomma : IsRow (t ++ [',']) := isRow_append hsolid hphrase.newline_not_mem (by simp)
      have hjoin : join ",\n".toList ((t :: t' :: parts).map (List.replicate n ' ' ++ ·))
          = (List.replicate n ' ' ++ (t ++ [',']))
            ++ '\n' :: join ",\n".toList ((t' :: parts).map (List.replicate n ' ' ++ ·)) := by
        simp [join, hseparator]
      have hpass : Passes (parens + 1) s [t ++ [','] ++ remark none] (parens + 1) s :=
        hphrase.passes hcomma fun c hc => absurd hc (Option.not_mem_none c)
      rw [remark, List.append_nil] at hpass
      rw [hjoin, rows_append, rows_blanks n hphrase.newline_not_mem, hcomma.rows_eq]
      exact hpass.append hrest

namespace Instance

/-- The first line of a map. -/
def mapHead (keyword : Text) : Text := keyword ++ " map".toList ++ " (".toList

variable {keyword after : Text} {associations : List Association} {depth : Nat} {header : Bool}

theorem rows_mapText (hkeyword : keyword = "generic".toList ∨ keyword = "port".toList)
    (hne : associations ≠ []) (after : Text) :
    rows (mapText keyword associations ++ after)
      = mapHead keyword :: (rows (join ",\n".toList
          ((associations.map (·.text)).map (List.replicate 8 ' ' ++ ·)))
        ++ rows (List.replicate 4 ' ' ++ ')' :: after)) := by
  have hempty : associations.isEmpty = false := by simpa using hne
  have hopen : " map (\n".toList = " map".toList ++ (" (".toList ++ ['\n']) := rfl
  have hsteps : indentStep ++ indentStep = List.replicate 8 ' ' := rfl
  have hstep : indentStep = List.replicate 4 ' ' := rfl
  have htext : mapText keyword associations ++ after
      = '\n' :: ((List.replicate 4 ' ' ++ mapHead keyword) ++ '\n' :: (join ",\n".toList
          ((associations.map (·.text)).map (List.replicate 8 ' ' ++ ·))
        ++ '\n' :: (List.replicate 4 ' ' ++ ')' :: after))) := by
    rw [mapText, hempty, List.map_map]
    simp only [Bool.false_eq_true, if_false, hopen, hsteps, mapHead, Function.comp_def]
    rw [hstep]
    simp only [List.append_assoc, List.cons_append, List.nil_append]
  have hline : '\n' ∉ mapHead keyword := by rcases hkeyword with rfl | rfl <;> decide
  have hrow : IsRow (mapHead keyword) := by
    refine isRow_of_solid ?_ hline
    have hparen : Solid ['('] := solid_of_forall (by decide) (by decide)
    have hrun : IsRun keyword := by rcases hkeyword with rfl | rfl <;> decide
    have := hrun.solid.between hparen (" map".toList ++ [' '])
    simpa [mapHead] using this
  rw [htext, rows_newline, rows_append, rows_append, rows_blanks 4 hline, hrow.rows_eq,
    List.singleton_append]

/-- **A map is passed over, and with a semicolon it ends a statement.** -/
theorem finishes_map (hkeyword : keyword = "generic".toList ∨ keyword = "port".toList)
    (hne : associations ≠ []) (h : ∀ a ∈ associations, a.Readable room)
    (hafter : after = [';'] ∨ AtLineEnd after ∧ Finishes depth 0 ⟨depth, false, header⟩ (rows after)) :
    Finishes depth 0 ⟨depth, false, header⟩ (rows (mapText keyword associations ++ after)) := by
  have hname : IsName keyword := by rcases hkeyword with rfl | rfl <;> decide
  have hopen : Passes 0 ⟨depth, false, header⟩ [mapHead keyword] 1 ⟨depth, false, header⟩ := by
    have hinert : IsInertText (keyword ++ " map".toList) :=
      (IsName.isInertText (w := "map".toList) (by decide) (by decide +kernel)).prefixed hname
        (by rcases hkeyword with rfl | rfl <;> decide +kernel)
    exact hinert.passes_open hname.isRun.solid rfl
  have hentries : Passes 1 ⟨depth, false, header⟩ (rows (join ",\n".toList
      ((associations.map (·.text)).map (List.replicate 8 ' ' ++ ·)))) 1 ⟨depth, false, header⟩ :=
    passes_commaLines (List.forall_mem_map.2 fun a ha => (h a ha).isInertText_solid)
  rw [rows_mapText hkeyword hne, ← List.singleton_append]
  refine .after hopen (.after hentries ?_)
  rcases hafter with rfl | ⟨hline, hfinish⟩
  · have hrow : rows [')', ';'] = [[')', ';']] := rfl
    rw [rows_blanks 4 (by decide), hrow]
    exact finishes_close
  · have hrow : rows [')'] = [[')']] := rfl
    rw [List.append_cons, rows_append_of_atLineEnd _ hline, rows_blanks 4 (by decide), hrow]
    exact .after passes_close hfinish

theorem atLineEnd_mapText (hne : associations ≠ []) (after : Text) :
    AtLineEnd (mapText keyword associations ++ after) := by
  have hempty : associations.isEmpty = false := by simpa using hne
  rw [mapText, hempty]
  exact atLineEnd_newline _

theorem mapText_nil : mapText keyword [] = [] := rfl

/-- Whether the parts of an instance read back. -/
structure Readable (room : Nat) (i : Instance) : Prop where
  /-- The generic map reads back. -/
  generics : ∀ a ∈ i.generics, a.Readable room
  /-- The port map reads back. -/
  ports : ∀ a ∈ i.ports, a.Readable room

/-- The line that an instance starts with. -/
def head (i : Instance) : Text :=
  i.label.text ++ ':' :: ' ' :: i.source.text

/-- What follows the first line of an instance: its end, or a map. -/
inductive IsSequel : Text → Prop
  | semicolon (v : Text) : IsSequel (';' :: v)
  | map {keyword g : Text} (v : Text) : keyword = "generic".toList ∨ keyword = "port".toList → IsPad g →
    IsSequel ('\n' :: (g ++ (mapHead keyword ++ v)))

theorem IsSequel.closes {u : Text} (h : IsSequel u) : Closes u.head? := by
  cases h <;> rfl

variable {i : Instance}

/-- The name of an entity in a library, perhaps with an architecture. -/
theorem isInertText_entity (library name : Ident) (architecture : Option Ident) :
    IsInertText (library.text ++ '.' :: (name.text
      ++ architecture.elim [] fun a => '(' :: (a.text ++ [')']))) := by
  have hinert : ∀ i : Ident, Nesting.isInert (word i.text) = true := fun i => by
    simp only [Nesting.isInert, i.not_mem_structureWords]
    rfl
  cases architecture with
  | none =>
    have hrender : render [word library.text, mark '.', word name.text]
        = library.text ++ '.' :: (name.text ++ []) := by simp
    rw [Option.elim, ← hrender]
    refine isInertText_render (isPhrase_selected library.isName name.isName (.inl rfl)) ?_ ?_ ?_
    · exact List.forall_mem_cons.2 ⟨hinert library, List.forall_mem_cons.2 ⟨rfl,
        List.forall_mem_singleton.2 (hinert name)⟩⟩
    · rw [hrender, List.append_nil, List.mem_append, List.mem_cons, not_or, not_or]
      exact ⟨library.isRun.newline_not_mem, by decide, name.isRun.newline_not_mem⟩
    · rw [hrender, List.append_nil]
      exact (library.isRun.solid.between name.isRun.solid ['.']).last_ne_return
  | some a =>
    have hrender : render [word library.text, mark '.', word name.text, group [word a.text]]
        = library.text ++ '.' :: (name.text ++ '(' :: (a.text ++ [')'])) := by simp
    have hphrase : IsPhrase [word library.text, mark '.', word name.text, group [word a.text]] :=
      fun before next hb _ => ⟨library.isName.fits hb.ident rfl, fits_separator (by decide),
        name.isName.fits rfl rfl, isPhrase_word a.isName _ _ rfl rfl, trivial⟩
    rw [Option.elim, ← hrender]
    refine isInertText_render hphrase ?_ ?_ ?_
    · exact List.forall_mem_cons.2 ⟨hinert library, List.forall_mem_cons.2 ⟨rfl,
        List.forall_mem_cons.2 ⟨hinert name, List.forall_mem_singleton.2 rfl⟩⟩⟩
    · simp only [hrender, List.mem_append, List.mem_cons, List.not_mem_nil, not_or, or_false]
      exact ⟨library.isRun.newline_not_mem, by decide, name.isRun.newline_not_mem, by decide,
        a.isRun.newline_not_mem, by decide⟩
    · rw [hrender]
      simp only [← List.cons_append, ← List.append_assoc, List.getLast?_concat]
      decide

/-- The word that looks ahead in the first line of an instance, and the rest of the line. -/
theorem exists_source (source : InstanceSource) :
    ∃ w x, source.text = w ++ ' ' :: x ∧ IsName w ∧ IsInertText x ∧
      ∀ (s : Nesting) (u : Text), s.afterEnd = false → IsSequel u → ∀ position before,
        s.word w ⟨position, before, ' ' :: (x ++ u)⟩ = some s := by
  cases source with
  | component name =>
    refine ⟨"component".toList, name.text, rfl, by decide, name.isInertText, ?_⟩
    intro s u hs hu position before
    rw [Nesting.word_looking (by decide) hs]
    cases hu with
    | semicolon v => rw [not_opens_semicolon, if_neg (by decide)]
    | map v hkeyword hg => rw [mapHead, not_opens_map hkeyword hg, if_neg (by decide)]
  | entity library name architecture =>
    have htext : (InstanceSource.entity library name architecture).text
        = "entity ".toList ++ library.text ++ '.' :: (name.text
          ++ architecture.elim [] fun a => '(' :: (a.text ++ [')'])) := rfl
    have hentity : "entity ".toList = "entity".toList ++ [' '] := rfl
    refine ⟨"entity".toList, _, ?_, by decide, isInertText_entity library name architecture, ?_⟩
    · rw [htext, hentity]
      simp only [List.append_assoc, List.cons_append, List.nil_append]
    · intro s u hs _ position before
      rw [Nesting.word_looking (by decide) hs, List.append_assoc, List.cons_append, not_opens_entity,
        if_neg (by decide)]

/-- The first line of an instance changes nothing. -/
theorem extentFrom_head {s : Nesting} (hs : s.afterEnd = false) {u : Text} (hu : IsSequel u)
    {position : Nat} {before : Option Char} (hbefore : Opens before) :
    extentFrom 0 s 0 position before (i.head ++ u)
      = extentFrom 0 s 0 (position + i.head.length) (lastOr before i.head) u := by
  obtain ⟨w, x, hsource, hw, hx, hword⟩ := exists_source i.source
  have hsplit : i.head ++ u = i.label.text ++ ':' :: ' ' :: (w ++ ' ' :: (x ++ u)) := by
    simp [head, hsource]
  have hhead : i.head = (i.label.text ++ [':', ' ']) ++ (w ++ ' ' :: x) := by
    simp [head, hsource]
  have hlabel : lastOr before (i.label.text ++ [':', ' ']) = some ' ' := by
    rw [lastOr_append]
    rfl
  have hlast : lastOr before i.head = lastOr (some ' ') (w ++ ' ' :: x) := by
    rw [hhead, lastOr_append before, hlabel]
  rw [hsplit, extentFrom_label i.label hs hbefore,
    extentFrom_looking hw hx rfl hu.closes hs (hword s u hs hu), hlast, hhead,
    @List.length_append _ (i.label.text ++ [':', ' ']), Nat.add_assoc]

theorem isRow_head (i : Instance) : IsRow i.head ∧ IsRow (i.head ++ [';']) := by
  obtain ⟨w, x, hsource, hw, hx, -⟩ := exists_source i.source
  have hhead : i.head = i.label.text ++ ([':', ' '] ++ w ++ [' '] ++ x) := by simp [head, hsource]
  have hline : '\n' ∉ i.label.text ++ ([':', ' '] ++ w ++ [' '] ++ x) := by
    simp only [List.mem_append, List.mem_cons, List.not_mem_nil, not_or, or_false]
    exact ⟨i.label.isRun.newline_not_mem, ⟨⟨⟨by decide, by decide⟩, hw.isRun.newline_not_mem⟩,
      by decide⟩, hx.newline_not_mem⟩
  rw [hhead]
  refine ⟨isRow_append i.label.isRun.solid hline ?_, ?_⟩
  · rw [← List.append_assoc]
    refine getLast?_append_ne ?_ hx.last_ne
    rw [← List.append_assoc, List.getLast?_concat]
    decide
  · rw [List.append_assoc]
    refine isRow_append i.label.isRun.solid ?_ ?_
    · rw [← List.append_assoc, List.mem_append, not_or]
      exact ⟨hline, by decide⟩
    · rw [← List.append_assoc, List.getLast?_concat]
      decide

theorem text_eq (i : Instance) :
    i.text = i.head ++ (mapText "generic".toList i.generics
      ++ (mapText "port".toList i.ports ++ [';'])) := by
  have hcolon : ": ".toList = [':', ' '] := rfl
  rw [text, head, hcolon]
  simp only [List.append_assoc, List.cons_append, List.nil_append]

/-- The first line of an instance and a map after it. -/
theorem stands_mapped (hkeyword : keyword = "generic".toList ∨ keyword = "port".toList)
    (hne : associations ≠ [])
    (hfinish : ∀ depth header, Finishes depth 0 ⟨depth, false, header⟩
      (rows (mapText keyword associations ++ after))) (hlast : after.getLast? = some ';') {free : Bool} :
    Stands free (i.head ++ (mapText keyword associations ++ after)) := by
  have hafter : after ≠ [] := by
    rintro rfl
    cases hlast
  refine ⟨?_, fun depth header _ => ?_⟩
  · rw [← List.append_assoc, List.getLast?_append_of_ne_nil _ hafter, hlast]
  · rw [rows_append_of_atLineEnd _ (atLineEnd_mapText hne after), i.isRow_head.1.rows_eq,
      List.singleton_append]
    refine .cons i.isRow_head.1 (fun position before u hbefore hu => ?_) (hfinish depth header)
    rw [rows_mapText hkeyword hne] at hu
    obtain ⟨g, v, hg, rfl⟩ := hu.next _ rfl
    exact extentFrom_head rfl (.map v hkeyword hg) hbefore

/-- **An instance is one statement.** -/
theorem Readable.stands {free : Bool} (h : i.Readable room) : Stands free i.text := by
  have hports : ∀ depth header, i.ports ≠ [] → Finishes depth 0 ⟨depth, false, header⟩
      (rows (mapText "port".toList i.ports ++ [';'])) := fun depth header hne =>
    finishes_map (.inr rfl) hne h.ports (.inl rfl)
  rw [text_eq]
  by_cases hgenerics : i.generics = []
  · rw [hgenerics, mapText_nil, List.nil_append]
    by_cases hnil : i.ports = []
    · rw [hnil, mapText_nil, List.nil_append]
      refine ⟨by simp, fun depth header _ => ?_⟩
      rw [i.isRow_head.2.rows_eq]
      refine .last i.isRow_head.2 (by simp) fun position before u hbefore => ?_
      rw [List.append_assoc, List.singleton_append, extentFrom_head rfl (.semicolon u) hbefore,
        extentFrom_semicolon_ended, List.length_append, List.length_singleton, Nat.add_assoc]
    · exact stands_mapped (.inr rfl) hnil (fun depth header => hports depth header hnil) rfl
  · by_cases hnil : i.ports = []
    · rw [hnil, mapText_nil, List.nil_append]
      exact stands_mapped (.inl rfl) hgenerics
        (fun depth header => finishes_map (.inl rfl) hgenerics h.generics (.inl rfl)) rfl
    · refine stands_mapped (.inl rfl) hgenerics (fun depth header => ?_) (by simp)
      exact finishes_map (.inl rfl) hgenerics h.generics
        (.inr ⟨atLineEnd_mapText hnil [';'], hports depth header hnil⟩)

end Instance

/-! ## Generated regions -/

section Generate

variable {label parameter : Ident} {range : Range} {body : Concurrent}

namespace Concurrent

theorem text_generate :
    (generate label parameter range body).text
      = framed (label.text ++ ':' :: ' ' :: ("for".toList ++ ' ' :: (parameter.text
          ++ ' ' :: ("in".toList ++ ' ' :: range.text))) ++ ' ' :: "generate".toList)
        (nested body.text) ["generate".toList, label.text] := by
  have hfor : ": for ".toList = ':' :: ' ' :: ("for".toList ++ [' ']) := rfl
  have hin : " in ".toList = ' ' :: ("in".toList ++ [' ']) := rfl
  have hgenerate : " generate".toList = ' ' :: "generate".toList := rfl
  have hend : "\nend generate ".toList = '\n' :: ("end".toList ++ ' ' :: ("generate".toList ++ [' '])) :=
    rfl
  have htext : (generate label parameter range body).text
      = label.text ++ ": for ".toList ++ parameter.text ++ " in ".toList ++ range.text
        ++ " generate".toList ++ nested body.text ++ "\nend generate ".toList ++ label.text ++ [';'] := rfl
  rw [htext, hfor, hin, hgenerate, hend, framed]
  simp only [clauseEnd, List.flatMap_cons, List.flatMap_nil, List.append_assoc, List.cons_append,
    List.nil_append, List.append_nil]

/-- **A generated region is one statement**, but not among the words after `else`. -/
theorem stands_generate (hr : range.Readable room) (hbody : Stays false (rows body.text)) :
    Stands false (generate label parameter range body).text := by
  have hinert := ((isInertText_spaced (s := "in".toList) parameter.isInertText hr.isInertText
    (by decide) (by decide +kernel) (by decide)).prefixed (w := "for".toList) (by decide)
    (by decide +kernel)).labelled label
  have hpass : ∀ depth, Passes 0 ⟨depth, false, false⟩
      [label.text ++ ':' :: ' ' :: ("for".toList ++ ' ' :: (parameter.text
        ++ ' ' :: ("in".toList ++ ' ' :: range.text))) ++ ' ' :: "generate".toList] 0
      ⟨depth + 1, false, false⟩ := fun depth =>
    hinert.passes_word label.isRun.solid rfl (by decide) rfl
  rw [text_generate]
  refine stands_construct ((hpass 0).isRow _ (List.mem_singleton_self _)) (fun depth header h => ?_)
    (atLineEnd_nested _) hbody.nested (by decide)
    (List.forall_mem_singleton.2 ⟨label.isRun, label.not_mem_structureWords⟩)
  cases header with
  | false => exact hpass depth
  | true => cases h rfl

end Concurrent

end Generate

/-! ## Concurrent code -/

namespace Concurrent

/-- Whether the parts of concurrent code read back and its comments take one line. -/
inductive Readable (room : Nat) : Concurrent → Prop
  | simple {s : ConcurrentStatement} : s.Readable room → Readable room (.simple s)
  | process {p : ProcessStatement} : p.Readable room → Readable room (.process p)
  | component {i : Instance} : i.Readable room → Readable room (.component i)
  | generate {label parameter : Ident} {range : Range} {body : Concurrent} : range.Readable room →
    Readable room body → Readable room (.generate label parameter range body)
  | region {elements : List Concurrent} : (∀ c ∈ elements, Readable room c) →
    Readable room (.region elements)

theorem texts_eq (cs : List Concurrent) : texts cs = cs.map text := by
  induction cs with
  | nil => rfl
  | cons c cs ih => rw [texts, ih, List.map_cons]

/-- **Concurrent code inside a construct leaves the nesting as it is.** -/
theorem Readable.stays {c : Concurrent} (h : c.Readable room) : Stays false (rows c.text) := by
  induction h with
  | simple h => exact h.stays
  | process h => exact h.stands.stays
  | component h => exact h.stands.stays
  | generate hr _ ih => exact (stands_generate hr ih).stays
  | @region elements _ ih =>
    have htext : (Concurrent.region elements).text = join ['\n'] (texts elements) := rfl
    rw [htext, texts_eq]
    exact stays_join (List.forall_mem_map.2 ih)

/-- Whether the code is a single element and no comment line. -/
def isElement : Concurrent → Bool
  | simple s => !s.isComment
  | region _ => false
  | process _ | component _ | generate .. => true

/-- **An element of concurrent code is one statement.** -/
theorem Readable.stands {c : Concurrent} (h : c.Readable room) (helement : c.isElement = true) :
    Stands false c.text := by
  cases h with
  | simple h => exact h.stands (by simpa [isElement] using helement)
  | process h => exact h.stands
  | component h => exact h.stands
  | generate hr hbody => exact stands_generate hr hbody.stays
  | region => cases helement

end Concurrent
end CanonicalVhdl
