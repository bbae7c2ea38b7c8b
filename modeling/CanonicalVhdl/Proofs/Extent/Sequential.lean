import CanonicalVhdl.Proofs.Extent.Parts
import CanonicalVhdl.Proofs.Sequential.Layout

/-!
# The extent of sequential code

However constructs are nested and whatever comments stand in them, the scan for the end
of a statement stops at the last semicolon of the statement that it started with.

## Main definitions

* `ObjectDecl.Readable`, `Statement.Readable`, `Sequential.Readable` — trees whose
  expressions, types and references read back and whose comments take one line.
* `Statement.code` — a statement without the comment behind it.

## Main statements

* `Statement.Readable.stands`, `Sequential.Readable.stands` — each is one statement.
* `Sequential.Readable.stays` — code inside a construct leaves the nesting as it is.
-/

namespace CanonicalVhdl

open Text Token

variable {room : Nat}

theorem Text.atLineEnd_nested (t : Text) : AtLineEnd (nested t) := by
  rw [nested]
  split
  · exact atLineEnd_nil
  · exact atLineEnd_newline _

/-! ## Declarations of objects -/

namespace ObjectDecl

/-- Whether the type and the default of a declaration read back and its comment takes one
line. -/
structure Readable (room : Nat) (d : ObjectDecl) : Prop where
  /-- The type reads back. -/
  type : d.type.ReadsBack room
  /-- The default reads back. -/
  default : ∀ e ∈ d.default, e.ReadsBack room
  /-- The comment takes one line. -/
  comment : ∀ c ∈ d.comment, c.IsOneLine

theorem text_eq (d : ObjectDecl) : d.text = d.code ++ remark d.comment :=
  Comment.append_eq _ _

theorem code_eq (d : ObjectDecl) :
    d.code = d.objectClass.keyword.toList ++ ' ' :: (d.name.text ++ ':' :: ' ' ::
      TypedName.typeText d.type.text d.default) ++ [';'] := by
  have hcolon : ": ".toList = [':', ' '] := rfl
  simp [code, withComment, text, Comment.append, hcolon]

variable {d : ObjectDecl}

theorem Readable.isInertText (h : d.Readable room) :
    IsInertText (d.objectClass.keyword.toList ++ ' ' :: (d.name.text ++ ':' :: ' ' ::
      TypedName.typeText d.type.text d.default)) := by
  refine ((isInertText_typeText h.type.isInertText h.default).labelled d.name).prefixed
    d.objectClass.isName ?_
  cases d.objectClass <;> decide +kernel

theorem Readable.stands {free : Bool} (h : d.Readable room) : Stands free d.code := by
  rw [d.code_eq]
  exact h.isInertText.stands d.objectClass.isName.isRun.solid

theorem Readable.stays {free : Bool} (h : d.Readable room) : Stays free (rows d.text) := by
  rw [d.text_eq]
  refine h.stands.stays_remark ?_ h.comment
  rw [d.code_eq, List.append_assoc]
  refine isRow_append d.objectClass.isName.isRun.solid ?_ ?_
  · rw [← List.append_assoc, List.mem_append, not_or]
    exact ⟨h.isInertText.newline_not_mem, by decide⟩
  · rw [← List.append_assoc, List.getLast?_concat]
    decide

end ObjectDecl

/-! ## Simple statements -/

namespace Statement

/-- Whether the parts of a statement read back and its comment takes one line. -/
def Readable (room : Nat) : Statement → Prop
  | declaration d => d.Readable room
  | assignment target _ value => target.ReadsBack room ∧ value.ReadsBack room
  | comment c => c.IsOneLine
  | null => True
  | result value => ∀ e ∈ value, e.ReadsBack room

/-- A statement without the comment behind it. -/
def code : Statement → Text
  | declaration d => d.code
  | assignment target kind value => (assignment target kind value).text
  | comment c => c.line
  | null => null.text
  | result value => (result value).text

/-- Whether a statement is a comment line. -/
def isComment : Statement → Bool
  | comment _ => true
  | _ => false

variable {s : Statement}

/-- A statement is one statement. -/
theorem Readable.stands {free : Bool} (h : s.Readable room) (hcomment : s.isComment = false) :
    Stands free s.code := by
  cases s with
  | declaration d => exact ObjectDecl.Readable.stands h
  | comment c => cases hcomment
  | null =>
    have hnull : IsInertText ("null".toList ++ []) :=
      IsName.isInertText ⟨by decide, by decide⟩ (by decide +kernel)
    exact hnull.stands (IsRun.solid ⟨by decide, by decide⟩)
  | assignment target kind value =>
    have hvalue := isInertText_spaced h.1.isInertText h.2.isInertText (s := kind.symbol.toList)
      (by cases kind <;> decide) (fun hs => absurd hs (by cases kind <;> decide))
      (by cases kind <;> decide)
    have htext : (assignment target kind value).code
        = target.text ++ ' ' :: (kind.symbol.toList ++ ' ' :: (value.text ++ [';'])) :=
      text_assignment target kind value
    have hsplit : target.text ++ ' ' :: (kind.symbol.toList ++ ' ' :: (value.text ++ [';']))
        = target.text ++ ' ' :: (kind.symbol.toList ++ ' ' :: value.text) ++ [';'] := by
      simp
    rw [htext, hsplit]
    exact hvalue.stands h.1.solid
  | result value =>
    have hreturn : IsName "return".toList := ⟨by decide, by decide⟩
    cases value with
    | none =>
      have hinert : IsInertText ("return".toList ++ []) := hreturn.isInertText (by decide +kernel)
      exact hinert.stands hreturn.isRun.solid
    | some value =>
      have hvalue := (h value rfl).isInertText.prefixed hreturn (by decide +kernel)
      exact hvalue.stands hreturn.isRun.solid

theorem Readable.stays {free : Bool} (h : s.Readable room) : Stays free (rows s.text) := by
  cases s with
  | declaration d => exact ObjectDecl.Readable.stays h
  | comment c =>
    have hc : c.IsOneLine := h
    have htext : (comment c).text = c.line := rfl
    rw [htext, (isRow_comment hc).rows_eq]
    exact stays_comment hc
  | null => exact (stands (s := null) h rfl).stays
  | assignment target kind value => exact (stands (s := assignment target kind value) h rfl).stays
  | result value => exact (stands (s := result value) h rfl).stays

end Statement

/-! ## Rows of several texts -/

/-- Texts on lines of their own. -/
theorem stays_join {free : Bool} {parts : List Text} (h : ∀ t ∈ parts, Stays free (rows t)) :
    Stays free (rows (join ['\n'] parts)) := by
  rw [rows_join]
  exact stays_flatMap h

/-- A nested text and what stands on the lines after it. -/
theorem stays_nested_append {free : Bool} {t rest : Text} (ht : Stays free (rows t))
    (hline : AtLineEnd rest) (hrest : Stays free (rows rest)) :
    Stays free (rows (nested t ++ rest)) := by
  rw [rows_append_of_atLineEnd _ hline]
  exact ht.nested.append hrest

/-- A row inside a construct and what stands on the lines after it. -/
theorem stays_row_append {free : Bool} {l rest : Text} (hl : IsRow l) (hrow : Stays free [l])
    (hline : AtLineEnd rest) (hrest : Stays free (rows rest)) :
    Stays free (rows ('\n' :: (l ++ rest))) := by
  rw [rows_newline, rows_append_of_atLineEnd l hline, hl.rows_eq]
  exact hrow.append hrest

/-- A head, an interior and a closing clause. -/
theorem construct_eq_framed (w x v inner : Text) (ks : List Text) :
    construct w [' '] x v inner (lineBreak 0) ks = framed (w ++ ' ' :: (x ++ ' ' :: v)) inner ks :=
  rfl

/-! ## Sequential code -/

namespace Sequential

/-- Whether the parts of sequential code read back and its comments take one line. -/
inductive Readable (room : Nat) : Sequential → Prop
  | simple {s : Statement} : s.Readable room → Readable room (.simple s)
  | conditional {condition : Expr} {body : Sequential} {otherwise : Option Sequential} :
    condition.ReadsBack room → Readable room body → (∀ s ∈ otherwise, Readable room s) →
    Readable room (.conditional condition body otherwise)
  | selection {selector : Expr} {branches : List Branch} : selector.ReadsBack room →
    (∀ choice body, .mk choice body ∈ branches → choice.Readable room) →
    (∀ choice body, .mk choice body ∈ branches → Readable room body) →
    Readable room (.selection selector branches)
  | loop {parameter : Ident} {range : Range} {body : Sequential} : range.Readable room →
    Readable room body → Readable room (.loop parameter range body)
  | region {elements : List Sequential} : (∀ s ∈ elements, Readable room s) →
    Readable room (.region elements)

section Constructs

variable {condition : Expr} {body : Sequential} {otherwise : Option Sequential}

theorem atLineEnd_alternativeText : AtLineEnd (alternativeText otherwise) := by
  rcases otherwise with _ | s
  · exact atLineEnd_nil
  · by_cases h : s.isConditional = true
    · cases s with
      | conditional => rw [alternativeText_elsif]; exact atLineEnd_newline _
      | _ => cases h
    · rw [alternativeText_other (by simpa using h)]
      exact atLineEnd_newline _

theorem stands_conditional (hc : condition.ReadsBack room) (hbody : Stays true (rows body.text))
    (hrest : Stays true (rows (alternativeText otherwise))) :
    Stands true (conditional condition body otherwise).text := by
  rw [text_conditional, construct_eq_framed]
  have hrow : ∀ depth header, Passes 0 ⟨depth, false, header⟩
      ["if".toList ++ ' ' :: (condition.text ++ ' ' :: "then".toList)] 0 ⟨depth + 1, false, false⟩ := by
    intro depth header
    have hopen : Nesting.token ⟨depth, false, header⟩ (word "if".toList)
        = some ⟨depth + 1, false, true⟩ := rfl
    exact hc.isInertText.passes_header (by decide) hopen rfl (by decide) rfl
  exact stands_construct ((hrow 0 false).isRow _ (List.mem_singleton_self _))
    (fun depth header _ => hrow depth header)
    ((atLineEnd_nested _).append atLineEnd_alternativeText)
    (stays_nested_append hbody atLineEnd_alternativeText hrest) (by decide)
    (fun _ h => absurd h List.not_mem_nil)

/-- The rows of an `elsif`. -/
theorem stays_elsif (hc : condition.ReadsBack room) (hbody : Stays true (rows body.text))
    (hrest : Stays true (rows (alternativeText otherwise))) :
    Stays true (rows (alternativeText (some (conditional condition body otherwise)))) := by
  have hrow : ∀ depth header, Passes 0 ⟨depth + 1, false, header⟩
      ["elsif".toList ++ ' ' :: (condition.text ++ ' ' :: "then".toList)] 0
      ⟨depth + 1, false, false⟩ := by
    intro depth header
    have hopen : Nesting.token ⟨depth + 1, false, header⟩ (word "elsif".toList)
        = some ⟨depth + 1, false, true⟩ := rfl
    exact hc.isInertText.passes_header (by decide) hopen rfl (by decide) rfl
  rw [alternativeText_elsif]
  exact stays_row_append ((hrow 0 false).isRow _ (List.mem_singleton_self _))
    (fun depth header _ => ⟨false, nofun, hrow depth header⟩)
    ((atLineEnd_nested _).append atLineEnd_alternativeText)
    (stays_nested_append hbody atLineEnd_alternativeText hrest)

/-- The rows of an `else`. -/
theorem stays_else {s : Sequential} (h : s.isConditional = false) (hs : Stays true (rows s.text)) :
    Stays true (rows (alternativeText (some s))) := by
  have helse : IsRow "else".toList := isRow_of_solid (IsRun.solid (by decide)) (by decide)
  rw [alternativeText_other h]
  refine stays_row_append helse (fun depth header _ => ⟨true, fun _ => rfl, ?_⟩) (atLineEnd_nested _)
    hs.nested
  have hrender : render [word "else".toList] = "else".toList := by simp
  rw [← hrender] at helse ⊢
  exact passes_tokens (isPhrase_word (by decide)) helse rfl

theorem stands_loop {parameter : Ident} {range : Range} (hr : range.Readable room)
    (hbody : Stays true (rows body.text)) : Stands true (loop parameter range body).text := by
  have hinert := isInertText_spaced parameter.isInertText hr.isInertText (s := "in".toList)
    (by decide) (by decide +kernel) (by decide)
  have hrow : ∀ depth header, Passes 0 ⟨depth, false, header⟩
      ["for".toList ++ ' ' :: (parameter.text ++ ' ' :: ("in".toList ++ ' ' :: range.text)
        ++ ' ' :: "loop".toList)] 0 ⟨depth + 1, false, false⟩ := by
    intro depth header
    have hfor : Nesting.token ⟨depth, false, header⟩ (word "for".toList)
        = some ⟨depth, false, header⟩ := rfl
    exact hinert.passes_header (by decide) hfor rfl (by decide) rfl
  rw [text_loop, construct_eq_framed]
  exact stands_construct ((hrow 0 false).isRow _ (List.mem_singleton_self _))
    (fun depth header _ => hrow depth header) (atLineEnd_nested _) hbody.nested (by decide)
    (fun _ h => absurd h List.not_mem_nil)

/-- A branch of a `case` statement. -/
theorem stays_branch {choice : Choice} (hc : choice.Readable room)
    (hbody : Stays true (rows body.text)) : Stays true (rows (Branch.mk choice body).text) := by
  obtain ⟨⟨ts, hrender, hts, hinert⟩, hline, -⟩ := hc.isInertText
  have hwhen : IsName "when".toList := by decide
  have hwhole : render (word "when".toList :: mark ' ' :: (ts ++ [mark ' ', symbol "=>".toList]))
      = Branch.head choice := by
    simp [Branch.head, hrender]
  have hrow : IsRow (Branch.head choice) := by
    refine isRow_of_solid (Branch.solid_head choice) ?_
    simp only [Branch.head, List.mem_append, List.mem_cons, not_or]
    exact ⟨by decide, by decide, hline, by decide, by decide⟩
  have hpass : ∀ depth header, Passes 0 ⟨depth + 1, false, header⟩ [Branch.head choice] 0
      ⟨depth + 1, false, header⟩ := by
    refine fun depth header => .single hrow fun position before u hbefore hu => ?_
    have hnext : u.head?.all isAsciiBlank = true := by
      obtain rfl | ⟨v, rfl⟩ := hu.cases <;> rfl
    have hfit : FitAll before
        (word "when".toList :: mark ' ' :: (ts ++ [mark ' ', symbol "=>".toList])) u.head? :=
      ⟨hwhen.fits hbefore.ident rfl, fits_blank,
        fitAll_append.2 ⟨hts _ _ rfl rfl, fits_blank, ⟨by decide, hnext⟩, trivial⟩⟩
    rw [← hwhole]
    refine extentFrom_render hfit (Nesting.after_eq_self rfl ?_)
    have harrow : ∀ t ∈ [mark ' ', symbol "=>".toList], Nesting.isInert t = true := by decide
    refine List.forall_mem_cons.2 ⟨by decide, List.forall_mem_cons.2 ⟨rfl, fun t ht => ?_⟩⟩
    rcases List.mem_append.1 ht with ht | ht
    · exact hinert t ht
    · exact harrow t ht
  rw [Branch.text_eq, rows_append_of_atLineEnd _ (atLineEnd_nested _), hrow.rows_eq]
  exact Stays.append (fun depth header h => ⟨header, h, hpass depth header⟩) hbody.nested

theorem stands_selection {selector : Expr} {branches : List Branch} (hs : selector.ReadsBack room)
    (hbranches : ∀ b ∈ branches, Stays true (rows b.text)) :
    Stands true (selection selector branches).text := by
  have hrow : ∀ depth header, Passes 0 ⟨depth, false, header⟩
      ["case".toList ++ ' ' :: (selector.text ++ ' ' :: "is".toList)] 0 ⟨depth + 1, false, false⟩ := by
    intro depth header
    have hcase : Nesting.token ⟨depth, false, header⟩ (word "case".toList)
        = some ⟨depth + 1, false, true⟩ := rfl
    exact hs.isInertText.passes_header (by decide) hcase rfl (by decide) rfl
  rw [text_selection, construct_eq_framed]
  exact stands_construct ((hrow 0 false).isRow _ (List.mem_singleton_self _))
    (fun depth header _ => hrow depth header) (atLineEnd_nested _)
    (stays_join (List.forall_mem_map.2 hbranches)).nested (by decide)
    (fun _ h => absurd h List.not_mem_nil)

end Constructs

/-- **Sequential code inside a construct leaves the nesting as it is**, and so does an
alternative made of it. -/
theorem Readable.stays_both {s : Sequential} (h : s.Readable room) :
    Stays true (rows s.text) ∧ Stays true (rows (alternativeText (some s))) := by
  induction h with
  | simple h => exact ⟨h.stays, stays_else rfl h.stays⟩
  | @conditional condition body otherwise hc _ _ ihbody ihrest =>
    have hrest : Stays true (rows (alternativeText otherwise)) := by
      cases otherwise with
      | none => exact stays_nil
      | some s => exact (ihrest s rfl).2
    exact ⟨(stands_conditional hc ihbody.1 hrest).stays, stays_elsif hc ihbody.1 hrest⟩
  | @selection selector branches hs hchoices _ ihbodies =>
    have hbranches : ∀ b ∈ branches, Stays true (rows b.text) := fun ⟨choice, body⟩ hb =>
      stays_branch (hchoices choice body hb) (ihbodies choice body hb).1
    have hstays := (stands_selection hs hbranches).stays
    exact ⟨hstays, stays_else rfl hstays⟩
  | @loop parameter _ _ hr _ ihbody =>
    have hstays := (@stands_loop _ _ parameter _ hr ihbody.1).stays
    exact ⟨hstays, stays_else rfl hstays⟩
  | @region elements _ ih =>
    have hstays : Stays true (rows (Sequential.region elements).text) := by
      rw [text_eq_join]
      exact stays_join (List.forall_mem_map.2 fun s hs => (ih s hs).1)
    exact ⟨hstays, stays_else rfl hstays⟩

theorem Readable.stays {s : Sequential} (h : s.Readable room) : Stays true (rows s.text) :=
  h.stays_both.1

end Sequential

/-- Declarations, the word `begin` and a body. -/
theorem stays_program {declarations : List Statement} {body : Sequential}
    (hdeclarations : ∀ d ∈ declarations, d.Readable room) (hbody : body.Readable room) :
    Stays true (rows (nested (join ['\n'] (declarations.map (·.text)))
      ++ '\n' :: ("begin".toList ++ nested body.text))) := by
  have hbegin : IsName "begin".toList := by decide
  have hinert : IsInertText ("begin".toList ++ []) := hbegin.isInertText (by decide +kernel)
  refine stays_nested_append (stays_join (List.forall_mem_map.2 fun d hd => (hdeclarations d hd).stays))
    (atLineEnd_newline _) ?_
  refine stays_row_append (hinert.isRow hbegin.isRun.solid) (fun depth header hheader => ?_)
    (atLineEnd_nested _) hbody.stays.nested
  exact ⟨header, hheader, hinert.passes hbegin.isRun.solid rfl⟩

namespace Sequential

/-- An element of sequential code without the comment behind it. -/
def code : Sequential → Text
  | simple s => s.code
  | s => s.text

/-- Whether the code is a single element and no comment line. -/
def isElement : Sequential → Bool
  | simple s => !s.isComment
  | region _ => false
  | conditional .. | selection .. | loop .. => true

/-- **An element of sequential code is one statement.** -/
theorem Readable.stands {s : Sequential} (h : s.Readable room) (helement : s.isElement = true) :
    Stands true s.code := by
  cases h with
  | simple h => exact h.stands (by simpa [isElement] using helement)
  | @conditional condition body otherwise hc hbody hrest =>
    refine stands_conditional hc hbody.stays ?_
    cases otherwise with
    | none => exact stays_nil
    | some s => exact (hrest s rfl).stays_both.2
  | selection hs hchoices hbodies =>
    exact stands_selection hs fun ⟨choice, body⟩ hb =>
      stays_branch (hchoices choice body hb) (hbodies choice body hb).stays
  | loop hr hbody => exact stands_loop hr hbody.stays
  | region => cases helement

end Sequential
end CanonicalVhdl
