import CanonicalVhdl.Proofs.Object.Type
import CanonicalVhdl.Proofs.Region.Pieces

/-!
# Declarations of objects that read back

## Main definitions

* `ObjectDecl.ReadsBack` — the parts of a declaration read back, its default may be a
  value of its type, and it is not too long.
* `ObjectDecl.code` — a declaration without the comment behind it.

## Main statements

* `TypedName.readTyped_text` — a type with a default is read from its text.
* `ObjectDecl.ReadsBack.readWithTrailer` — a declaration is read from its code and its
  comment.
* `ObjectDecl.ReadsBack.shows` — what a declaration looks like in a region.
-/

namespace CanonicalVhdl

open Text Token

/-! ## One line without a comment -/

/-- One line of tokens ends with no comment. -/
theorem Comment.splitTrailer_line {t : Text} (hsolid : Solid t) (hline : '\n' ∉ t)
    (hcomment : commentStart? t = none) : Comment.splitTrailer t = (t, none) := by
  have hlast : Comment.splitLast t = ([], t) := by
    rw [Comment.splitLast, splitOn_of_not_mem hline]
    rfl
  have htrailing : splitTrailing t = (t, none) := by
    rw [splitTrailing, hcomment, trimEnd_eq_self hsolid.last]
  have hempty : stripComments [] = [] := rfl
  rw [Comment.splitTrailer, trim_eq_self hsolid.toTrimmed, hlast]
  simp only [htrailing, hempty, trim_eq_self hsolid.toTrimmed]
  rfl

/-! ## Types with defaults -/

namespace TypedName

/-- The tokens of a type with a default. -/
def typeTokens (type : TypeMark) : Option Expr → List Token
  | none => type.tokens
  | some value => type.tokens ++ (spaced ":=".toList ++ value.tokens)

theorem render_typeTokens (type : TypeMark) (default : Option Expr) :
    render (typeTokens type default) = typeText type.text default := by
  cases default with
  | none => exact type.render_tokens
  | some value =>
    have hsymbol : " := ".toList = ' ' :: (":=".toList ++ [' ']) := rfl
    rw [typeTokens, typeText, render_append, render_append, type.render_tokens, render_spaced,
      value.render_tokens, hsymbol]

/-- Whether a type and a default read back. -/
structure ReadsBack (room : Nat) (type : TypeMark) (default : Option Expr) : Prop where
  /-- The default may be a value of the type. -/
  admits : default.all type.admits = true
  /-- The type reads back. -/
  type : type.ReadsBack room
  /-- The default reads back. -/
  default : ∀ e ∈ default, e.ReadsBack room

variable {room : Nat} {type : TypeMark} {default : Option Expr}

theorem isPattern_assign : IsPattern ":=".toList := .inr (by decide)

theorem ReadsBack.isPhrase (h : ReadsBack room type default) : IsPhrase (typeTokens type default) := by
  cases default with
  | none => exact h.type.isPhrase
  | some value => exact h.type.isPhrase.spaced (h.default value rfl).isPhrase (by decide)

theorem ReadsBack.isInert (h : ReadsBack room type default) :
    ∀ t ∈ typeTokens type default, Nesting.isInert t = true := by
  cases default with
  | none => exact h.type.isInert
  | some value =>
    intro t ht
    simp only [typeTokens, List.mem_append] at ht
    rcases ht with ht | ht | ht
    · exact h.type.isInert t ht
    · exact isInert_spaced (fun h => absurd h (by decide)) t ht
    · exact (h.default value rfl).isInert t ht

theorem ReadsBack.newline_not_mem (h : ReadsBack room type default) :
    '\n' ∉ typeText type.text default := by
  cases default with
  | none => exact h.type.newline_not_mem
  | some value =>
    rw [typeText]
    simp only [List.mem_append, not_or]
    exact ⟨h.type.newline_not_mem, by decide, (h.default value rfl).newline_not_mem⟩

theorem ReadsBack.solid (h : ReadsBack room type default) : Solid (typeText type.text default) := by
  cases default with
  | none => exact h.type.solid
  | some value => exact h.type.solid.between (h.default value rfl).solid _

/-- No semicolon stands outside the parentheses of a type and a default. -/
theorem ReadsBack.lacks_semicolon (h : ReadsBack room type default) :
    Lacks [';'] (typeTokens type default) := by
  have htype : Lacks [';'] type.tokens := h.type.lacks (by decide) (by decide) (by decide) (by decide)
  cases default with
  | none => exact htype
  | some value =>
    have hvalue : Lacks [';'] value.tokens := lacks_of_isCalm (by decide) (h.default value rfl).isCalm
    exact lacks_append.2 ⟨htype, lacks_append.2 ⟨by decide, hvalue⟩⟩

/-- The name before the first colon is split off. -/
theorem splitName?_text (name : Ident) (u : Text) :
    splitName? (name.text ++ ':' :: ' ' :: u) = some (name, ' ' :: u) := by
  rw [splitName?, splitOnce_append (name.isRun.not_mem (by decide))]
  simp only [Option.bind_eq_bind, Option.bind_some, trim_eq_self name.isRun.trimmed, name.ofText?_text]
  rfl

/-- **A type with a default is read from its text**, whatever padding stands before it. -/
theorem ReadsBack.readTyped (h : ReadsBack room type default) (name : Ident) {g : Text}
    (hg : IsPad g) :
    TypedName.readTyped room name (g ++ typeText type.text default) = some ⟨name, type, default⟩ := by
  have hforeign : isForeign ":=".toList = true := by decide
  have hlacks : Lacks ":=".toList (pad g ++ type.tokens) := by
    rw [lacks_append]
    exact ⟨lacks_pad hforeign hg, h.type.lacks hforeign (by decide) (by decide) (by decide)⟩
  have hphrase : IsPhrase (pad g ++ type.tokens) := by
    have := h.type.isPhrase.pad hg isPad_nil
    simpa [pad] using this
  have hrender : render (pad g ++ type.tokens) = g ++ type.text := by
    rw [render_append, render_pad, type.render_tokens]
  cases default with
  | none =>
    have hcut := cutOuter?_eq_none isPattern_assign (hphrase none none rfl rfl) hlacks
    have hread := h.type.reads g [] hg isPad_nil
    rw [List.append_nil] at hread
    rw [hrender] at hcut
    simp only [TypedName.readTyped, typeText, hcut, hread]
    rfl
  | some value =>
    have hsymbol : " := ".toList = ' ' :: (":=".toList ++ [' ']) := rfl
    have hcut := cutOuter?_spaced isPattern_assign (by decide) hphrase hlacks value.text
    have htype := h.type.reads g [' '] hg isPad_blank
    have hvalue := (h.default value rfl).reads [' '] [] isPad_blank isPad_nil
    have hadmits : (⟨name, type, some value⟩ : TypedName).isConsistent = true := h.admits
    rw [List.append_nil, List.singleton_append] at hvalue
    rw [hrender, List.append_assoc] at hcut
    rw [typeText, hsymbol, List.cons_append, List.append_assoc, List.singleton_append,
      TypedName.readTyped, hcut]
    simp only [List.append_assoc, htype, hvalue, Option.bind_eq_bind, Option.bind_some, hadmits,
      if_true]

end TypedName

/-! ## Declarations -/

theorem ObjectClass.isName (c : ObjectClass) : IsName c.keyword.toList := by
  cases c <;> exact ⟨by decide, by decide⟩

/-- The class of a text that starts with a keyword. -/
theorem ObjectClass.ofDeclaration?_keyword (c : ObjectClass) {u : Text}
    (hu : u.head?.any isIdentChar = false) :
    ObjectClass.ofDeclaration? (c.keyword.toList ++ u) = some c := by
  have hstarts : ∀ c' : ObjectClass,
      startsWith c'.keyword.toList (c.keyword.toList ++ u) = (c' == c) := by
    intro c'
    have := startsWith_run (g := []) rfl c'.isName.isRun c.isName.isRun hu
    rw [List.nil_append] at this
    rw [this]
    cases c' <;> cases c <;> decide
  simp only [ObjectClass.ofDeclaration?, hstarts]
  cases c <;> rfl

namespace ObjectDecl

/-- A declaration without the comment behind it. -/
def code (d : ObjectDecl) : Text := (d.withComment none).text

/-- The tokens of a declaration, its semicolon aside. -/
def tokens (d : ObjectDecl) : List Token :=
  word d.objectClass.keyword.toList :: mark ' ' :: word d.name.text :: mark ':' :: mark ' '
    :: TypedName.typeTokens d.type d.default

theorem render_tokens (d : ObjectDecl) : render d.tokens ++ [';'] = d.code := by
  have hcolon : ": ".toList = [':', ' '] := rfl
  simp only [code, withComment, text, Comment.append, tokens, render_cons, text_word, text_mark,
    TypedName.render_typeTokens, hcolon, List.append_assoc, List.cons_append, List.nil_append]

/-- Whether the parts of a declaration read back, its default may be a value of its type,
and it is not too long. -/
structure ReadsBack (room : Nat) (d : ObjectDecl) : Prop where
  /-- The type and the default read back. -/
  typed : TypedName.ReadsBack room d.type d.default
  /-- The comment is one line. -/
  comment : ∀ c ∈ d.comment, IsCommentText c.text
  /-- The declaration is not too long. -/
  fits : Text.fits Limits.statementBytes d.code = true

variable {room : Nat} {d : ObjectDecl}

theorem ReadsBack.isPhrase (h : d.ReadsBack room) : IsPhrase d.tokens :=
  (h.typed.isPhrase.labelled d.name.isName).prefixed d.objectClass.isName

/-- A declaration is one statement. -/
theorem ReadsBack.isStatement (h : d.ReadsBack room) : IsStatement true d.code := by
  rw [← d.render_tokens]
  refine isStatement_inert h.isPhrase d.objectClass.isName
    (by cases d.objectClass <;> decide) fun t ht => ?_
  simp only [List.mem_cons] at ht
  rcases ht with rfl | rfl | rfl | rfl | rfl | ht
  · cases d.objectClass <;> decide
  · rfl
  · exact Nesting.isInert_of_isCalm (isCalm_word d.name.not_isReserved)
  · rfl
  · rfl
  · exact h.typed.isInert t ht

theorem ReadsBack.newline_not_mem (h : d.ReadsBack room) : '\n' ∉ d.code := by
  rw [← d.render_tokens, tokens]
  simp only [render_cons, text_word, text_mark, TypedName.render_typeTokens, List.mem_append,
    List.mem_cons, List.not_mem_nil, not_or, or_false]
  exact ⟨⟨d.objectClass.isName.isRun.newline_not_mem, by decide, d.name.isRun.newline_not_mem,
    by decide, by decide, h.typed.newline_not_mem⟩, by decide⟩

/-- A declaration without a comment is read from its code. -/
theorem ReadsBack.readAs (h : d.ReadsBack room) :
    ObjectDecl.readAs room d.objectClass d.code = some (d.withComment none) := by
  have hcomment : commentStart? d.code = none := by
    have hfit : FitAll none (d.tokens ++ [mark ';']) none :=
      fitAll_append.2 ⟨h.isPhrase _ _ rfl rfl, fits_separator (by decide), trivial⟩
    have := commentStart?_render hfit
    rwa [render_append, render_cons, text_mark, render_nil, List.append_nil, d.render_tokens] at this
  have htrailer := Comment.splitTrailer_line h.isStatement.solid h.newline_not_mem hcomment
  have hcode : d.code = d.objectClass.keyword.toList ++ ' ' :: (d.name.text ++ ':' ::
      (' ' :: TypedName.typeText d.type.text d.default) ++ [';']) := by
    rw [← d.render_tokens, tokens]
    simp only [render_cons, text_word, text_mark, TypedName.render_typeTokens, List.append_assoc,
      List.cons_append, List.nil_append]
  have hname : (d.name.text ++ ':' :: (' ' :: TypedName.typeText d.type.text d.default)
      ++ [';']).head?.any isBlank = false := by
    rw [List.append_assoc, List.head?_append_of_ne_nil _ d.name.isRun.ne_nil]
    exact d.name.isRun.trimmed.head
  have hafter := afterWord?_blank d.objectClass.isName.isRun hname
  have hbody : trimEnd (d.name.text ++ ':' :: (' ' :: TypedName.typeText d.type.text d.default))
      = d.name.text ++ ':' :: (' ' :: TypedName.typeText d.type.text d.default) := by
    refine trimEnd_eq_self ?_
    have := (d.name.isRun.solid.between h.typed.solid [':', ' ']).last
    exact this
  have htyped := h.typed.readTyped d.name isPad_blank
  rw [ObjectDecl.readAs, h.fits, htrailer]
  simp only [Bool.not_true, Bool.false_eq_true, if_false, Option.bind_eq_bind]
  rw [hcode, hafter, Option.bind_some, dropFinal?_append, Option.bind_some, hbody,
    TypedName.splitName?_text, Option.bind_some, ← List.singleton_append, htyped, Option.bind_some, ofTyped?, dif_pos d.valued]
  rfl

theorem ReadsBack.readWithTrailer (h : d.ReadsBack room) :
    ObjectDecl.readWithTrailer room d.code (d.comment.map (·.text)) = some d := by
  have hread : ObjectDecl.read room d.code = some (d.withComment none) := by
    have hclass : ObjectClass.ofDeclaration? d.code = some d.objectClass := by
      rw [← d.render_tokens, tokens, render_cons, text_word, List.append_assoc]
      exact d.objectClass.ofDeclaration?_keyword (by rfl)
    rw [ObjectDecl.read, trimStart_eq_self h.isStatement.solid.head, hclass, Option.bind_some, h.readAs]
  rw [ObjectDecl.readWithTrailer, hread, Option.map_some]
  obtain ⟨objectClass, name, type, default, comment, valued⟩ := d
  cases comment with
  | none => rfl
  | some c =>
    simp only [Option.map_some, (h.comment c rfl).ofText?]
    rfl

/-- What a declaration looks like in a region. -/
theorem ReadsBack.shows (h : d.ReadsBack room) :
    Shows true (.code d.code (d.comment.map (·.text))) d.text := by
  have htext : d.text = Comment.append d.code d.comment := rfl
  rw [htext]
  cases hc : d.comment with
  | none => exact .code h.isStatement
  | some c => exact .trailed h.isStatement (h.comment c hc)

theorem ReadsBack.newline_not_mem_text (h : d.ReadsBack room) : '\n' ∉ d.text := by
  have htext : d.text = Comment.append d.code d.comment := rfl
  rw [htext]
  cases hc : d.comment with
  | none => exact h.newline_not_mem
  | some c =>
    have hcomment := (h.comment c hc).newline_not_mem
    simp only [Comment.append, Comment.line, List.mem_append, List.mem_cons, not_or]
    exact ⟨h.newline_not_mem, by decide, by decide, by decide, hcomment⟩

/-- A text whose first word is the keyword of no class is no declaration. -/
theorem readWithTrailer_eq_none {t : Text} (ht : t.head?.any isBlank = false)
    (hclass : ∀ c : ObjectClass, startsWith c.keyword.toList t = false) (room : Nat)
    (trailer : Option Text) : ObjectDecl.readWithTrailer room t trailer = none := by
  have hnone : ObjectClass.ofDeclaration? t = none := by
    simp [ObjectClass.ofDeclaration?, hclass]
  rw [ObjectDecl.readWithTrailer, ObjectDecl.read, trimStart_eq_self ht, hnone]
  rfl

end ObjectDecl
end CanonicalVhdl
