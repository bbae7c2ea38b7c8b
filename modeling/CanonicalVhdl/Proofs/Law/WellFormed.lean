import Mathlib.Data.List.DropRight
import CanonicalVhdl.Proofs.Comment.Search
import CanonicalVhdl.Proofs.Expr.Designators
import CanonicalVhdl.Proofs.Law.Basic

/-!
# Well-formed expressions

What the readers return is well formed.  This module says what that means for every kind of
node, and shows it for expressions and comments.

## Main definitions

* `Laws.wellFormed` — what every tree that was read obeys.

## Main statements

* `Reference.isOperand_of_readWith` — a text that is no call is read as a reference that no
  call could have been.
* `Expr.obeys_of_read` — expressions that were read are well formed.
-/

namespace CanonicalVhdl

open Text Token

/-! ## The laws -/

/-- Whether a choice may be one of several. -/
def Choice.isAlternative : Choice → Bool
  | value _ | range _ => true
  | alternatives _ | others => false

/-- Whether the code is a list of elements. -/
def Sequential.isList : Sequential → Bool
  | region _ => true
  | _ => false

/-- Whether the code is a list of elements. -/
def Concurrent.isList : Concurrent → Bool
  | region _ => true
  | _ => false

/-- Whether the contents are a list of items. -/
def BodyItem.isList : BodyItem → Bool
  | items _ => true
  | _ => false

/-- Whether a literal default of a built-in type is a value of that type. -/
def DefaultFits (type : TypeMark) (default : Option Expr) : Prop :=
  ∀ builtin l, type = .builtin builtin → default = some (.literal l) → l.fits builtin = true

/-- What is asked of every node of a tree that was read. -/
def Laws.wellFormed : Laws where
  comment c := '\n' ∉ c.text ∧ '\r' ∉ c.text ∧ trimEnd c.text = c.text
  expr
    | .reference r => r.isOperand = true
    | .call name arguments => name.isPlain = true ∧ arguments ≠ []
    | _ => True
  literal
    | .logic v => v.bit? = none
    | .vector (.logics vs) => ∃ v ∈ vs, v.bit? = none
    | _ => True
  object d := DefaultFits d.type d.default
  choice
    | .alternatives cs => 2 ≤ cs.length ∧ ∀ c ∈ cs, c.isAlternative = true
    | _ => True
  sequential
    | .selection _ branches => branches ≠ []
    | .region elements => elements.length ≠ 1 ∧ ∀ e ∈ elements, e.isList = false
    | _ => True
  waveform
    | .conditional chain => ∀ e, chain ≠ .value e
    | .plain _ => True
  process p := Ident.distinct p.sensitivity = true
  concurrent
    | .region elements => elements.length ≠ 1 ∧ ∀ e ∈ elements, e.isList = false
    | _ => True
  port p := DefaultFits p.type p.default
  generic g := DefaultFits g.type g.default
  portClause c := c.ports ≠ [] ∧ Ident.distinct (c.ports.map (·.name)) = true
  genericClause c := c.generics ≠ [] ∧ Ident.distinct (c.generics.map (·.name)) = true
  typeDecl
    | .enumeration _ values => values ≠ [] ∧ Ident.distinct values = true
    | .record _ fields => fields ≠ [] ∧ Ident.distinct (fields.map (·.name)) = true
    | .array _ _ _ => True
  signature s := Ident.distinct (s.parameters.map (·.name)) = true
  head p := Declaration.namesDistinct p.items = true
  package p := Declaration.namesDistinct p.items = true ∧ ∀ d ∈ p.items, d.isFunction = false
  bodyItem
    | .items elements => elements.length ≠ 1 ∧ ∀ e ∈ elements, e.isList = false
    | _ => True

/-! ## Comments -/

theorem Text.trimEnd_trimEnd (t : Text) : trimEnd (trimEnd t) = trimEnd t := by
  rw [trimEnd, trimEnd, List.reverse_reverse, List.dropWhile_idempotent]

theorem Comment.wellFormed_of_ofText? {t : Text} {c : Comment} (h : Comment.ofText? t = some c) :
    Laws.wellFormed.comment c := by
  rw [ofText?] at h
  split at h
  · cases h
  · next hline =>
    obtain rfl := Option.some.inj h
    rw [Bool.or_eq_true, not_or, List.contains_iff_mem, List.contains_iff_mem] at hline
    have hmem : ∀ c ∈ trimEnd t, c ∈ t := fun c hc => (isPrefix_trimEnd t).subset hc
    exact ⟨fun h => hline.1 (hmem _ h), fun h => hline.2 (hmem _ h), trimEnd_trimEnd t⟩

/-! ## Literals -/

/-- A nine-state value is read only where no two-state value is. -/
theorem Logic.bit?_of_ofChar? {c : Char} (hbit : Bit.ofChar? c = none) {v : Logic}
    (h : Logic.ofChar? c = some v) : v.bit? = none := by
  rcases toUpper_eq_self_or c with hself | ⟨n, rfl⟩
  · have hchar : v.char = c := by simpa [hself] using List.find?_some h
    cases v with
    | low | high =>
      rw [← hchar] at hbit
      cases hbit
    | uninitialized | unknown | highImpedance | weakUnknown | weakLow | weakHigh | dontCare => rfl
  · have key : ∀ n : Fin 26, ∀ v ∈ Logic.ofChar? (Char.ofNat (97 + n)), v.bit? = none := by decide
    exact key n v h

/-- A text that does not stand for two-state values stands for some value that is none. -/
theorem Logic.exists_bit?_eq_none {body : Text} {vs : List Logic}
    (hbits : body.mapM Bit.ofChar? = none) (h : body.mapM Logic.ofChar? = some vs) :
    ∃ v ∈ vs, v.bit? = none := by
  induction body generalizing vs with
  | nil => cases hbits
  | cons c body ih =>
    simp only [List.mapM_cons, bind, Option.bind_eq_some_iff, pure, Option.some.injEq] at h
    obtain ⟨v, hv, vs, hvs, rfl⟩ := h
    cases hc : Bit.ofChar? c with
    | none => exact ⟨v, List.mem_cons_self, bit?_of_ofChar? hc hv⟩
    | some b =>
      rw [List.mapM_cons, hc, Option.bind_eq_bind, Option.bind_some, Option.bind_eq_bind] at hbits
      have hrest : body.mapM Bit.ofChar? = none := by
        cases hrest : body.mapM Bit.ofChar? with
        | none => rfl
        | some bs =>
          rw [hrest] at hbits
          cases hbits
      obtain ⟨v', hv', hnone⟩ := ih hrest hvs
      exact ⟨v', List.mem_cons_of_mem v hv', hnone⟩

theorem VectorLiteral.obeys_of_readValues {body : Text} {v : VectorLiteral}
    (h : readValues body = some v) : (Literal.vector v).Obeys .wellFormed := by
  rw [readValues] at h
  split at h
  · obtain rfl := Option.some.inj h
    exact ⟨trivial, trivial⟩
  · next hbits =>
    obtain ⟨vs, hvs, rfl⟩ := Option.map_eq_some_iff.1 h
    exact ⟨Logic.exists_bit?_eq_none hbits hvs, trivial⟩

theorem VectorLiteral.obeys_of_readBased {base : Char} {body : Text} {v : VectorLiteral}
    (h : readBased base body = some v) : (Literal.vector v).Obeys .wellFormed := by
  rw [readBased] at h
  iterate 3
    split at h
    · obtain ⟨digits, -, rfl⟩ := Option.map_eq_some_iff.1 h
      exact ⟨trivial, trivial⟩
  cases h

/-! ## Readers given one for the expressions inside -/

section Readers

variable {expr : Text → Option Expr}
  (hexpr : ∀ t e, expr t = some e → e.Obeys .wellFormed)

include hexpr

theorem Range.obeys_of_readWith {t : Text} {r : Range} (h : Range.readWith expr t = some r) :
    r.Obeys .wellFormed := by
  simp only [Range.readWith, Option.bind_eq_bind] at h
  split at h
  · cases h
  split at h
  · obtain ⟨high, hhigh, h⟩ := Option.bind_eq_some_iff.1 h
    obtain ⟨low, hlow, h⟩ := Option.bind_eq_some_iff.1 h
    obtain rfl := Option.some.inj h
    exact ⟨hexpr _ _ hhigh, hexpr _ _ hlow⟩
  · split at h
    · obtain ⟨low, hlow, h⟩ := Option.bind_eq_some_iff.1 h
      obtain ⟨high, hhigh, h⟩ := Option.bind_eq_some_iff.1 h
      obtain rfl := Option.some.inj h
      exact ⟨hexpr _ _ hlow, hexpr _ _ hhigh⟩
    · cases h
  · cases h

theorem Index.obeys_of_readWith {t : Text} {i : Index} (h : Index.readWith expr t = some i) :
    i.Obeys .wellFormed := by
  simp only [Index.readWith] at h
  split at h
  · obtain rfl := Option.some.inj h
    trivial
  split at h
  · next r hr =>
    obtain rfl := Option.some.inj h
    exact Range.obeys_of_readWith hexpr hr
  · obtain ⟨e, he, rfl⟩ := Option.map_eq_some_iff.1 h
    exact hexpr _ _ he

theorem VectorLiteral.obeys_of_readWith {literal : Text → Option Literal}
    (hliteral : ∀ t l, literal t = some l → l.Obeys .wellFormed) {t : Text} {v : VectorLiteral}
    (h : VectorLiteral.readWith expr literal t = some v) :
    (Literal.vector v).Obeys .wellFormed := by
  have helement : ∀ t e, readElement expr literal t = some e → e.Obeys .wellFormed := by
    intro t e he
    simp only [readElement, Option.bind_eq_bind] at he
    obtain ⟨⟨index, value⟩, -, he⟩ := Option.bind_eq_some_iff.1 he
    obtain ⟨i, hi, he⟩ := Option.bind_eq_some_iff.1 he
    obtain ⟨l, hl, he⟩ := Option.bind_eq_some_iff.1 he
    obtain rfl := Option.some.inj he
    exact ⟨Index.obeys_of_readWith hexpr hi, hliteral _ _ hl⟩
  simp only [VectorLiteral.readWith] at h
  split at h
  · cases h
  split at h
  · obtain ⟨es, hes, rfl⟩ := Option.map_eq_some_iff.1 h
    simp only [readAggregate, Option.bind_eq_bind] at hes
    obtain ⟨⟨inner, after⟩, -, hes⟩ := Option.bind_eq_some_iff.1 hes
    split at hes
    · cases hes
    · exact ⟨trivial, (Element.allObey_iff _).2 (forall_of_mapM helement _ _ hes)⟩
  · obtain ⟨body, -, h⟩ := Option.bind_eq_some_iff.1 h
    exact obeys_of_readValues h
  · split at h
    · obtain ⟨body, -, h⟩ := Option.bind_eq_some_iff.1 h
      exact obeys_of_readBased h
    · cases h
  · cases h

theorem Literal.obeys_of_readNested (fuel : Nat) :
    ∀ t l, Literal.readNested expr fuel t = some l → l.Obeys .wellFormed := by
  induction fuel with
  | zero =>
    intro t l h
    cases h
  | succ fuel ih =>
    intro t l h
    simp only [readNested] at h
    split at h
    · cases h
    split at h
    · rw [readTicked] at h
      split at h
      · obtain rfl := Option.some.inj h
        trivial
      · next hbit =>
        obtain ⟨v, hv, rfl⟩ := Option.map_eq_some_iff.1 h
        exact Logic.bit?_of_ofChar? hbit hv
    · rw [readPlain] at h
      iterate 3
        split at h
        · obtain rfl := Option.some.inj h
          trivial
      split at h
      · obtain ⟨x, -, rfl⟩ := Option.map_eq_some_iff.1 h
        trivial
      · obtain ⟨v, hv, rfl⟩ := Option.map_eq_some_iff.1 h
        exact VectorLiteral.obeys_of_readWith hexpr ih hv

theorem Literal.obeys_of_readWith {t : Text} {l : Literal} (h : Literal.readWith expr t = some l) :
    l.Obeys .wellFormed :=
  Literal.obeys_of_readNested hexpr _ _ _ h

theorem Reference.obeys_of_readWith {t : Text} {r : Reference}
    (h : Reference.readWith expr t = some r) : r.Obeys .wellFormed := by
  simp only [Reference.readWith] at h
  split at h
  · obtain rfl := Option.some.inj h
    trivial
  split at h
  · split at h
    · simp only [Reference.readIndexed, Option.bind_eq_bind] at h
      obtain ⟨⟨start, stop⟩, -, h⟩ := Option.bind_eq_some_iff.1 h
      split at h
      · cases h
      obtain ⟨name, -, h⟩ := Option.bind_eq_some_iff.1 h
      obtain ⟨index, hindex, h⟩ := Option.bind_eq_some_iff.1 h
      obtain rfl := Option.some.inj h
      exact ⟨trivial, Index.obeys_of_readWith hexpr hindex⟩
    · cases h
  split at h
  · obtain ⟨record, -, h⟩ := Option.bind_eq_some_iff.1 h
    obtain ⟨field, -, h⟩ := Option.bind_eq_some_iff.1 h
    obtain rfl := Option.some.inj h
    exact ⟨trivial, trivial⟩
  · simp only [Option.bind_eq_bind] at h
    obtain ⟨⟨object, designator⟩, -, h⟩ := Option.bind_eq_some_iff.1 h
    obtain ⟨object, -, h⟩ := Option.bind_eq_some_iff.1 h
    obtain ⟨d, -, h⟩ := Option.bind_eq_some_iff.1 h
    obtain rfl := Option.some.inj h
    trivial

theorem Argument.obeys_of_readWith {t : Text} {a : Argument}
    (h : Argument.readWith expr t = some a) : a.Obeys .wellFormed := by
  simp only [Argument.readWith] at h
  split at h
  · obtain ⟨parameter, -, h⟩ := Option.bind_eq_some_iff.1 h
    obtain ⟨value, hvalue, h⟩ := Option.bind_eq_some_iff.1 h
    obtain rfl := Option.some.inj h
    exact ⟨fun _ _ => trivial, hexpr _ _ hvalue⟩
  · obtain ⟨value, hvalue, rfl⟩ := Option.map_eq_some_iff.1 h
    exact ⟨fun _ _ => trivial, hexpr _ _ hvalue⟩

end Readers

/-! ## Groups after a name -/

theorem codePointsFrom_add (k skip position depth : Nat) (before : Option Char) (t : Text) :
    codePointsFrom [] skip (position + k) depth before t
      = (codePointsFrom [] skip position depth before t).map
        fun p => { p with position := p.position + k } := by
  induction t generalizing skip position depth before with
  | nil => rfl
  | cons c t ih =>
    have hnext : position + k + 1 = position + 1 + k := by omega
    cases skip with
    | succ skip =>
      simp only [codePointsFrom]
      rw [hnext, ih]
    | zero =>
      simp only [codePointsFrom]
      split
      · rw [hnext, ih]
      · rw [codePointsFrom_append, codePointsFrom_append [_], hnext, ih]
        simp
      · rw [codePointsFrom_append, codePointsFrom_append [_], hnext, ih]
        simp

theorem closeGroup_add (opening closing : Char) (k start count : Nat) (ps : List CodePoint) :
    closeGroup opening closing (some (start + k, count))
        (ps.map fun p => { p with position := p.position + k })
      = (closeGroup opening closing (some (start, count)) ps).map
        (Option.map fun g => (g.1 + k, g.2 + k)) := by
  induction ps generalizing count with
  | nil => rfl
  | cons p ps ih =>
    simp only [List.map_cons, closeGroup]
    split
    · exact ih _
    split
    · split
      · simp only [Option.map_some]
        congr 3
        omega
      · exact ih _
    · exact ih _

theorem closeFrom_add (k start count position depth : Nat) (before : Option Char) (t : Text) :
    closeFrom (some (start + k, count)) (position + k) depth before t
      = (closeFrom (some (start, count)) position depth before t).map
        (Option.map fun g => (g.1 + k, g.2 + k)) := by
  rw [closeFrom, codePointsFrom_add, closeGroup_add, closeFrom]

theorem closeFrom_open (position : Nat) (before : Option Char) (t : Text) : closeFrom none position 0 before ('(' :: t)
      = closeFrom (some (position, 1)) (position + 1) 1 (some '(') t := by
  rw [closeFrom, codePointsFrom_code _ _ (at_open _)]
  rfl

/-- A group that follows a plain name stands where it stands on its own, only later. -/
theorem balancedSpan?_plain {name : Text} (hname : name.all isPlain = true)
    (ho : '(' ∉ name) (hc : ')' ∉ name) (t : Text) :
    balancedSpan? '(' ')' (name ++ '(' :: t)
      = (balancedSpan? '(' ')' ('(' :: t)).map fun g => (g.1 + name.length, g.2 + name.length) := by
  have hpass : closeFrom none 0 0 none (name ++ '(' :: t)
      = closeFrom none (0 + name.length) 0 (lastOr none name) ('(' :: t) := by
    refine closeFrom_pass name 0 none fun a c b hx => ?_
    have hmem : c ∈ name := hx ▸ List.mem_append_right _ List.mem_cons_self
    exact ⟨at_plain _ (List.all_eq_true.1 hname c hmem) _, fun h => ho (h ▸ hmem),
      fun h => hc (h ▸ hmem)⟩
  have hspan : closeFrom none 0 0 none (name ++ '(' :: t)
      = (closeFrom none 0 0 none ('(' :: t)).map
        (Option.map fun g => (g.1 + name.length, g.2 + name.length)) := by
    rw [hpass, closeFrom_open, closeFrom_open, show 0 + name.length + 1 = 0 + 1 + name.length by omega,
      closeFrom_add]
  have hclosed : closeFrom none 0 0 none ('(' :: t) ≠ some none := by
    rw [closeFrom_open]
    intro hnone
    obtain ⟨p, -, -, hp⟩ := exists_of_closeGroup hnone
    cases hp
  rw [balancedSpan?, balancedSpan?, codePoints, codePoints, ← closeFrom, ← closeFrom, hspan]
  rcases hgroup : closeFrom none 0 0 none ('(' :: t) with _ | _ | g
  · rfl
  · exact absurd hgroup hclosed
  · rfl

/-! ## References where an expression stands -/

/-- A text that is an identifier with blanks behind it is plain code without parentheses. -/
theorem Ident.plain_of_trimEnd {t : Text} {n : Ident} (h : Ident.ofText? (trimEnd t) = some n) :
    t.all Text.isPlain = true ∧ '(' ∉ t ∧ ')' ∉ t := by
  obtain ⟨g, hg, ht⟩ := exists_pad_trimEnd t
  rw [← Ident.of_ofText? h] at ht
  have hmem : ∀ c, isIdentChar c = false → isBlank c = false → c ∉ t := by
    intro c hident hblank hc
    rw [ht] at hc
    rcases List.mem_append.1 hc with hc | hc
    · exact n.isRun.not_mem hident hc
    · have := List.all_eq_true.1 hg c hc
      rw [hblank] at this
      cases this
  refine ⟨?_, hmem _ (by decide) (by decide), hmem _ (by decide) (by decide)⟩
  rw [ht, List.all_append, all_isPlain_of_ident n.isRun.ident, all_isPlain_of_blank hg]
  rfl

/-- A name with an index in parentheses has the shape of a call. -/
theorem Expr.isSome_callShape?_of_readIndexed {expr : Text → Option Expr} {t : Text} {r : Reference}
    (hopen : '(' ∈ t) (hlast : t.getLast? = some ')') (h : Reference.readIndexed expr t = some r) :
    (Expr.callShape? t).isSome = true := by
  simp only [Reference.readIndexed, Option.bind_eq_bind] at h
  obtain ⟨⟨start, stop⟩, hspan, h⟩ := Option.bind_eq_some_iff.1 h
  split at h
  · cases h
  next hends =>
  obtain ⟨n, hn, -⟩ := Option.bind_eq_some_iff.1 h
  rw [Bool.or_eq_true, not_or, bne_iff_ne, bne_iff_ne, not_not, not_not] at hends
  obtain ⟨hstart, hstop⟩ := hends
  obtain ⟨hplain, ho, hc⟩ := Ident.plain_of_trimEnd hn
  obtain ⟨name, rest, hsplit⟩ := Text.exists_splitOnce hopen
  obtain ⟨rfl, hname⟩ := eq_of_splitOnce hsplit
  rw [← hname] at hn hplain ho hc hstart
  have hgroup : balancedSpan? '(' ')' ('(' :: rest) = some (0, ('(' :: rest).length) := by
    rw [balancedSpan?_plain hplain ho hc] at hspan
    obtain ⟨⟨a, b⟩, hab, heq⟩ := Option.map_eq_some_iff.1 hspan
    obtain ⟨ha, hb⟩ := Prod.mk.inj heq
    rw [List.length_append] at hstop
    rw [hab]
    congr 2 <;> omega
  have hshape : parenthesised? ('(' :: rest) = some (('(' :: rest).dropLast.drop 1, []) := by
    rw [parenthesised?, hgroup]
    simp [List.dropLast_eq_take]
  simp [callShape?, hlast, ← hname, hn, hshape]

/-- A truth value is read as a literal. -/
theorem Literal.isSome_readWith_of_word {expr : Text → Option Expr} {t : Text}
    (htrim : trim t = t) (hfits : Text.fits Limits.literalBytes t = true)
    (h : sameWord t "true".toList = true ∨ sameWord t "false".toList = true) :
    (Literal.readWith expr t).isSome = true := by
  have hlength : t.length = 4 ∨ t.length = 5 :=
    h.imp length_eq_of_sameWord length_eq_of_sameWord
  have hne : t.isEmpty = false := by
    rw [List.isEmpty_eq_false_iff, ← List.length_pos_iff]
    omega
  rw [readWith, readNested, htrim, hne, hfits]
  simp only [Bool.not_true, Bool.or_self, Bool.false_eq_true, if_false]
  split
  · simp at hlength
  · rw [readPlain]
    rcases h with h | h
    · rw [if_pos h]
      rfl
    · rw [if_pos h]
      split <;> rfl

/-- A text that is neither a literal nor a call is read as a reference that could stand for
neither. -/
theorem Reference.isOperand_of_readWith {expr : Text → Option Expr} {t : Text} {r : Reference}
    (htrim : trim t = t) (hfits : Text.fits Limits.literalBytes t = true)
    (hliteral : Literal.readWith expr t = none) (hcall : Expr.callShape? t = none)
    (h : Reference.readWith expr t = some r) : r.isOperand = true := by
  simp only [readWith, htrim] at h
  split at h
  · next n hn =>
    obtain rfl := Option.some.inj h
    have hword : ¬(sameWord t "true".toList = true ∨ sameWord t "false".toList = true) := by
      intro hword
      have : (Literal.readWith expr t).isSome = true :=
        Literal.isSome_readWith_of_word htrim hfits hword
      rw [hliteral] at this
      cases this
    rw [not_or, Bool.not_eq_true, Bool.not_eq_true] at hword
    rw [isOperand, Ident.of_ofText? hn, hword.1, hword.2]
    rfl
  split at h
  · next hlast =>
    split at h
    · next hopen =>
      have := Expr.isSome_callShape?_of_readIndexed (List.contains_iff_mem.1 hopen)
        (beq_iff_eq.1 hlast) h
      rw [hcall] at this
      cases this
    · cases h
  split at h
  · obtain ⟨record, -, h⟩ := Option.bind_eq_some_iff.1 h
    obtain ⟨field, -, h⟩ := Option.bind_eq_some_iff.1 h
    obtain rfl := Option.some.inj h
    rfl
  · simp only [Option.bind_eq_bind] at h
    obtain ⟨⟨object, designator⟩, -, h⟩ := Option.bind_eq_some_iff.1 h
    obtain ⟨object, -, h⟩ := Option.bind_eq_some_iff.1 h
    obtain ⟨d, -, h⟩ := Option.bind_eq_some_iff.1 h
    obtain rfl := Option.some.inj h
    rfl

/-! ## Expressions -/

namespace Expr

section Shapes

variable {code expr : Text → Option Expr}
  (hcode : ∀ t e, code t = some e → e.Obeys .wellFormed)
  (hexpr : ∀ t e, expr t = some e → e.Obeys .wellFormed)

include hcode hexpr

theorem obeys_of_readCall {name : Ident} {inner : Text} {e : Expr}
    (h : readCall code expr name inner = some e) : e.Obeys .wellFormed := by
  simp only [readCall] at h
  split at h
  · split at h
    · obtain ⟨value, hvalue, rfl⟩ := Option.map_eq_some_iff.1 h
      exact ⟨trivial, hcode _ _ hvalue⟩
    · cases h
  next hconversion =>
  split at h
  · split at h
    · obtain ⟨signal, hsignal, rfl⟩ := Option.map_eq_some_iff.1 h
      exact ⟨trivial, Reference.obeys_of_readWith hexpr hsignal⟩
    · cases h
  next hedge =>
  have hplain : name.isPlain = true := by
    rw [Ident.isPlain, hconversion, hedge]
    rfl
  split at h
  · next arguments harguments =>
    rw [callOf?] at h
    split at h
    · cases h
    · next hne =>
      obtain rfl := Option.some.inj h
      refine ⟨⟨hplain, fun hnil => hne (by rw [hnil]; rfl)⟩, trivial, ?_⟩
      exact (Argument.allObey_iff _).2
        (forall_of_mapM (fun _ _ => Argument.obeys_of_readWith hexpr) _ _ harguments)
  split at h
  · split at h
    · cases h
    · cases h
    · next index hposition hindex =>
      obtain rfl := Option.some.inj h
      refine ⟨?_, trivial, Index.obeys_of_readWith hexpr hindex⟩
      cases index with
      | position value => exact absurd rfl (hposition value)
      | slice | others => exact hplain
  · cases h

theorem obeys_of_readOperand {t : Text} {e : Expr} (htrim : trim t = t)
    (hfits : Text.fits Limits.literalBytes t = true) (hliteral : Literal.readWith expr t = none)
    (hcall : callShape? t = none) (h : readOperand code expr t = some e) :
    e.Obeys .wellFormed := by
  simp only [readOperand, Option.bind_eq_bind] at h
  split at h
  · obtain ⟨⟨inner, after⟩, -, h⟩ := Option.bind_eq_some_iff.1 h
    split at h
    · obtain ⟨value, hvalue, rfl⟩ := Option.map_eq_some_iff.1 h
      exact ⟨trivial, hcode _ _ hvalue⟩
    · cases h
  split at h
  · obtain ⟨value, hvalue, rfl⟩ := Option.map_eq_some_iff.1 h
    exact ⟨trivial, hcode _ _ hvalue⟩
  · obtain ⟨r, hr, rfl⟩ := Option.map_eq_some_iff.1 h
    exact ⟨Reference.isOperand_of_readWith htrim hfits hliteral hcall hr,
      Reference.obeys_of_readWith hexpr hr⟩

omit hexpr in
theorem obeys_of_readBinary {o : Operator} {t : Text} {e : Expr}
    (h : readBinary code o t = some e) : e.Obeys .wellFormed := by
  simp only [readBinary, Option.bind_eq_bind] at h
  obtain ⟨lhs, hlhs, h⟩ := Option.bind_eq_some_iff.1 h
  obtain ⟨rhs, hrhs, h⟩ := Option.bind_eq_some_iff.1 h
  obtain rfl := Option.some.inj h
  cases hop : o.op with
  | logic | rel | arith => exact ⟨trivial, hcode _ _ hlhs, hcode _ _ hrhs⟩

theorem obeys_of_readShape {t : Text} {e : Expr} (htrim : trim t = t)
    (hfits : Text.fits Limits.literalBytes t = true) (h : readShape code expr t = some e) :
    e.Obeys .wellFormed := by
  simp only [readShape] at h
  split at h
  · next l hl =>
    obtain rfl := Option.some.inj h
    exact ⟨trivial, Literal.obeys_of_readWith hexpr hl⟩
  next hliteral =>
  split at h
  · exact obeys_of_readCall hcode hexpr h
  next hcall =>
  split at h
  · cases h
  · exact obeys_of_readOperand hcode hexpr htrim hfits hliteral hcall h
  · obtain ⟨o, -, h⟩ := Option.bind_eq_some_iff.1 h
    exact obeys_of_readBinary hcode h

end Shapes

theorem obeys_of_readCode (room : Nat) :
    ∀ t e, readCode room t = some e → e.Obeys .wellFormed := by
  induction room with
  | zero =>
    intro t e h
    cases h
  | succ room ih =>
    intro t e h
    simp only [readCode] at h
    split at h
    · cases h
    · next hsize =>
      rw [Bool.or_eq_true, not_or, Bool.not_eq_true', Bool.not_eq_false] at hsize
      exact obeys_of_readShape ih (fun t e h => ih _ _ h) (trim_eq_self (trimmed_trim t)) hsize.2 h

/-- Expressions that were read are well formed. -/
theorem obeys_of_read {room : Nat} {t : Text} {e : Expr} (h : read room t = some e) :
    e.Obeys .wellFormed :=
  obeys_of_readCode room _ e h

end Expr

theorem Reference.obeys_of_read {room : Nat} {t : Text} {r : Reference}
    (h : Reference.read room t = some r) : r.Obeys .wellFormed :=
  Reference.obeys_of_readWith (fun _ _ => Expr.obeys_of_read) h

theorem Range.obeys_of_read {room : Nat} {t : Text} {r : Range}
    (h : Range.read room t = some r) : r.Obeys .wellFormed :=
  Range.obeys_of_readWith (fun _ _ => Expr.obeys_of_read) h

end CanonicalVhdl
