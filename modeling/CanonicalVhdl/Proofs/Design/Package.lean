import CanonicalVhdl.Design.Package
import CanonicalVhdl.Proofs.Design.Signature
import CanonicalVhdl.Proofs.Design.TypeDecl
import CanonicalVhdl.Proofs.Sequential.ReadBack

/-!
# Packages read back

The items of a package stand in a block.  Cut into pieces, each item is told by its first word:
an object by that of its class, the others by `type`, `component` and `function`.

## Main definitions

* `Declaration.ReadsBack` — an item that reads back; functions with bodies are not among them.
* `Package.ReadsBack` — the items of a package read back and declare distinct names.

## Main statements

* `Declaration.ReadsBack.readPiece` — an item is read from its piece.
* `Declaration.readPart_block` — the items of a declarative part are read from their lines.
* `Package.ReadsBack.read_text` — a package is read from its text.
* `read_declarative_text` — so is every entity, component and package.
-/

namespace CanonicalVhdl

open Text Token

variable {room : Nat}

/-! ## Items -/

namespace Declaration

/-- Whether the parts of an item read back. -/
inductive ReadsBack (room : Nat) : Declaration → Prop
  | object {d : ObjectDecl} : d.ReadsBack room → ReadsBack room (.object d)
  | comment {c : Comment} : IsCommentText c.text → ReadsBack room (.comment c)
  | type {d : TypeDecl} : d.ReadsBack room → ReadsBack room (.type d)
  | component {c : Interface} : c.ReadsBack room → ReadsBack room (.component c)
  | signature {s : Signature} : s.ReadsBack room → ReadsBack room (.signature s)

/-- What an item is in a region with `k` steps of indentation. -/
def piece (k : Nat) : Declaration → Piece
  | object d => .code d.code (d.comment.map (·.text))
  | comment c => .comment c.text
  | d => .code (shift k d.text) none

variable {d : Declaration}

theorem ReadsBack.isFunction (h : d.ReadsBack room) : d.isFunction = false := by
  cases h <;> rfl

/-- What an item looks like in a region. -/
theorem ReadsBack.isLaid (h : d.ReadsBack room) : Laid true (piece · d) d.text := by
  cases h with
  | object h => exact .of_line h.shows h.newline_not_mem_text
  | @comment c h =>
    have hline : '\n' ∉ '-' :: '-' :: c.text := by
      rw [List.mem_cons, List.mem_cons, not_or, not_or]
      exact ⟨by decide, by decide, h.newline_not_mem⟩
    exact .of_line (.comment h) hline
  | type h => exact ⟨h.isLined, fun k => .code (h.isStatement k)⟩
  | component h => exact ⟨h.isLined_textAs (by decide), fun k => .code (h.isStatement_component k)⟩
  | @signature s h =>
    refine ⟨(isLine_of_solid h.isStatement.solid h.newline_not_mem).isLined, fun k => .code ?_⟩
    have hshift : shift k (Declaration.signature s).text = s.text := shift_of_not_mem h.newline_not_mem k
    rw [hshift]
    exact h.isStatement

/-- An item leaves the nesting as it is. -/
theorem ReadsBack.stays (h : d.ReadsBack room) : Stays true (rows d.text) := by
  cases h with
  | object h =>
    exact ObjectDecl.Readable.stays ⟨h.typed.type, h.typed.default, fun c hc =>
      ⟨(h.comment c hc).newline_not_mem, (h.comment c hc).return_not_mem⟩⟩
  | @comment c h =>
    have hline : c.IsOneLine := ⟨h.newline_not_mem, h.return_not_mem⟩
    rw [text, (isRow_comment hline).rows_eq]
    exact stays_comment hline
  | type h => exact h.stands.stays
  | component h => exact h.readable.stands.stays
  | signature h => exact h.readable.stands.stays

/-- A piece whose first word is the keyword of no class is an item by that word. -/
theorem readPiece_code {w r t : Text} (ht : t = w ++ ' ' :: r) (hw : IsRun w)
    (hclass : ∀ c : ObjectClass, sameWord c.keyword.toList w = false)
    (hread : firstWord? t = some w → readItem room t = some d) :
    readPiece room (.code t none) = some [d] := by
  have hblank : t.head?.any isBlank = false := by
    rw [ht]
    exact hw.solid.head_append _
  have hnone := ObjectDecl.readWithTrailer_eq_none hblank (fun c => by
    rw [ht, startsWith, afterWord?_first c.isName.isRun hw rfl, hclass c]
    rfl) room none
  have hfirst : firstWord? t = some w := by
    rw [ht]
    exact firstWord?_run hw rfl
  rw [readPiece, hnone, hread hfirst]
  rfl

section Words

variable {t : Text}

theorem readItem_type (h : firstWord? t = some "type".toList) :
    readItem room t = (TypeDecl.read room t).map type := by
  rw [readItem, h]
  rfl

theorem readItem_component (h : firstWord? t = some "component".toList) :
    readItem room t = (Interface.readComponent room t).map component := by
  rw [readItem, h]
  rfl

theorem readItem_signature (h : firstWord? t = some "function".toList)
    (hbody : FunctionBody.read room t = none) :
    readItem room t = (Signature.read room t).map signature := by
  rw [readItem, h, hbody]
  rfl

end Words

/-- **An item is read from its piece.** -/
theorem ReadsBack.readPiece (h : d.ReadsBack room) (k : Nat)
    (hfits : fits Limits.blockBytes (shift k d.text) = true) :
    Declaration.readPiece room (d.piece k) = some [d] := by
  cases h with
  | object h => simp only [piece, Declaration.readPiece, h.readWithTrailer]
  | comment h => simp only [piece, Declaration.readPiece, h.ofText?, Option.map_some]
  | @type d h =>
    refine readPiece_code (h.shift_text k) (by decide) (fun c => by cases c <;> decide) fun hword => ?_
    rw [readItem_type hword, text, h.read_shift k hfits, Option.map_some]
  | @component c h =>
    refine readPiece_code (h.shift_textAs (show IsRun "component".toList by decide) k) (by decide)
      (fun c => by cases c <;> decide) fun hword => ?_
    rw [readItem_component hword, text, h.readComponent_shift k hfits, Option.map_some]
  | @signature s h =>
    have hshift : shift k (Declaration.signature s).text = s.text := shift_of_not_mem h.newline_not_mem k
    have htext : s.text = "function".toList ++ ' ' :: (s.afterWord ++ [';']) := by
      rw [Signature.text, Signature.openText_eq, List.append_assoc, List.cons_append]
    refine readPiece_code (hshift.trans htext) (by decide) (fun c => by cases c <;> decide) fun hword => ?_
    rw [hshift] at hword ⊢
    rw [readItem_signature hword h.readBody_text, h.read_text, Option.map_some]

/-- **The items of a declarative part are read from the lines they stand on.** -/
theorem readPart_block {items : List Declaration} (h : ∀ d ∈ items, d.ReadsBack room) (k : Nat)
    (hfits : ∀ d ∈ items, fits Limits.blockBytes (shift k d.text) = true) :
    readPart room (trimStart (blockOf text k items)) = some items := by
  have hpieces := (region_trimStart_block (fun d hd => (h d hd).isLaid) k).pieces?
  have hread : (items.map (piece k)).mapM (Declaration.readPiece room) = some (items.map ([·])) := by
    refine mapM_of_forall₂ ?_
    rw [List.forall₂_map_left_iff, List.forall₂_map_right_iff, List.forall₂_same]
    exact fun d hd => (h d hd).readPiece k (hfits d hd)
  have hflatten : (items.map ([·])).flatten = items := by
    rw [← List.flatMap_def, List.flatMap_singleton']
  simp only [readPart, hpieces, hread, hflatten, Option.bind_eq_bind, Option.bind_some]

end Declaration

/-! ## Packages -/

theorem Ident.splitIdent?_text (i : Ident) {u : Text} (hu : u.head?.any isIdentChar = false) :
    splitIdent? (i.text ++ u) = some (i, trimStart u) := by
  have hstart : trimStart (i.text ++ u) = i.text ++ u := trimStart_eq_self (i.isRun.solid.head_append u)
  obtain ⟨htake, hdrop⟩ := i.isRun.span (fun _ hc => hc) hu
  simp only [splitIdent?, hstart, htake, hdrop, i.ofText?_text, Option.bind_eq_bind, Option.bind_some]

namespace Package

/-- Whether the items of a package read back and declare distinct names. -/
structure ReadsBack (room : Nat) (p : Package) : Prop where
  /-- The items read back. -/
  items : ∀ d ∈ p.items, d.ReadsBack room
  /-- No two items declare the same name. -/
  distinct : Declaration.namesDistinct p.items = true

variable {p : Package}

theorem text_eq (p : Package) : p.text = framed ("package".toList ++ ' ' :: p.name.text ++ " is".toList)
    (nested (Declaration.partText p.items)) ["package".toList, p.name.text] := by
  have hpackage : "package ".toList = "package".toList ++ [' '] := rfl
  have hend : "\nend package ".toList = '\n' :: ("end".toList ++ ' ' :: ("package".toList ++ [' '])) := rfl
  have htext : p.text = "package ".toList ++ p.name.text ++ " is".toList
      ++ nested (Declaration.partText p.items) ++ "\nend package ".toList ++ p.name.text ++ [';'] := rfl
  rw [htext, hpackage, hend, framed]
  simp only [clauseEnd, List.flatMap_cons, List.flatMap_nil, List.append_assoc, List.cons_append,
    List.nil_append, List.append_nil]

/-- A package whose items stand on lines of their own. -/
theorem ReadsBack.text_block (h : p.ReadsBack room) : p.text = "package".toList ++ ' ' :: (p.name.text
    ++ ' ' :: ("is".toList ++ (blockOf Declaration.text 1 p.items
      ++ (lineBreak 0 ++ ("end".toList ++ clauseEnd ["package".toList, p.name.text]))))) := by
  have hnested := shift_nested_block (fun d hd => (h.items d hd).isLaid) 0
  have his : " is".toList = ' ' :: "is".toList := rfl
  rw [shift_zero, Nat.zero_add] at hnested
  rw [text_eq, framed, Declaration.partText, hnested, his]
  simp only [List.append_assoc, List.cons_append]
  rfl

/-- **A package is one statement.** -/
theorem ReadsBack.isStatement (h : p.ReadsBack room) : IsStatement true p.text := by
  have hpass := passes_head (w := "package".toList) (by decide) p.name.isInertText
    fun position before {_} hu => opens_named (.inr rfl) p.name position before hu
  have hitems : Stays true (rows (Declaration.partText p.items)) :=
    stays_join (List.forall_mem_map.2 fun d hd => (h.items d hd).stays)
  have hstands : Stands true p.text := by
    rw [text_eq]
    exact stands_construct (isRow_head (by decide) p.name.isInertText) (fun depth header _ => hpass depth header)
      (atLineEnd_nested _) hitems.nested (by decide)
      (List.forall_mem_singleton.2 ⟨p.name.isRun, p.name.not_mem_structureWords⟩)
  have := hstands.isStatement ⟨"package".toList, _, h.text_block, by decide, rfl, by decide⟩ 0
  rwa [shift_zero] at this

/-- **A package is read from its text.** -/
theorem ReadsBack.read_text (h : p.ReadsBack room) (hfits : fits Limits.blockBytes p.text = true) :
    read room p.text = some p := by
  have hlaid : ∀ d ∈ p.items, Laid true (Declaration.piece · d) d.text := fun d hd => (h.items d hd).isLaid
  have hsolid : ∀ x ∈ p.items.map fun d => shift 1 d.text, Solid x :=
    List.forall_mem_map.2 fun d hd => ((hlaid d hd).shows 1).solid
  have hpart : ∀ d ∈ p.items, fits Limits.blockBytes (shift 1 d.text) = true := by
    intro d hd
    refine fits_of_isInfix hfits ?_
    have hmem : shift 1 d.text ∈ p.items.map fun d => shift 1 d.text := List.mem_map_of_mem hd
    rw [h.text_block, blockOf]
    refine (isInfix_stack hmem 1 (lineBreak 0 ++ ("end".toList
      ++ clauseEnd ["package".toList, p.name.text]))).trans
        ⟨"package".toList ++ ' ' :: (p.name.text ++ ' ' :: "is".toList), [], ?_⟩
    simp
  have hpackage : IsRun "package".toList := by decide
  have hbody := Text.beforeEnd?_stack false hpackage p.name.isRun hsolid 1 0
  have hline := atLineEnd_stack 1 (p.items.map fun d => shift 1 d.text) (atLineEnd_lineBreak 0
    ("end".toList ++ clauseEnd ["package".toList, p.name.text]))
  have hitems := Declaration.readPart_block h.items 1 hpart
  have hfunction : p.items.any Declaration.isFunction = false := by
    rw [List.any_eq_false]
    exact fun d hd => by simp [(h.items d hd).isFunction]
  have htext := h.text_block
  rw [blockOf] at hitems htext
  generalize hrest : stack 1 (p.items.map fun d => shift 1 d.text) ++ (lineBreak 0 ++ ("end".toList
    ++ clauseEnd ["package".toList, p.name.text])) = rest at hline hbody htext
  have hname := p.name.isRun.solid.head_append (' ' :: ("is".toList ++ rest))
  have hsplit := p.name.splitIdent?_text (u := ' ' :: ("is".toList ++ rest)) rfl
  have hstart : trimStart (' ' :: ("is".toList ++ rest)) = "is".toList ++ rest := trimStart_blank rfl
  have hafter := afterWord?_first (show IsRun "is".toList by decide) (show IsRun "is".toList by decide)
    hline.ident
  rw [sameWord_self, if_pos rfl] at hafter
  rw [read, trim_eq_self h.isStatement.solid.toTrimmed, hfits, h.isStatement.isConstruct, htext]
  simp only [afterWord?_blank hpackage hname, hsplit, hstart, hafter, hbody, hitems, ofItems?, hfunction,
    h.distinct, Bool.not_true, Bool.not_false, Bool.or_self, Bool.and_self, Bool.false_eq_true, if_false,
    if_true, Option.bind_eq_bind, Option.bind_some]

end Package

/-! ## Declarative units -/

/-- **Entities, components and packages are read from their texts.** -/
theorem read_declarative_text (room : Nat) :
    (∀ u : Interface, u.ReadsBack room → fits Limits.blockBytes u.entityText = true →
        Interface.readEntity room u.entityText = some u)
      ∧ (∀ u : Interface, u.ReadsBack room → fits Limits.blockBytes u.componentText = true →
        Interface.readComponent room u.componentText = some u)
      ∧ ∀ p : Package, p.ReadsBack room → fits Limits.blockBytes p.text = true →
        Package.read room p.text = some p := by
  refine ⟨fun u hu hfits => hu.readEntity_text hfits, fun u hu hfits => ?_,
    fun p hp hfits => hp.read_text hfits⟩
  rw [← shift_zero u.componentText] at hfits ⊢
  exact hu.readComponent_shift 0 hfits

theorem isIdent_probeValues : isIdent ['b'] = true := by decide

theorem isIdent_probeRecord : isIdent ['c'] = true := by decide

theorem isIdent_probeArray : isIdent ['d'] = true := by decide

theorem isIdent_probeUnit : isIdent ['e'] = true := by decide

/-- A comment that looks like the end of a clause. -/
def probeComment : Comment := ⟨");\"--".toList⟩

/-- A generic, a port and another port with a default, with comments that look like code. -/
def Interface.probe : Interface :=
  let a := Sequential.probeName
  let bit : TypeMark := .builtin (.scalar .bit)
  { name := ⟨['e'], isIdent_probeUnit⟩
    generics := some ⟨[⟨a, bit, none, some probeComment⟩]⟩
    ports := some ⟨[⟨a, .input, bit, none, some probeComment⟩,
      ⟨⟨['b'], isIdent_probeValues⟩, .output, bit, some Sequential.probeExpr, some probeComment⟩]⟩ }

/-- An item of every kind, with comments that look like code. -/
def Package.probe : Package :=
  let a := Sequential.probeName
  let bit : TypeMark := .builtin (.scalar .bit)
  { name := a
    items := [
      .object ⟨.var, a, bit, none, some probeComment, Sequential.valued_probe⟩,
      .comment probeComment,
      .type (.enumeration ⟨['b'], isIdent_probeValues⟩ [a]),
      .type (.record ⟨['c'], isIdent_probeRecord⟩ [⟨a, bit, some probeComment⟩]),
      .type (.array ⟨['d'], isIdent_probeArray⟩
        (.ascending Sequential.probeExpr Sequential.probeExpr) bit),
      .component Interface.probe,
      .signature ⟨a, [⟨a, bit⟩], bit⟩] }

theorem isCommentText_probe : IsCommentText probeComment.text := by
  have key : '\n' ∉ probeComment.text ∧ '\r' ∉ probeComment.text
      ∧ trimEnd probeComment.text = probeComment.text := by decide
  exact ⟨key.1, key.2.1, key.2.2⟩

theorem Interface.readsBack_probe : Interface.probe.ReadsBack Limits.depth := by
  have hbit : (TypeMark.builtin (.scalar .bit)).ReadsBack Limits.depth := TypeMark.readsBack_scalar .bit
  have hremark : IsRemark (some probeComment) := fun c hc => Option.some.inj hc ▸ isCommentText_probe
  refine ⟨fun c hc => ?_, fun c hc => ?_⟩
  · obtain rfl := Option.some.inj hc
    refine ⟨by decide, by decide, List.forall_mem_singleton.2 ⟨⟨rfl, hbit, by simp⟩, hremark⟩⟩
  · obtain rfl := Option.some.inj hc
    refine ⟨by decide, by decide, List.forall_mem_cons.2 ⟨⟨⟨rfl, hbit, by simp⟩, hremark⟩,
      List.forall_mem_singleton.2 ⟨⟨rfl, hbit, fun e he => ?_⟩, hremark⟩⟩⟩
    exact Option.some.inj he ▸ Sequential.readsBack_probeExpr _

theorem Package.readsBack_probe : Package.probe.ReadsBack Limits.depth := by
  have hbit : (TypeMark.builtin (.scalar .bit)).ReadsBack Limits.depth := TypeMark.readsBack_scalar .bit
  have hremark : IsRemark (some probeComment) := fun c hc => Option.some.inj hc ▸ isCommentText_probe
  have hrange : (Range.ascending Sequential.probeExpr Sequential.probeExpr).ReadsBack Limits.depth :=
    Range.readsBack_of_isCanonical (by decide) (by decide) (by decide)
  refine ⟨?_, by decide⟩
  simp only [probe, List.mem_cons, List.not_mem_nil, or_false, forall_eq_or_imp, forall_eq]
  exact ⟨.object ⟨⟨rfl, hbit, by simp⟩, hremark, by decide⟩, .comment isCommentText_probe,
    .type ⟨by decide, by decide⟩,
    .type ⟨by decide, by decide, List.forall_mem_singleton.2 ⟨hbit, hremark, by decide⟩⟩,
    .type ⟨hrange, hbit⟩, .component Interface.readsBack_probe,
    .signature ⟨by decide, List.forall_mem_singleton.2 hbit, hbit, by decide⟩⟩

theorem read_declarative_probe :
    Interface.probe.ReadsBack Limits.depth ∧ Package.probe.ReadsBack Limits.depth
      ∧ Interface.readEntity Limits.depth Interface.probe.entityText = some Interface.probe
      ∧ Interface.readComponent Limits.depth Interface.probe.componentText = some Interface.probe
      ∧ Package.read Limits.depth Package.probe.text = some Package.probe :=
  ⟨Interface.readsBack_probe, Package.readsBack_probe,
    (read_declarative_text Limits.depth).1 _ Interface.readsBack_probe (by decide +kernel),
    (read_declarative_text Limits.depth).2.1 _ Interface.readsBack_probe (by decide +kernel),
    (read_declarative_text Limits.depth).2.2 _ Package.readsBack_probe (by decide +kernel)⟩

end CanonicalVhdl
