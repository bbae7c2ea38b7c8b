import CanonicalVhdl.Proofs.Extent.Sequential
import CanonicalVhdl.Proofs.Spelling.Cuts
import CanonicalVhdl.Proofs.Spelling.Entries

/-!
# The items of canonical texts

The items of the canonical text of a tree are the entries of the tree, in order.  The phrases
that the grammar puts around the parts of a tree have no items, unless they are entries
themselves, and no part runs into the next.

## Main definitions

* `Text.Conveys` — a text has the items that some entries stand for.

## Main statements

* `Text.Conveys.append`, `Text.Conveys.between`, `Text.Conveys.join` — texts put together.
* `Expr.conveys`, `Sequential.conveys`, `Concurrent.conveys`, `DesignFile.conveys` and others — the
  canonical texts of trees.
-/

namespace CanonicalVhdl

open Text

namespace Text

/-- A text has the items that some entries stand for. -/
def Conveys (t : Text) (es : List Entry) : Prop :=
  items t = es.flatMap Entry.items

instance (t : Text) (es : List Entry) : Decidable (Conveys t es) :=
  inferInstanceAs (Decidable (items t = es.flatMap Entry.items))

/-- A phrase without items that may follow any text. -/
def isClosing (m : Text) : Bool :=
  m.head?.any isBreak && (items m).isEmpty

/-- A phrase without items that any text may follow. -/
def isOpening (m : Text) : Bool :=
  !m.getLast?.any isIdentChar && (items m).isEmpty

theorem parted_of_head? {b : Text} (hb : b.head?.any isBreak = true) (a : Text) : Parted a b := by
  cases b with
  | nil => exact .of_nil_right a
  | cons c b => exact .of_break hb a b

theorem head?_any_isBreak_append {m : Text} (hm : m.head?.any isBreak = true) (b : Text) :
    (m ++ b).head?.any isBreak = true := by
  cases m with
  | nil => cases hm
  | cons c m => exact hm

namespace Conveys

variable {t a b m : Text} {es fs : List Entry}

theorem of_eq (h : Conveys t es) (heq : es = fs) : Conveys t fs := heq ▸ h

/-- A text without items. -/
theorem silent (h : items t = []) : Conveys t [] := h

theorem owned (t : Text) : Conveys t (Text.owned t) := by
  rw [Conveys, Text.owned, List.flatMap_map]
  induction items t with
  | nil => rfl
  | cons i is ih => cases i <;> simpa [Item.owned, Entry.items] using ih

theorem fixed (t : Text) : Conveys t (Text.fixed t) := by
  rw [Conveys, Text.fixed, List.flatMap_map]
  induction items t with
  | nil => rfl
  | cons i is ih => cases i <;> simpa [Item.fixed, Entry.items] using ih

theorem append (ha : Conveys a es) (hb : Conveys b fs) (h : Parted a b) :
    Conveys (a ++ b) (es ++ fs) := by
  rw [Conveys, items_append h, ha, hb, List.flatMap_append]

/-- A phrase behind a text. -/
theorem closing (ha : Conveys a es) (hm : isClosing m = true) : Conveys (a ++ m) es := by
  obtain ⟨hbreak, hnil⟩ := Bool.and_eq_true_iff.1 hm
  rw [Conveys, items_append (parted_of_head? hbreak a), List.isEmpty_iff.1 hnil, List.append_nil, ha]

/-- A phrase before a text. -/
theorem opening (hb : Conveys b es) (hm : isOpening m = true) : Conveys (m ++ b) es := by
  obtain ⟨hlast, hnil⟩ := Bool.and_eq_true_iff.1 hm
  rw [Conveys, items_append (.inl (by simpa using hlast)), List.isEmpty_iff.1 hnil, List.nil_append, hb]

/-- A phrase with items of its own, between two texts. -/
theorem through {ms : List Entry} (ha : Conveys a es) (hm : Conveys m ms) (hb : Conveys b fs)
    (hends : (m.head?.any isBreak && !m.getLast?.any isIdentChar) = true) :
    Conveys (a ++ (m ++ b)) (es ++ (ms ++ fs)) := by
  obtain ⟨hhead, hlast⟩ := Bool.and_eq_true_iff.1 hends
  exact ha.append (hm.append hb (.inl (by simpa using hlast)))
    (parted_of_head? (head?_any_isBreak_append hhead b) a)

/-- A phrase between two texts. -/
theorem between (ha : Conveys a es) (hb : Conveys b fs)
    (hm : (isClosing m && isOpening m) = true) : Conveys (a ++ (m ++ b)) (es ++ fs) := by
  simp only [isClosing, isOpening, Bool.and_eq_true] at hm
  exact ha.through (.silent (List.isEmpty_iff.1 hm.1.2)) hb (Bool.and_eq_true_iff.2 ⟨hm.1.1, hm.2.1⟩)

/-- A phrase between what has been written and a text. -/
theorem across (ha : Conveys a es) (hb : Conveys b fs)
    (hm : (isClosing m && isOpening m) = true) : Conveys (a ++ m ++ b) (es ++ fs) := by
  rw [List.append_assoc]
  exact ha.between hb hm

/-- An operation, by the text of its operator. -/
theorem operation (op : Text) (ha : Conveys a es) (hb : Conveys b fs) :
    Conveys (a ++ ' ' :: (op ++ ' ' :: b)) (es ++ (Text.fixed op ++ fs)) :=
  ha.between (m := [' ']) ((fixed op).between (m := [' ']) hb (by decide)) (by decide)

/-- An operation whose operator has no items. -/
theorem operation_of_nil {op : Text} (hop : items op = []) (ha : Conveys a es)
    (hb : Conveys b fs) : Conveys (a ++ ' ' :: (op ++ ' ' :: b)) (es ++ fs) := by
  have h := operation op ha hb
  rwa [Text.fixed, hop, List.map_nil, List.nil_append] at h

/-- A text between parentheses. -/
theorem group (h : Conveys t es) : Conveys ('(' :: (t ++ [')'])) es :=
  (h.closing (by decide)).opening (m := ['(']) (by decide)

/-- Parts with symbols between them. -/
theorem join (separator : Text) {parts : List Text} (hne : separator ≠ [])
    (hsep : separator.all isSymbol = true) (h : parts.flatMap items = es.flatMap Entry.items) :
    Conveys (Text.join separator parts) es :=
  (items_join hne hsep parts).trans h

theorem flatMap {α : Type} {text : α → Text} {entries : α → List Entry} {xs : List α}
    (h : ∀ x ∈ xs, Conveys (text x) (entries x)) :
    (xs.map text).flatMap items = (xs.flatMap entries).flatMap Entry.items := by
  rw [List.flatMap_map, List.flatMap_assoc]
  exact List.flatMap_congr h

end Conveys

/-! ## Phrases -/

/-- The phrases that stand before a part of a tree. -/
def openings : List String :=
  ["case ", "component ", "for ", "function ", "generic (\n", "if ", "not ", "null;", "port (\n",
    "return ", "return;", "type ", "when ", "\nelsif ", "\n    generic map (\n",
    "\n    port map (\n"]

/-- The phrases that stand behind a part of a tree. -/
def closings : List String :=
  [" =>", " generate", " is", " loop", " then", ");", "\nbegin", "\nelse", "\nend case;",
    "\nend if;", "\nend loop;", "\nend process"]

/-- The phrases that stand between two parts of a tree. -/
def separators : List String :=
  [" := ", " <= ", " => ", " downto ", " else ", " in ", " is (", " is array (", " is record\n",
    " of ", " return ", " to ", " when ", ") of ", ": ", ": for ", "\nend ", "\nend function ",
    "\nend generate ", "\nend record "]

/-- The phrases with items of their own, and the words that these are. -/
def headings : List (String × String) :=
  [("architecture ", "architecture"), ("entity ", "entity"), ("integer range ", "integer"),
    ("library ", "library"), ("package ", "package"), ("package body ", "package body"),
    ("use ", "use"), ("\nend architecture ", "architecture"), ("\nend package ", "package"),
    ("\nend package body ", "package body")]

-- All phrases are evaluated at once, so that the reserved words are spelled out only once.
theorem phrases_spec : (∀ s ∈ openings, isOpening s.toList = true)
    ∧ (∀ s ∈ closings, isClosing s.toList = true)
    ∧ (∀ s ∈ separators, (isClosing s.toList && isOpening s.toList) = true)
    ∧ ∀ p ∈ headings, Conveys p.1.toList (fixed p.2.toList) := by
  decide +kernel

theorem isOpening_phrase {s : String} (h : s ∈ openings) : isOpening s.toList = true :=
  phrases_spec.1 s h

theorem isClosing_phrase {s : String} (h : s ∈ closings) : isClosing s.toList = true :=
  phrases_spec.2.1 s h

theorem isSeparator_phrase {s : String} (h : s ∈ separators) :
    (isClosing s.toList && isOpening s.toList) = true :=
  phrases_spec.2.2.1 s h

theorem conveys_heading {s w : String} (h : (s, w) ∈ headings) : Conveys s.toList (fixed w.toList) :=
  phrases_spec.2.2.2 (s, w) h

namespace Conveys

variable {a b : Text} {es fs : List Entry} {s : String}

/-- A phrase of the grammar before a text. -/
theorem opened (hb : Conveys b es) (h : s ∈ openings) : Conveys (s.toList ++ b) es :=
  hb.opening (isOpening_phrase h)

/-- A phrase of the grammar behind a text. -/
theorem closed (ha : Conveys a es) (h : s ∈ closings) : Conveys (a ++ s.toList) es :=
  ha.closing (isClosing_phrase h)

/-- A phrase of the grammar between what has been written and a text. -/
theorem joined (ha : Conveys a es) (hb : Conveys b fs) (h : s ∈ separators) :
    Conveys (a ++ s.toList ++ b) (es ++ fs) :=
  ha.across hb (isSeparator_phrase h)

/-- A word of the grammar. -/
theorem keyword (h : s ∈ silentWords) : Conveys s.toList [] :=
  .silent (IsSilentWord.of_mem h).items_eq_nil

end Conveys

theorem items_of_opening {s : String} (h : s ∈ openings) : items s.toList = [] :=
  List.isEmpty_iff.1 (Bool.and_eq_true_iff.1 (isOpening_phrase h)).2

theorem items_of_closing {s : String} (h : s ∈ closings) : items s.toList = [] :=
  List.isEmpty_iff.1 (Bool.and_eq_true_iff.1 (isClosing_phrase h)).2

/-! ## Layout -/

theorem items_withoutReturn (l : Text) : items (withoutReturn l) = items l := by
  rw [withoutReturn]
  cases h : dropFinal? '\r' l with
  | none => rfl
  | some r => exact (items_of_dropFinal? (by decide) h).symm

theorem flatMap_items_lines (t : Text) : (lines t).flatMap items = items t := by
  have hne := splitOn_ne_nil '\n' t
  have hlast : ∀ l : Text, (if l.isEmpty then [] else [l]).flatMap items = items l := by
    intro l
    cases l <;> simp
  rw [lines, List.flatMap_append, List.flatMap_map, funext items_withoutReturn, hlast,
    List.getLast?_eq_some_getLast hne, Option.getD_some, ← List.flatMap_singleton items,
    ← List.flatMap_append, List.dropLast_append_getLast hne, ← items_splitOn (by decide)]

theorem items_indent (levels : Nat) (t : Text) : items (indent levels t) = items t := by
  have hpad : ((List.replicate levels indentStep).flatten).all isAsciiBlank = true := by
    rw [List.all_flatten, List.all_eq_true]
    intro step hstep
    rw [List.eq_of_mem_replicate hstep]
    decide
  rw [indent, items_join_symbol (by decide), List.flatMap_map, ← flatMap_items_lines t]
  refine List.flatMap_congr fun l _ => ?_
  split
  · next hl => rw [List.isEmpty_iff.1 hl]
  · exact items_asciiBlank_append hpad l

theorem items_nested (t : Text) : items (nested t) = items t := by
  cases t with
  | nil => rfl
  | cons c t =>
    rw [nested, if_neg (by simp), items_cons (by decide), items_indent]
    rfl

namespace Conveys

variable {t a b : Text} {es fs : List Entry}

theorem indent (h : Conveys t es) (levels : Nat) : Conveys (Text.indent levels t) es :=
  (items_indent levels t).trans h

/-- A region on the lines after its header. -/
theorem append_nested (ha : Conveys a es) (hb : Conveys b fs) :
    Conveys (a ++ nested b) (es ++ fs) := by
  refine ha.append ((items_nested b).trans hb) ?_
  rw [nested]
  split
  · exact .of_nil_right a
  · exact .of_break (by decide) _ _

end Conveys

end Text

/-! ## Expressions -/

theorem Ident.conveys (i : Ident) : Conveys i.text i.entries := .owned i.text

mutual

theorem Expr.conveys : ∀ e : Expr, Conveys e.text e.entries
  | .reference r => r.conveys
  | .literal l => l.conveys
  | .arith lhs op rhs => lhs.conveys.operation op.symbol.toList rhs.conveys
  | .group inner => inner.conveys.group
  | .compare lhs op rhs =>
    lhs.conveys.operation_of_nil (by cases op <;> decide) rhs.conveys
  | .edge kind signal =>
    (Conveys.fixed kind.name.toList).append signal.conveys.group (.of_break (by decide) _ _)
  | .negation operand => operand.conveys.opened (by simp [openings])
  | .logic lhs op rhs =>
    lhs.conveys.operation_of_nil
      (Conveys.keyword (by cases op <;> simp [silentWords, LogicOp.symbol])) rhs.conveys
  | .convert kind value =>
    (Conveys.fixed kind.name.toList).append value.conveys.group (.of_break (by decide) _ _)
  | .call name arguments =>
    have harguments := Conveys.join ", ".toList (by decide) (by decide)
      (Argument.flatMap_texts arguments)
    name.conveys.append harguments.group (.of_break (by decide) _ _)
termination_by structural e => e

theorem Argument.conveys : ∀ a : Argument, Conveys a.text a.entries
  | .mk none value => value.conveys
  | .mk (some parameter) value =>
    parameter.conveys.between value.conveys (isSeparator_phrase (by simp [separators]))
termination_by structural a => a

theorem Argument.flatMap_texts : ∀ as : List Argument,
    (Argument.texts as).flatMap items = (Argument.entriesAll as).flatMap Entry.items
  | [] => rfl
  | a :: as => by
    rw [Argument.texts, Argument.entriesAll, List.flatMap_cons, List.flatMap_append,
      Argument.flatMap_texts as, a.conveys]
termination_by structural as => as

theorem Reference.conveys : ∀ r : Reference, Conveys r.text r.entries
  | .name n => n.conveys
  | .member record member =>
    record.conveys.between (m := ['.']) member.conveys (by decide)
  | .indexed name index =>
    name.conveys.append index.conveys.group (.of_break (by decide) _ _)
  | .attributeOf object designator =>
    object.conveys.between (m := ['\'']) (.fixed designator) (by decide)
termination_by structural r => r

theorem Index.conveys : ∀ i : Index, Conveys i.text i.entries
  | .position value => value.conveys
  | .slice range => range.conveys
  | .others => Conveys.keyword (by simp [silentWords])
termination_by structural i => i

theorem Range.conveys : ∀ r : Range, Conveys r.text r.entries
  | .ascending low high =>
    low.conveys.between high.conveys (isSeparator_phrase (by simp [separators]))
  | .descending high low =>
    high.conveys.between low.conveys (isSeparator_phrase (by simp [separators]))
termination_by structural r => r

theorem Literal.conveys : ∀ l : Literal, Conveys l.text l.entries
  | .bit _ | .boolean _ | .integer _ | .logic _ => Conveys.fixed _
  | .real value => (List.append_nil value.text.items).symm
  | .vector value => value.conveys
termination_by structural l => l

theorem VectorLiteral.conveys : ∀ v : VectorLiteral, Conveys v.text v.entries
  | .bits _ | .logics _ | .hexadecimal _ | .octal _ => Conveys.fixed _
  | .aggregate elements =>
    (Conveys.join ", ".toList (by decide) (by decide)
      (Element.flatMap_texts elements)).group
termination_by structural v => v

theorem Element.conveys : ∀ e : Element, Conveys e.text e.entries
  | .mk index value =>
    index.conveys.between value.conveys (isSeparator_phrase (by simp [separators]))
termination_by structural e => e

theorem Element.flatMap_texts : ∀ es : List Element,
    (Element.texts es).flatMap items = (Element.entriesAll es).flatMap Entry.items
  | [] => rfl
  | e :: es => by
    rw [Element.texts, Element.entriesAll, List.flatMap_cons, List.flatMap_append,
      Element.flatMap_texts es, e.conveys]
termination_by structural es => es

end

/-! ## Types and objects -/

theorem BuiltinType.conveys (b : BuiltinType) : Conveys b.text b.entries := by
  cases b with
  | scalar kind => exact .fixed _
  | vector kind range =>
    exact (Conveys.fixed _).append range.conveys.group (.of_break (by decide) _ _)
  | integerRange range =>
    have hword : Conveys "integer range ".toList (fixed "integer".toList) :=
      conveys_heading (by simp [headings])
    exact hword.append range.conveys (.inl (by decide))

theorem TypeMark.conveys (m : TypeMark) : Conveys m.text m.entries := by
  cases m with
  | builtin type => exact type.conveys
  | named name => exact .owned _

theorem Comment.conveys (c : Comment) : Conveys c.line c.entries := .owned c.line

namespace Text.Conveys

variable {t : Text} {es : List Entry}

/-- A comment behind a text. -/
theorem comment (h : Conveys t es) (c : Option Comment) :
    Conveys (Comment.append t c) (es ++ optionalEntries Comment.entries c) := by
  cases c with
  | none => simpa [Comment.append, optionalEntries] using h
  | some c => exact h.between (m := [' ']) c.conveys (by decide)

/-- A default behind a type. -/
theorem default (h : Conveys t es) (d : Option Expr) :
    Conveys (TypedName.typeText t d) (es ++ optionalEntries Expr.entries d) := by
  cases d with
  | none => simpa [TypedName.typeText, optionalEntries] using h
  | some value => exact h.between value.conveys (isSeparator_phrase (by simp [separators]))

/-- A region behind `else`. -/
theorem otherwise (h : Conveys t es) : Conveys ("\nelse".toList ++ nested t) es :=
  Conveys.append_nested (.silent (items_of_closing (by simp [closings]))) h

end Text.Conveys

theorem ObjectDecl.conveys (d : ObjectDecl) : Conveys d.text d.entries := by
  have hkeyword : Conveys d.objectClass.keyword.toList [] :=
    .keyword (by cases d.objectClass <;> simp [silentWords, ObjectClass.keyword])
  have hname := d.name.conveys.joined (s := ": ") (d.type.conveys.default d.default)
    (by simp [separators])
  have hcode := hkeyword.between (m := [' ']) (hname.closing (m := [';']) (by decide)) (by decide)
  exact (hcode.comment d.comment).of_eq (by
    simp only [ObjectDecl.entries, List.nil_append, List.append_assoc])

/-! ## Sequential code -/

theorem Statement.conveys (s : Statement) : Conveys s.text s.entries := by
  cases s with
  | declaration d => exact d.conveys
  | assignment target kind value =>
    have hkind : items kind.symbol.toList = [] := by cases kind <;> decide
    exact target.conveys.operation_of_nil hkind (value.conveys.closing (m := [';']) (by decide))
  | comment c => exact c.conveys
  | null => exact .silent (items_of_opening (by simp [openings]))
  | result value =>
    cases value with
    | none => exact .silent (items_of_opening (by simp [openings]))
    | some value =>
      exact (value.conveys.opened (by simp [openings])).closing (by decide)

mutual

theorem Choice.conveys : ∀ c : Choice, Conveys c.text c.entries
  | .value e => e.conveys
  | .range r => r.conveys
  | .alternatives choices =>
    .join _ (by decide) (by decide) (Choice.flatMap_texts choices)
  | .others => .keyword (by simp [silentWords])
termination_by structural c => c

theorem Choice.flatMap_texts : ∀ cs : List Choice,
    (Choice.texts cs).flatMap items = (Choice.entriesAll cs).flatMap Entry.items
  | [] => rfl
  | c :: cs => by
    rw [Choice.texts, Choice.entriesAll, List.flatMap_cons, List.flatMap_append,
      Choice.flatMap_texts cs, c.conveys]
termination_by structural cs => cs

end

mutual

theorem Sequential.conveys : ∀ s : Sequential, Conveys s.text s.entries
  | .simple s => s.conveys
  | .conditional condition body otherwise =>
    have hthen := (condition.conveys.opened (s := "if ") (by simp [openings])).closed
      (s := " then") (by simp [closings])
    ((hthen.append_nested body.conveys).append (Sequential.conveys_alternative otherwise)
      (parted_atLineEnd Sequential.atLineEnd_alternativeText _)).closed
        (by simp [closings])
  | .selection selector branches =>
    have his := (selector.conveys.opened (s := "case ") (by simp [openings])).closed
      (s := " is") (by simp [closings])
    have hbranches := Conveys.join ['\n'] (by decide) (by decide)
      (Branch.flatMap_texts branches)
    (his.append_nested hbranches).closed (by simp [closings])
  | .loop parameter range body =>
    have hin := (parameter.conveys.opened (s := "for ") (by simp [openings])).joined
      (s := " in ") range.conveys (by simp [separators])
    ((hin.closed (s := " loop") (by simp [closings])).append_nested body.conveys).closed
      (by simp [closings])
  | .region elements => .join _ (by decide) (by decide) (Sequential.flatMap_texts elements)
termination_by structural s => s

theorem Sequential.conveys_alternative : ∀ s : Option Sequential,
    Conveys (Sequential.alternativeText s) (Sequential.entries? s)
  | none => rfl
  | some (.conditional condition body otherwise) =>
    have hthen := (condition.conveys.opened (s := "\nelsif ") (by simp [openings])).closed
      (s := " then") (by simp [closings])
    (hthen.append_nested body.conveys).append (Sequential.conveys_alternative otherwise)
      (parted_atLineEnd Sequential.atLineEnd_alternativeText _)
  | some (.simple s) => (Sequential.simple s).conveys.otherwise
  | some (.selection selector branches) => (Sequential.selection selector branches).conveys.otherwise
  | some (.loop parameter range body) => (Sequential.loop parameter range body).conveys.otherwise
  | some (.region elements) => (Sequential.region elements).conveys.otherwise
termination_by structural s => s

theorem Sequential.flatMap_texts : ∀ ss : List Sequential,
    (Sequential.texts ss).flatMap items = (Sequential.entriesAll ss).flatMap Entry.items
  | [] => rfl
  | s :: ss => by
    rw [Sequential.texts, Sequential.entriesAll, List.flatMap_cons, List.flatMap_append,
      Sequential.flatMap_texts ss, s.conveys]
termination_by structural ss => ss

theorem Branch.conveys : ∀ b : Branch, Conveys b.text b.entries
  | .mk choice body =>
    ((choice.conveys.opened (s := "when ") (by simp [openings])).closed (s := " =>")
      (by simp [closings])).append_nested body.conveys
termination_by structural b => b

theorem Branch.flatMap_texts : ∀ bs : List Branch,
    (Branch.texts bs).flatMap items = (Branch.entriesAll bs).flatMap Entry.items
  | [] => rfl
  | b :: bs => by
    rw [Branch.texts, Branch.entriesAll, List.flatMap_cons, List.flatMap_append,
      Branch.flatMap_texts bs, b.conveys]
termination_by structural bs => bs

end

/-! ## Concurrent code -/

theorem ConditionalWaveform.conveys (w : ConditionalWaveform) : Conveys w.text w.entries := by
  induction w with
  | value e => exact e.conveys
  | choose value condition rest ih =>
    have hwhen := value.conveys.joined (s := " when ") condition.conveys (by simp [separators])
    exact hwhen.joined ih (by simp [separators])

theorem Waveform.conveys (w : Waveform) : Conveys w.text w.entries := by
  cases w with
  | plain e => exact e.conveys
  | conditional chain => exact chain.conveys

theorem ConcurrentStatement.conveys (s : ConcurrentStatement) : Conveys s.text s.entries := by
  cases s with
  | assignment target value =>
    exact (target.conveys.joined (s := " <= ") value.conveys (by simp [separators])).closing
      (by decide)
  | comment c => exact c.conveys

namespace Text

variable {a : Text} {es : List Entry}

/-- A list in parentheses that is left out when it is empty. -/
theorem Conveys.optionalGroup {α : Type} {text : α → Text} {entries : α → List Entry}
    {xs : List α} (ha : Conveys a es) (separator : Text) (hne : separator ≠ [])
    (hsep : separator.all isSymbol = true) (h : ∀ x ∈ xs, Conveys (text x) (entries x)) :
    Conveys (a ++ if xs.isEmpty then [] else '(' :: (Text.join separator (xs.map text) ++ [')']))
      (es ++ xs.flatMap entries) := by
  split
  · next hempty =>
    rw [List.isEmpty_iff.1 hempty]
    simpa using ha
  · exact ha.append (Conveys.join _ hne hsep (Conveys.flatMap h)).group (.of_break (by decide) _ _)

/-- An optional label that is mentioned again. -/
theorem Conveys.labelled (ha : Conveys a es) (label : Option Ident) :
    Conveys (a ++ label.elim [] fun label => ' ' :: label.text)
      (es ++ optionalEntries (fun label => Text.fixed label.text) label) := by
  cases label with
  | none => simpa [optionalEntries] using ha
  | some label => exact ha.between (m := [' ']) (.fixed label.text) (by decide)

/-- A declarative part on the lines after its header. -/
theorem Conveys.append_lines {α : Type} {text : α → Text} {entries : α → List Entry}
    (ha : Conveys a es) (xs : List α) (h : ∀ x, Conveys (text x) (entries x)) :
    Conveys (a ++ nested (Text.join ['\n'] (xs.map text))) (es ++ xs.flatMap entries) :=
  ha.append_nested (Conveys.join _ (by decide) (by decide) (Conveys.flatMap fun x _ => h x))

end Text

theorem ProcessStatement.conveys (p : ProcessStatement) : Conveys p.text p.entries := by
  have hword : items "process".toList = [] := Conveys.keyword (by simp [silentWords])
  have hheader : Conveys ((p.label.elim [] fun label => label.text ++ ": ".toList)
      ++ "process".toList) (optionalEntries Ident.entries p.label) := by
    cases p.label with
    | none => exact .silent hword
    | some label =>
      exact (label.conveys.joined (.silent hword) (by simp [separators])).of_eq
        (List.append_nil _)
  have hsensitivity := hheader.optionalGroup ", ".toList (by decide)
    (by decide) fun name (_ : name ∈ p.sensitivity) => name.conveys
  have hbody := ((hsensitivity.append_lines p.declarations Statement.conveys).closed
    (s := "\nbegin") (by simp [closings])).append_nested p.body.conveys
  have hend := hbody.closed (s := "\nend process") (by simp [closings])
  exact (hend.labelled p.label).closing (by decide)

theorem Actual.conveys (a : Actual) : Conveys a.text a.entries := by
  cases a with
  | value e => exact e.conveys
  | unconnected => exact .keyword (by simp [silentWords])

theorem Association.conveys (a : Association) : Conveys a.text a.entries := by
  obtain ⟨formal, actual⟩ := a
  cases formal with
  | none => exact actual.conveys
  | some formal =>
    exact formal.conveys.joined (s := " => ") actual.conveys (by simp [separators])

theorem InstanceSource.conveys (s : InstanceSource) : Conveys s.text s.entries := by
  cases s with
  | component name => exact name.conveys.opened (by simp [openings])
  | entity library name architecture =>
    have hentity : Conveys "entity ".toList (fixed "entity".toList) :=
      conveys_heading (by simp [headings])
    have hlibrary := hentity.append library.conveys (.inl (by decide))
    have hname : Conveys (name.text ++ architecture.elim [] fun a => '(' :: (a.text ++ [')']))
        (name.entries ++ optionalEntries Ident.entries architecture) := by
      cases architecture with
      | none => simpa [optionalEntries] using name.conveys
      | some a => exact name.conveys.append a.conveys.group (.of_break (by decide) _ _)
    exact (hlibrary.between (m := ['.']) hname (by decide)).of_eq (by
      simp only [entries, List.append_assoc])

namespace Instance

/-- A map behind what has been written. -/
theorem conveys_append_mapText {a : Text} {es : List Entry} (ha : Conveys a es) (keyword : Text)
    (hkeyword : isOpening ('\n' :: (indentStep ++ keyword ++ " map (\n".toList)) = true)
    (associations : List Association) :
    Conveys (a ++ mapText keyword associations) (es ++ associations.flatMap Association.entries) := by
  rw [mapText]
  split
  · next hempty =>
    rw [List.isEmpty_iff.1 hempty]
    simpa using ha
  · have hentry : ∀ x ∈ associations, Conveys (indentStep ++ indentStep ++ x.text) x.entries :=
      fun x _ => x.conveys.opening (by decide)
    have hjoin := Conveys.join ",\n".toList (by decide) (by decide)
      (Conveys.flatMap hentry)
    have hmap := (hjoin.opening hkeyword).closing (m := '\n' :: (indentStep ++ [')'])) (by decide)
    exact ha.append hmap (.of_break (by decide) _ _)

theorem conveys (i : Instance) : Conveys i.text i.entries := by
  have hsource := i.label.conveys.joined (s := ": ") i.source.conveys (by simp [separators])
  have hgeneric := isOpening_phrase (s := "\n    generic map (\n") (by simp [openings])
  have hport := isOpening_phrase (s := "\n    port map (\n") (by simp [openings])
  have hgenerics := conveys_append_mapText hsource "generic".toList hgeneric i.generics
  exact (conveys_append_mapText hgenerics "port".toList hport i.ports).closing (by decide)

end Instance

mutual

theorem Concurrent.conveys : ∀ c : Concurrent, Conveys c.text c.entries
  | .simple s => s.conveys
  | .process p => p.conveys
  | .component i => i.conveys
  | .generate label parameter range body =>
    have hfor := label.conveys.joined (s := ": for ") parameter.conveys (by simp [separators])
    have hin := hfor.joined (s := " in ") range.conveys (by simp [separators])
    have hbody := (hin.closed (s := " generate") (by simp [closings])).append_nested
      body.conveys
    (hbody.joined (s := "\nend generate ") (.fixed label.text) (by simp [separators])).closing
      (by decide)
  | .region elements => .join _ (by decide) (by decide) (Concurrent.flatMap_texts elements)
termination_by structural c => c

theorem Concurrent.flatMap_texts : ∀ cs : List Concurrent,
    (Concurrent.texts cs).flatMap items = (Concurrent.entriesAll cs).flatMap Entry.items
  | [] => rfl
  | c :: cs => by
    rw [Concurrent.texts, Concurrent.entriesAll, List.flatMap_cons, List.flatMap_append,
      Concurrent.flatMap_texts cs, c.conveys]
termination_by structural cs => cs

end

/-! ## Declarations -/

theorem RecordField.conveys (f : RecordField) : Conveys f.text f.entries :=
  ((f.name.conveys.joined (s := ": ") f.type.conveys (by simp [separators])).closing
    (by decide)).comment f.comment

theorem TypeDecl.conveys (d : TypeDecl) : Conveys d.text d.entries := by
  cases d with
  | enumeration name values =>
    have hname := name.conveys.opened (s := "type ") (by simp [openings])
    have hvalues := Conveys.join ", ".toList (by decide) (by decide)
      (Conveys.flatMap fun value (_ : value ∈ values) => value.conveys)
    exact (hname.joined (s := " is (") hvalues (by simp [separators])).closed
      (by simp [closings])
  | record name fields =>
    have hname := name.conveys.opened (s := "type ") (by simp [openings])
    have hfields := (Conveys.join ['\n'] (by decide) (by decide)
      (Conveys.flatMap fun field (_ : field ∈ fields) => field.conveys)).indent 1
    have hbody := hname.joined (s := " is record\n") hfields (by simp [separators])
    exact (hbody.joined (s := "\nend record ") (.fixed name.text) (by simp [separators])).closing
      (by decide)
  | array name range element =>
    have hname := name.conveys.opened (s := "type ") (by simp [openings])
    have hrange := hname.joined (s := " is array (") range.conveys (by simp [separators])
    exact (hrange.joined (s := ") of ") element.conveys (by simp [separators])).closing
      (by decide)

theorem Parameter.conveys (p : Parameter) : Conveys p.text p.entries :=
  p.name.conveys.joined p.type.conveys (by simp [separators])

theorem Signature.conveys_openText (s : Signature) : Conveys s.openText s.entries := by
  have hname := s.name.conveys.opened (s := "function ") (by simp [openings])
  have hparameters := hname.optionalGroup "; ".toList (by decide)
    (by decide) fun p (_ : p ∈ s.parameters) => p.conveys
  exact hparameters.joined s.result.conveys (by simp [separators])

theorem Signature.conveys (s : Signature) : Conveys s.text s.entries :=
  s.conveys_openText.closing (by decide)

theorem FunctionBody.conveys (f : FunctionBody) : Conveys f.text f.entries := by
  have hdeclarations := (f.signature.conveys_openText.closed (s := " is")
    (by simp [closings])).append_lines f.declarations Statement.conveys
  have hbody := (hdeclarations.closed (s := "\nbegin") (by simp [closings])).append_nested
    f.body.conveys
  exact (hbody.joined (s := "\nend function ") (.fixed f.signature.name.text)
    (by simp [separators])).closing (by decide)

/-! ## Clauses -/

theorem Port.conveys (p : Port) : Conveys p.text p.entries := by
  have hmode : Conveys p.mode.text [] :=
    .keyword (by cases p.mode <;> simp [silentWords, Mode.name])
  have htype := hmode.between (m := [' ']) p.type.conveys (by decide)
  have hcode := p.name.conveys.joined (s := ": ") (htype.default p.default)
    (by simp [separators])
  exact (hcode.comment p.comment).of_eq (by simp only [entries, List.append_assoc, List.nil_append])

theorem Generic.conveys (g : Generic) : Conveys g.text g.entries := by
  have hcode := g.name.conveys.joined (s := ": ") (g.type.conveys.default g.default)
    (by simp [separators])
  exact (hcode.comment g.comment).of_eq (by simp only [entries, List.append_assoc])

namespace ListEntry

theorem items_append_comment (t : Text) (c : Option Comment) :
    Text.items (Comment.append t c) = Text.items t ++ commentItems c := by
  cases c with
  | none => exact (List.append_nil _).symm
  | some c => exact items_symbol (by decide) t c.line

/-- The semicolons of a clause have no items. -/
theorem flatMap_items_lines (es : List ListEntry) :
    (lines es).flatMap Text.items = es.flatMap fun e => Text.items (Comment.append e.code e.comment) := by
  match es with
  | [] => rfl
  | [e] => rfl
  | e :: e' :: es =>
    have hlines : lines (e :: e' :: es)
        = Comment.append (e.code ++ [';']) e.comment :: lines (e' :: es) := rfl
    have hcode : Text.items (e.code ++ [';']) = Text.items e.code := by
      rw [items_symbol (by decide), items_nil, List.append_nil]
    rw [hlines, List.flatMap_cons, List.flatMap_cons, flatMap_items_lines (e' :: es),
      items_append_comment, items_append_comment, hcode]

theorem conveys_clauseText {α : Type} {entry : α → ListEntry} {entries : α → List Entry}
    {keyword : Text} {xs : List α} (hkeyword : isOpening (keyword ++ " (\n".toList) = true)
    (h : ∀ x ∈ xs, Conveys (Comment.append (entry x).code (entry x).comment) (entries x)) :
    Conveys (clauseText keyword (xs.map entry)) (xs.flatMap entries) := by
  have hlines : (lines (xs.map entry)).flatMap Text.items
      = (xs.flatMap entries).flatMap Entry.items := by
    rw [flatMap_items_lines, List.flatMap_map, List.flatMap_assoc]
    exact List.flatMap_congr h
  have hjoin := (Conveys.join ['\n'] (by decide) (by decide) hlines).indent 1
  exact (hjoin.opening hkeyword).closing (by decide)

end ListEntry

theorem PortClause.conveys (c : PortClause) : Conveys c.text (c.ports.flatMap Port.entries) :=
  ListEntry.conveys_clauseText (isOpening_phrase (s := "port (\n") (by simp [openings]))
    fun p _ => p.conveys

theorem GenericClause.conveys (c : GenericClause) :
    Conveys c.text (c.generics.flatMap Generic.entries) :=
  ListEntry.conveys_clauseText (isOpening_phrase (s := "generic (\n") (by simp [openings]))
    fun g _ => g.conveys

/-- A clause on the lines after what has been written. -/
theorem Text.Conveys.append_clause {α : Type} {text : α → Text} {entries : α → List Entry} {a : Text}
    {es : List Entry} (ha : Conveys a es) (h : ∀ x, Conveys (text x) (entries x)) (c : Option α) :
    Conveys (a ++ c.elim [] fun c => '\n' :: Text.indent 1 (text c)) (es ++ optionalEntries entries c) := by
  cases c with
  | none => simpa [optionalEntries] using ha
  | some c => exact ha.between (m := ['\n']) ((h c).indent 1) (by decide)

theorem Interface.conveys_textAs (keyword : Text) (u : Interface) :
    Conveys (textAs keyword u) (u.entriesAs keyword) := by
  have hname := (Conveys.fixed keyword).between (m := [' ']) u.name.conveys (by decide)
  have hclauses := ((hname.closed (s := " is") (by simp [closings])).append_clause
    GenericClause.conveys u.generics).append_clause PortClause.conveys u.ports
  have hend := hclauses.joined (s := "\nend ") (.fixed keyword) (by simp [separators])
  exact ((hend.between (m := [' ']) (.fixed u.name.text) (by decide)).closing (m := [';'])
    (by decide)).of_eq (by simp only [entriesAs, List.append_assoc])

theorem Declaration.conveys (d : Declaration) : Conveys d.text d.entries := by
  cases d with
  | object d => exact d.conveys
  | comment c => exact c.conveys
  | type d => exact d.conveys
  | component c => exact c.conveys_textAs _
  | signature s => exact s.conveys
  | function f => exact f.conveys

theorem Declaration.conveys_partText (items : List Declaration) :
    Conveys (partText items) (items.flatMap Declaration.entries) :=
  .join _ (by decide) (by decide) (Conveys.flatMap fun d _ => d.conveys)

mutual

theorem BodyItem.conveys : ∀ i : BodyItem, Conveys i.text i.entries
  | .function f => f.conveys
  | .object d => d.conveys
  | .type d => d.conveys
  | .comment c => c.conveys
  | .items elements => .join _ (by decide) (by decide) (BodyItem.flatMap_texts elements)
termination_by structural i => i

theorem BodyItem.flatMap_texts : ∀ is : List BodyItem,
    (BodyItem.texts is).flatMap Text.items = (BodyItem.entriesAll is).flatMap Entry.items
  | [] => rfl
  | i :: is => by
    rw [BodyItem.texts, BodyItem.entriesAll, List.flatMap_cons, List.flatMap_append,
      BodyItem.flatMap_texts is, i.conveys]
termination_by structural is => is

end

/-! ## Design units -/

theorem ContextClause.conveys (c : ContextClause) : Conveys c.text c.entries := by
  cases c with
  | library name =>
    have hlibrary : Conveys "library ".toList (fixed "library".toList) :=
      conveys_heading (by simp [headings])
    exact (hlibrary.append name.conveys (.inl (by decide))).closing (by decide)
  | use path all =>
    have huse : Conveys "use ".toList (fixed "use".toList) :=
      conveys_heading (by simp [headings])
    have hword : items "all".toList = [] := Conveys.keyword (by simp [silentWords])
    have hall : (if all then ["all".toList] else []).flatMap items = [] := by
      cases all
      · rfl
      · rw [if_pos rfl, List.flatMap_singleton, hword]
    have hpath : Conveys (Text.join ['.'] (path.map (·.text) ++ if all then ["all".toList] else []))
        (path.flatMap Ident.entries) := by
      refine .join _ (by decide) (by decide) ?_
      rw [List.flatMap_append, hall, List.append_nil]
      exact Conveys.flatMap fun name _ => name.conveys
    exact (huse.append hpath (.inl (by decide))).closing (by decide)

/-- The end of a unit, which mentions its keyword and its name again. -/
theorem Text.Conveys.unitEnd {a m keyword : Text} {es : List Entry} (ha : Conveys a es)
    (hm : Conveys m (Text.fixed keyword)) (name : Ident)
    (hends : (m.head?.any isBreak && !m.getLast?.any isIdentChar) = true) :
    Conveys (a ++ m ++ name.text ++ [';']) (es ++ (Text.fixed keyword ++ Text.fixed name.text)) := by
  rw [List.append_assoc a]
  exact (ha.through hm (.fixed name.text) hends).closing (by decide)

theorem Architecture.conveys (a : Architecture) : Conveys a.text a.entries := by
  have hunit : Conveys "architecture ".toList (fixed "architecture".toList) :=
    conveys_heading (by simp [headings])
  have hof := (hunit.append a.name.conveys (.inl (by decide))).joined (s := " of ")
    a.entity.conveys (by simp [separators])
  have hhead := (hof.closed (s := " is") (by simp [closings])).append_nested
    (Declaration.conveys_partText a.head.items)
  have hbody := (hhead.closed (s := "\nbegin") (by simp [closings])).append_nested
    a.body.conveys
  exact hbody.unitEnd (conveys_heading (by simp [headings])) a.name (by decide)

theorem Package.conveys (p : Package) : Conveys p.text p.entries := by
  have hunit : Conveys "package ".toList (fixed "package".toList) :=
    conveys_heading (by simp [headings])
  have hname := hunit.append p.name.conveys (.inl (by decide))
  have hitems := (hname.closed (s := " is") (by simp [closings])).append_nested
    (Declaration.conveys_partText p.items)
  exact hitems.unitEnd (conveys_heading (by simp [headings])) p.name (by decide)

theorem PackageBody.conveys (b : PackageBody) : Conveys b.text b.entries := by
  have hunit : Conveys "package body ".toList (fixed "package body".toList) :=
    conveys_heading (by simp [headings])
  have hname := hunit.append b.name.conveys (.inl (by decide))
  have hbody := (hname.closed (s := " is") (by simp [closings])).append_nested b.body.conveys
  exact hbody.unitEnd (conveys_heading (by simp [headings])) b.name (by decide)

/-- **The items of the canonical text of a file** are its entries. -/
theorem DesignFile.conveys (f : DesignFile) : Conveys f.text f.entries := by
  refine .join _ (by decide) (by decide) ?_
  have hprologue : ∀ ls : List Text,
      (if ls.isEmpty then [] else [Text.join ['\n'] ls]).flatMap items = ls.flatMap items := by
    intro ls
    cases ls with
    | nil => rfl
    | cons l ls => simp [items_join_symbol (c := '\n') (by decide)]
  simp only [sections, entries, hprologue, List.flatMap_append]
  rw [Conveys.flatMap fun c _ => c.conveys, Conveys.flatMap fun c _ => c.conveys,
    Conveys.flatMap fun p _ => p.conveys, Conveys.flatMap fun b _ => b.conveys,
    Conveys.flatMap fun e _ => e.conveys_textAs _,
    Conveys.flatMap fun a _ => a.conveys]

end CanonicalVhdl
