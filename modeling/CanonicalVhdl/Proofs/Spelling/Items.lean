import CanonicalVhdl.Proofs.Case.Tree
import CanonicalVhdl.Proofs.Region.Cuts
import CanonicalVhdl.Proofs.Search.Closing
import CanonicalVhdl.Proofs.Settled.Text

/-!
# The words and marks of a text

What a canonical text says with the spelling of its words is kept apart from the words
that the grammar puts in and takes out.  The *items* of a text are its words, reserved
ones aside, and its *marks*, in order.  A mark is a hyphen, which no comment is without,
or a blank that is no ASCII blank.

A run of identifier characters right before a quotation mark is no word: it is the base
of a bit string or the end of a string.  Neither is a number.  The reserved words that
tell the kinds of design units apart are words as well, so that the items of a file show
the order of its units.

## Main definitions

* `Item`, `Text.items` — the items of a text.
* `Text.Parted` — two texts whose items do not run into each other.
* `Entry`, `Text.owned`, `Text.fixed` — the entries of trees, and of texts in them.
* `Covers`, `Bears` — items against entries; `Text.Yields` is about the items of a text.
* `Remains` — what is left of some items when parts with marks may be dropped.

## Main statements

* `Text.items_append` — the items of two texts side by side.
* `Text.items_word` — a word and what follows it.
* `Text.count_mark_items` — as many marks as there are characters that are marks.
* `Bears.append`, `Bears.flatMap` — how entries are put together.
* `Bears.of_remains` — parts with marks may be dropped.
-/

namespace CanonicalVhdl

/-- A word or a mark of a text. -/
inductive Item where
  /-- A word as it is spelled. -/
  | word (w : Text)
  /-- A hyphen, or a blank that is no ASCII blank. -/
  | mark
deriving DecidableEq

/-- An item in lower case. -/
def Item.fold : Item → Item
  | .word w => .word (Text.fold w)
  | .mark => .mark

namespace Text

/-! ## Items -/

/-- Whether a character is a mark. -/
def isMark (c : Char) : Bool :=
  c == '-' || isBlank c && !isAsciiBlank c

/-- The reserved words that tell the kinds of design units apart. -/
def trackedWords : List Text :=
  ["architecture", "body", "entity", "library", "package", "use"].map String.toList

/-- Whether a run of identifier characters is a word that counts. -/
def isTracked (w : Text) : Bool :=
  w.head?.any Char.isAlpha && (!isReserved w || trackedWords.contains (fold w))

/-- The item of a run of identifier characters, given the character after it. -/
def closeRun (w : Text) (next : Option Char) : List Item :=
  if isTracked w && next != some '"' then [.word w] else []

/-- The items of a single character. -/
def markItems (c : Char) : List Item :=
  if isMark c then [.mark] else []

/-- The items of a text that follows a run of identifier characters, given reversed. -/
def itemsFrom (run : Text) : Text → List Item
  | [] => closeRun run.reverse none
  | c :: t =>
    if isIdentChar c then itemsFrom (c :: run) t
    else closeRun run.reverse (some c) ++ (markItems c ++ itemsFrom [] t)

/-- The items of a text. -/
def items (t : Text) : List Item :=
  itemsFrom [] t

@[simp] theorem items_nil : items [] = [] := rfl

theorem closeRun_nil (next : Option Char) : closeRun [] next = [] := rfl

theorem isMark_eq_false_of_isIdentChar {c : Char} (h : isIdentChar c = true) : isMark c = false := by
  rw [isMark, isBlank_eq_false_of_isIdentChar h, Bool.false_and, Bool.or_false, beq_eq_false_iff_ne]
  rintro rfl
  exact absurd h (by decide)

theorem items_cons {c : Char} (h : isIdentChar c = false) (t : Text) :
    items (c :: t) = markItems c ++ items t := by
  rw [items, itemsFrom, if_neg (by simp [h]), List.reverse_nil, closeRun_nil, List.nil_append]
  rfl

/-! ## Texts side by side -/

/-- Two texts between which no run of identifier characters goes on, nor a quotation mark
follows one. -/
def Parted (a b : Text) : Prop :=
  a.getLast?.any isIdentChar = false ∨ b.head?.any (fun c => isIdentChar c || c == '"') = false

/-- Characters that end a run and leave it a word. -/
def isBreak (c : Char) : Bool :=
  !isIdentChar c && c != '"'

theorem itemsFrom_break {c : Char} (hc : isBreak c = true) (a b : Text) :
    ∀ run, itemsFrom run (a ++ c :: b) = itemsFrom run a ++ items (c :: b) := by
  obtain ⟨hident, hquote⟩ := Bool.and_eq_true_iff.1 hc
  rw [Bool.not_eq_true'] at hident
  induction a with
  | nil =>
    intro run
    have hclose : closeRun run.reverse (some c) = closeRun run.reverse none := by
      simp [closeRun, bne_iff_ne.1 hquote]
    rw [List.nil_append, items_cons hident, itemsFrom, itemsFrom, if_neg (by simp [hident]), hclose]
    rfl
  | cons d a ih =>
    intro run
    rw [List.cons_append, itemsFrom, itemsFrom]
    split
    · exact ih (d :: run)
    · rw [ih []]
      simp

theorem itemsFrom_concat {d : Char} (hd : isIdentChar d = false) (a b : Text) :
    ∀ run, itemsFrom run (a ++ d :: b) = itemsFrom run (a ++ [d]) ++ items b := by
  induction a with
  | nil =>
    intro run
    rw [List.nil_append, List.nil_append, itemsFrom, itemsFrom, if_neg (by simp [hd]),
      if_neg (by simp [hd])]
    simp [itemsFrom, closeRun_nil, items]
  | cons c a ih =>
    intro run
    rw [List.cons_append, List.cons_append, itemsFrom, itemsFrom]
    split
    · exact ih (c :: run)
    · rw [ih []]
      simp

/-- The items of two texts side by side. -/
theorem items_append {a b : Text} (h : Parted a b) : items (a ++ b) = items a ++ items b := by
  obtain h | h := h
  · obtain rfl | ⟨a, d, rfl⟩ := List.eq_nil_or_concat' a
    · rfl
    · rw [List.getLast?_concat, Option.any_some] at h
      rw [List.append_assoc, List.singleton_append]
      exact itemsFrom_concat h a b []
  · cases b with
    | nil => simp
    | cons c b =>
      refine itemsFrom_break ?_ a b []
      simpa [isBreak, not_or] using h

theorem Parted.of_nil_left (b : Text) : Parted [] b := .inl rfl

theorem Parted.of_nil_right (a : Text) : Parted a [] := .inr rfl

theorem Parted.of_break {c : Char} (hc : isBreak c = true) (a b : Text) : Parted a (c :: b) := by
  refine .inr ?_
  simpa [isBreak, not_or] using hc

/-- A run of identifier characters and what follows it. -/
theorem itemsFrom_run {x u : Text} (hx : x.all isIdentChar = true)
    (hu : u.head?.any isIdentChar = false) :
    ∀ run, itemsFrom run (x ++ u) = closeRun (run.reverse ++ x) u.head? ++ items u := by
  induction x with
  | nil =>
    intro run
    rw [List.nil_append, List.append_nil]
    cases u with
    | nil => simp [itemsFrom]
    | cons c u =>
      rw [List.head?_cons, Option.any_some] at hu
      rw [itemsFrom, if_neg (by simp [hu]), items_cons hu, List.head?_cons]
      rfl
  | cons c x ih =>
    intro run
    rw [List.all_cons, Bool.and_eq_true] at hx
    rw [List.cons_append, itemsFrom, if_pos hx.1, ih hx.2]
    simp

/-- A word and what follows it. -/
theorem items_run {x u : Text} (hx : x.all isIdentChar = true)
    (hu : u.head?.any isIdentChar = false) : items (x ++ u) = closeRun x u.head? ++ items u :=
  itemsFrom_run hx hu []

theorem items_word {x : Text} (hx : x.all isIdentChar = true) : items x = closeRun x none := by
  have := items_run (u := []) hx rfl
  rwa [List.append_nil, items_nil, List.append_nil] at this

/-- A run of identifier characters between two texts. -/
theorem items_between_run {a x b : Text} (hx : x.all isIdentChar = true)
    (ha : a.getLast?.any isIdentChar = false) (hb : b.head?.any isIdentChar = false) :
    items (a ++ (x ++ b)) = items a ++ (closeRun x b.head? ++ items b) := by
  rw [items_append (.inl ha), items_run hx hb]

/-- Characters that end runs, between two texts. -/
theorem items_between {a m b : Text} (hm : m.all isBreak = true) (hne : m ≠ []) :
    items (a ++ (m ++ b)) = items a ++ (items m ++ items b) := by
  obtain ⟨c, m', rfl⟩ := List.exists_cons_of_ne_nil hne
  have hlast : (c :: m').getLast?.any isIdentChar = false := by
    rw [List.getLast?_eq_some_getLast hne, Option.any_some]
    have := List.all_eq_true.1 hm _ (List.getLast_mem hne)
    simp only [isBreak, Bool.and_eq_true, Bool.not_eq_true'] at this
    exact this.1
  rw [List.all_cons, Bool.and_eq_true] at hm
  rw [List.cons_append, items_append (.of_break hm.1 a _), ← List.cons_append,
    items_append (.inl hlast)]

/-! ## Marks -/

theorem mark_notMem_closeRun (w : Text) (next : Option Char) : .mark ∉ closeRun w next := by
  rw [closeRun]
  split <;> simp

theorem count_mark_itemsFrom (t : Text) :
    ∀ run, (itemsFrom run t).count .mark = t.countP isMark := by
  induction t with
  | nil =>
    intro run
    rw [itemsFrom, List.count_eq_zero.2 (mark_notMem_closeRun _ _), List.countP_nil]
  | cons c t ih =>
    intro run
    rw [itemsFrom, List.countP_cons]
    split
    · next hc => rw [ih, isMark_eq_false_of_isIdentChar hc]; simp
    · rw [List.count_append, List.count_append, List.count_eq_zero.2 (mark_notMem_closeRun _ _), ih,
        markItems]
      split <;> simp [Nat.add_comm]

/-- As many marks as there are characters that are marks. -/
theorem count_mark_items (t : Text) : (items t).count .mark = t.countP isMark :=
  count_mark_itemsFrom t []

/-- Blanks are marks or nothing. -/
theorem items_blank {g : Text} (hg : g.all isBlank = true) :
    items g = [] ∨ .mark ∈ items g := by
  induction g with
  | nil => exact .inl rfl
  | cons c g ih =>
    rw [List.all_cons, Bool.and_eq_true] at hg
    have hident : isIdentChar c = false := by
      by_contra h
      rw [Bool.not_eq_false] at h
      simp [isBlank_eq_false_of_isIdentChar h] at hg
    rw [items_cons hident]
    obtain h | h := ih hg.2
    · rw [h, markItems]
      split
      · exact .inr (by simp)
      · exact .inl rfl
    · exact .inr (List.mem_append_right _ h)

theorem getLast?_any_isIdentChar_of_blank {g : Text} (hg : g.all isBlank = true) :
    g.getLast?.any isIdentChar = false := by
  rw [Option.any_eq_false]
  intro c hc
  have := List.all_eq_true.1 hg c (List.mem_of_getLast? hc)
  by_contra h
  rw [Bool.not_eq_false] at h
  rw [isBlank_eq_false_of_isIdentChar h] at this
  cases this

/-! ## Case -/

theorem isTracked_fold (w : Text) : isTracked (fold w) = isTracked w := by
  rw [isTracked, isTracked, isReserved_fold, fold_fold]
  cases w with
  | nil => rfl
  | cons c w => simp [isAlpha_toLower]

theorem isMark_toLower (c : Char) : isMark c.toLower = isMark c := by
  rw [isMark, isMark, beq_toLower (by decide), isBlank_toLower, isAsciiBlank_toLower]

theorem closeRun_fold (w : Text) (next : Option Char) :
    closeRun (fold w) (next.map Char.toLower) = (closeRun w next).map Item.fold := by
  have hquote : (next.map Char.toLower != some '"') = (next != some '"') := by
    cases next with
    | none => rfl
    | some c => simpa [bne] using beq_toLower (by decide) c
  rw [closeRun, closeRun, isTracked_fold, hquote]
  split <;> rfl

theorem markItems_toLower (c : Char) : markItems c.toLower = (markItems c).map Item.fold := by
  rw [markItems, markItems, isMark_toLower]
  split <;> rfl

theorem itemsFrom_fold (t : Text) :
    ∀ run, itemsFrom (fold run) (fold t) = (itemsFrom run t).map Item.fold := by
  induction t with
  | nil =>
    intro run
    rw [fold_nil, itemsFrom, itemsFrom, reverse_fold]
    exact closeRun_fold run.reverse none
  | cons c t ih =>
    intro run
    rw [fold_cons, itemsFrom, itemsFrom, isIdentChar_toLower]
    split
    · exact ih (c :: run)
    · rw [reverse_fold, List.map_append, List.map_append, ← ih [], markItems_toLower]
      congr 1
      exact closeRun_fold run.reverse (some c)

/-- The items of a text in lower case. -/
theorem items_fold (t : Text) : items (fold t) = (items t).map Item.fold :=
  itemsFrom_fold t []

/-- Texts that are equal up to case have items that are. -/
theorem items_of_sameWord {t u : Text} (h : sameWord t u = true) :
    (items t).map Item.fold = (items u).map Item.fold := by
  rw [← items_fold, ← items_fold, sameWord_iff.1 h]

end Text

/-! ## What a text yields

The *entries* of a tree are the words and marks of its canonical text, in order.  A word
is the tree's own when the tree keeps it as it is spelled; any other word is fixed by the
tree, as a name with a meaning of its own is, or the second mention of a name.

A reader may put in fixed words that its text leaves out, but loses no word unless it
loses a mark: what it drops are blanks, reserved words and comments.  So a text *yields*
the entries of the tree read from it: the tree has no more marks than the text, and when
it has as many, then every word of the text is an entry of the tree, in the same order
and spelled alike if it is the tree's own. -/

/-- A word or mark of the canonical text of a tree. -/
inductive Entry where
  /-- A word that the tree keeps as it is spelled. -/
  | own (w : Text)
  /-- A word with a spelling that follows from the tree. -/
  | fixed (w : Text)
  /-- A mark. -/
  | mark
  /-- A real number, by its text. -/
  | real (t : Text)
deriving DecidableEq

namespace Entry

/-- The items that an entry stands for. -/
def items : Entry → List Item
  | own w | fixed w => [.word w]
  | mark => [.mark]
  | real t => t.items

/-- Whether the entry is a real number. -/
def isReal : Entry → Bool
  | real _ => true
  | _ => false

/-- The word of an entry that is the tree's own. -/
def own? : Entry → Option Text
  | own w => some w
  | _ => none

/-- An entry in lower case. -/
def fold : Entry → Entry
  | own w => own (Text.fold w)
  | fixed w => fixed (Text.fold w)
  | mark => mark
  | real _ => real []

end Entry

/-- An item that is a tree's own. -/
def Item.owned : Item → Entry
  | .word w => .own w
  | .mark => .mark

/-- An item with a spelling that follows from the tree. -/
def Item.fixed : Item → Entry
  | .word w => .fixed w
  | .mark => .mark

namespace Text

/-- The entries of a text that a tree keeps as it is spelled. -/
def owned (t : Text) : List Entry :=
  t.items.map Item.owned

/-- The entries of a text with a spelling that follows from the tree. -/
def fixed (t : Text) : List Entry :=
  t.items.map Item.fixed

end Text

/-! ## Items against entries -/

/-- Every item is an entry, in order; entries that are no items are fixed words. -/
inductive Covers : List Item → List Entry → Prop
  /-- Nothing is left. -/
  | nil : Covers [] []
  /-- A word that is the tree's own. -/
  | own {is : List Item} {es : List Entry} (w : Text) (h : Covers is es) :
      Covers (.word w :: is) (.own w :: es)
  /-- A fixed word in any case. -/
  | fixed {is : List Item} {es : List Entry} {v w : Text} (hw : Text.sameWord v w = true)
      (h : Covers is es) : Covers (.word v :: is) (.fixed w :: es)
  /-- A mark. -/
  | mark {is : List Item} {es : List Entry} (h : Covers is es) :
      Covers (.mark :: is) (.mark :: es)
  /-- A fixed word that is no item. -/
  | added {is : List Item} {es : List Entry} (w : Text) (h : Covers is es) :
      Covers is (.fixed w :: es)

theorem Covers.append {is js : List Item} {es fs : List Entry} (h : Covers is es)
    (h' : Covers js fs) : Covers (is ++ js) (es ++ fs) := by
  induction h with
  | nil => exact h'
  | own w _ ih => exact .own w ih
  | fixed hw _ ih => exact .fixed hw ih
  | mark _ ih => exact .mark ih
  | added w _ ih => exact .added w ih

theorem covers_owned (is : List Item) : Covers is (is.map Item.owned) := by
  induction is with
  | nil => exact .nil
  | cons i is ih =>
    cases i with
    | word w => exact .own w ih
    | mark => exact .mark ih

theorem covers_fixed {is js : List Item} (h : is.map Item.fold = js.map Item.fold) :
    Covers is (js.map Item.fixed) := by
  induction is generalizing js with
  | nil =>
    obtain rfl := List.map_eq_nil_iff.1 h.symm
    exact .nil
  | cons i is ih =>
    cases js with
    | nil => cases h
    | cons j js =>
      obtain ⟨hij, hrest⟩ := List.cons.inj h
      cases i with
      | word v =>
        cases j with
        | word w => exact .fixed (Text.sameWord_iff.2 (Item.word.inj hij)) (ih hrest)
        | mark => cases hij
      | mark =>
        cases j with
        | word w => cases hij
        | mark => exact .mark (ih hrest)

/-- As few marks as the items have, and all items when there are as many. -/
structure Bears (is : List Item) (es : List Entry) : Prop where
  /-- There are no more marks than among the items. -/
  count_le : es.count .mark ≤ is.count .mark
  /-- With as many marks, and no real number, every item is an entry. -/
  covers : es.count .mark = is.count .mark → es.any Entry.isReal = false → Covers is es

namespace Bears

variable {is js : List Item} {es fs : List Entry}

theorem nil : Bears [] [] := ⟨Nat.le_refl _, fun _ _ => .nil⟩

theorem append (h : Bears is es) (h' : Bears js fs) : Bears (is ++ js) (es ++ fs) where
  count_le := by
    rw [List.count_append, List.count_append]
    exact Nat.add_le_add h.count_le h'.count_le
  covers hcount hreal := by
    rw [List.count_append, List.count_append] at hcount
    rw [List.any_append, Bool.or_eq_false_iff] at hreal
    have := h.count_le
    have := h'.count_le
    exact (h.covers (by omega) hreal.1).append (h'.covers (by omega) hreal.2)

theorem flatMap {α β : Type} {f : α → List Item} {g : β → List Entry} {as : List α} {bs : List β}
    (h : List.Forall₂ (fun a b => Bears (f a) (g b)) as bs) :
    Bears (as.flatMap f) (bs.flatMap g) := by
  induction h with
  | nil => exact nil
  | cons hab _ ih =>
    rw [List.flatMap_cons, List.flatMap_cons]
    exact hab.append ih

/-- Fixed words that are no items. -/
theorem added (ws : List Text) : Bears [] (ws.map Entry.fixed) := by
  induction ws with
  | nil => exact nil
  | cons w ws ih =>
    refine ⟨?_, fun hcount hreal => .added w (ih.covers ?_ ?_)⟩
    · rw [List.map_cons, List.count_cons_of_ne (by simp)]
      exact ih.count_le
    · rwa [List.map_cons, List.count_cons_of_ne (by simp)] at hcount
    · exact hreal

theorem owned (is : List Item) : Bears is (is.map Item.owned) where
  count_le := by
    refine le_of_eq ?_
    rw [List.count_eq_countP, List.countP_map, List.count_eq_countP]
    exact List.countP_congr fun i _ => by cases i <;> simp [Item.owned]
  covers _ _ := covers_owned is

theorem fixed (h : is.map Item.fold = js.map Item.fold) : Bears is (js.map Item.fixed) where
  count_le := by
    have hmark : ∀ ks : List Item, (ks.map Item.fold).count .mark = ks.count .mark := by
      intro ks
      rw [List.count_eq_countP, List.countP_map, List.count_eq_countP]
      exact List.countP_congr fun i _ => by cases i <;> simp [Item.fold]
    rw [← hmark is, h, hmark, List.count_eq_countP, List.countP_map, List.count_eq_countP]
    exact le_of_eq (List.countP_congr fun i _ => by cases i <;> simp [Item.fixed])
  covers _ _ := covers_fixed h

end Bears

/-! ## What is left of items -/

/-- All of the items, or fewer marks than they have. -/
def Remains (is js : List Item) : Prop :=
  js = is ∨ js.count .mark < is.count .mark

namespace Remains

variable {is js ks ls : List Item}

theorem refl (is : List Item) : Remains is is := .inl rfl

theorem trans (h : Remains is js) (h' : Remains js ks) : Remains is ks := by
  obtain rfl | h := h
  · exact h'
  · obtain rfl | h' := h'
    · exact .inr h
    · exact .inr (h'.trans h)

theorem append (h : Remains is ks) (h' : Remains js ls) : Remains (is ++ js) (ks ++ ls) := by
  simp only [Remains, List.count_append]
  obtain rfl | h := h
  · obtain rfl | h' := h'
    · exact .inl rfl
    · exact .inr (by omega)
  · obtain rfl | h' := h'
    · exact .inr (by omega)
    · exact .inr (by omega)

/-- A part that has a mark, unless it is empty, may be dropped. -/
theorem drop (h : is = [] ∨ .mark ∈ is) : Remains is [] := by
  obtain rfl | h := h
  · exact .refl []
  · exact .inr (List.count_pos_iff.2 h)

end Remains

theorem Bears.of_remains {is js : List Item} {es : List Entry} (h : Bears js es)
    (hjs : Remains is js) : Bears is es := by
  obtain rfl | hlt := hjs
  · exact h
  · have := h.count_le
    exact ⟨by omega, fun hcount => by omega⟩

namespace Text

/-- The entries that a text yields. -/
def Yields (t : Text) (es : List Entry) : Prop :=
  Bears t.items es

theorem Yields.of_remains {t u : Text} {es : List Entry} (h : Yields u es)
    (hu : Remains t.items u.items) : Yields t es :=
  Bears.of_remains h hu

/-- A text in two parts. -/
theorem Yields.of_apart {t a b : Text} {es fs : List Entry} (ht : t.items = a.items ++ b.items)
    (ha : Yields a es) (hb : Yields b fs) : Yields t (es ++ fs) := by
  rw [Yields, ht]
  exact ha.append hb

end Text

end CanonicalVhdl
