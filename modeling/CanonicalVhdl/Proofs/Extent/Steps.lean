import CanonicalVhdl.Proofs.Extent.Rows
import CanonicalVhdl.Proofs.Region.Header
import CanonicalVhdl.Proofs.Token.Remark

/-!
# Statements and constructs by their rows

A statement or construct is delimited row by row: its first row opens what its last one
closes, and the rows between them leave the nesting as it is.

## Main definitions

* `Finishes depth parens s ls` — the scan passes over the rows `ls` and ends a statement
  inside `depth` constructs with the last of them.
* `Stays free ls` — rows inside a construct, after which the same constructs are open.
* `Stands free t` — a text is one statement or construct, wherever it stands.

## Main statements

* `Stands.extent?` — the extent of such a text is its length.
* `Stands.stays` — inside a construct it leaves the nesting as it is.
* `stands_construct` — a head that opens a construct, an interior and a closing clause.
-/

namespace CanonicalVhdl

open Text Token

/-! ## Rows that end a statement -/

/-- The scan with `parens` open parentheses and the nesting `s` passes over rows, the last
of which ends a statement inside `depth` open constructs. -/
inductive Finishes (depth : Nat) : Nat → Nesting → List Text → Prop
  | last {parens : Nat} {s : Nesting} {l : Text} : IsRow l → l.getLast? = some ';' →
    (∀ (position : Nat) (before : Option Char) (u : Text), Opens before →
      extentFrom parens s 0 position before (l ++ u) = ended depth (position + l.length) u) →
    Finishes depth parens s [l]
  | cons {parens parens' : Nat} {s s' : Nesting} {l : Text} {ls : List Text} : IsRow l →
    (∀ (position : Nat) (before : Option Char) (u : Text), Opens before → IsAhead ls u →
      extentFrom parens s 0 position before (l ++ u)
        = extentFrom parens' s' 0 (position + l.length) (lastOr before l) u) →
    Finishes depth parens' s' ls → Finishes depth parens s (l :: ls)

namespace Finishes

variable {depth parens parens' : Nat} {s s' : Nesting} {ls ls' : List Text}

theorem ne_nil (h : Finishes depth parens s ls) : ls ≠ [] := by
  cases h <;> exact List.cons_ne_nil _ _

theorem isRow (h : Finishes depth parens s ls) : ∀ l ∈ ls, IsRow l := by
  induction h with
  | last hl => exact List.forall_mem_singleton.2 hl
  | cons hl _ _ ih => exact List.forall_mem_cons.2 ⟨hl, ih⟩

/-- Rows that are passed over before those that end the statement. -/
theorem after (h : Passes parens s ls parens' s') (h' : Finishes depth parens' s' ls') :
    Finishes depth parens s (ls ++ ls') := by
  induction h with
  | nil => exact h'
  | @cons parens parens₁ parens₂ s s₁ s₂ l ls hl hstep _ ih =>
    refine .cons hl (fun position before u hbefore hu => ?_) (ih h')
    refine hstep position before u hbefore ⟨hu.line, fun m hm => hu.next m ?_⟩
    cases ls with
    | nil => cases hm
    | cons n ls => exact hm

/-- A statement inside a construct leaves the nesting as it is. -/
theorem passes (h : Finishes (depth + 1) parens s ls) :
    Passes parens s ls 0 ⟨depth + 1, false, false⟩ := by
  induction h with
  | @last parens s l hl hlast hstep =>
    refine .single hl fun position before u hbefore _ => ?_
    rw [hstep position before u hbefore, ended, if_neg (Nat.succ_ne_zero depth), lastOr, hlast]
    rfl
  | cons hl hstep _ ih => exact .cons hl hstep ih

/-- **The scan ends a statement with such rows at its semicolon.** -/
theorem extentFrom {t : Text} (h : Finishes depth parens s (rows t)) (hlast : t.getLast? = some ';')
    {before : Option Char} (hbefore : Opens before) (u : Text) (position : Nat) :
    extentFrom parens s 0 position before (t ++ u) = ended depth (position + t.length) u := by
  generalize hls : rows t = ls at h
  induction h generalizing t before position with
  | @last parens s l hl _ hstep =>
    obtain ⟨g, r, hg, hr, rfl, hrows⟩ := exists_of_rows_cons hls
    -- only padding could follow the last row, and the text ends with a semicolon
    obtain rfl : r = [] := by
      by_contra hne
      rw [← List.append_assoc, List.getLast?_append_of_ne_nil _ hne] at hlast
      rcases isPad_of_rows_eq_nil hrows ';' (List.mem_of_getLast? hlast) with h | h <;>
        exact absurd h (by decide)
    rw [List.append_nil, List.append_assoc, extentFrom_pad hg, hstep _ _ _ (hg.opens hbefore),
      List.length_append, Nat.add_assoc]
  | @cons parens parens₁ s s₁ l ls hl hstep hrest ih =>
    obtain ⟨g, r, hg, hr, rfl, hrows⟩ := exists_of_rows_cons hls
    obtain rfl | ⟨r, rfl⟩ := hr.cases
    · exact absurd hrows.symm hrest.ne_nil
    have hrows : rows r = ls := (rows_newline r).symm.trans hrows
    have hr : r ≠ [] := by
      rintro rfl
      exact hrest.ne_nil hrows.symm
    have hend : r.getLast? = some ';' := by
      rwa [← List.append_assoc, List.getLast?_append_of_ne_nil _ (List.cons_ne_nil _ _),
        List.getLast?_cons_of_ne_nil hr] at hlast
    rw [List.append_assoc, List.append_assoc, extentFrom_pad hg,
      hstep _ _ _ (hg.opens hbefore) (isAhead_of_rows hrows u), List.cons_append,
      extentFrom_newline, ih hend opens_newline _ hrows]
    simp only [List.length_append, List.length_cons]
    congr 1
    omega

end Finishes

/-! ## Kinds of rows -/

/-- Whether a comment takes one line. -/
def Comment.IsOneLine (c : Comment) : Prop :=
  '\n' ∉ c.text ∧ '\r' ∉ c.text

section Rows

variable {s s' : Nesting} {ts : List Token} {comment : Option Comment} {x : Text}

theorem last_ne_of_not_mem {l : Text} (h : '\r' ∉ l) : l.getLast? ≠ some '\r' :=
  fun hlast => h (List.mem_of_getLast? hlast)

/-- Code with a comment behind it. -/
theorem isRow_remark (hx : IsRow x) (hcomment : ∀ c ∈ comment, c.IsOneLine) :
    IsRow (x ++ remark comment) := by
  cases comment with
  | none => rwa [remark, List.append_nil]
  | some c =>
    obtain ⟨hn, hr⟩ := hcomment c rfl
    refine ⟨⟨by simp [hx.ne_nil], ?_, ?_⟩, ?_⟩
    · simp only [remark, Comment.line, List.mem_append, List.mem_cons, not_or]
      exact ⟨hx.newline_not_mem, by decide, by decide, by decide, hn⟩
    · rw [remark, List.getLast?_append_of_ne_nil _ (List.cons_ne_nil _ _)]
      refine last_ne_of_not_mem ?_
      simp only [Comment.line, List.mem_cons, not_or]
      exact ⟨by decide, by decide, by decide, hr⟩
    · rw [List.head?_append_of_ne_nil _ hx.ne_nil]
      exact hx.head_ne

theorem isRow_comment {c : Comment} (hc : c.IsOneLine) : IsRow c.line := by
  refine ⟨⟨List.cons_ne_nil _ _, ?_, ?_⟩, by simp [Comment.line]⟩
  · simp only [Comment.line, List.mem_cons, not_or]
    exact ⟨by decide, by decide, hc.1⟩
  · refine last_ne_of_not_mem ?_
    simp only [Comment.line, List.mem_cons, not_or]
    exact ⟨by decide, by decide, hc.2⟩

/-- A comment line changes nothing. -/
theorem passes_comment {parens : Nat} {c : Comment} (hc : c.IsOneLine) :
    Passes parens s [c.line] parens s := by
  refine .single (isRow_comment hc) fun position before u _ hu => ?_
  have hline : c.line ++ u = '-' :: (('-' :: c.text) ++ u) := rfl
  rw [hline, extentFrom_comment (at_remark hc.1 hu before)]
  congr 1
  simp only [Comment.line, List.length_cons]
  omega

/-- A row of tokens. -/
theorem passes_tokens (hts : IsPhrase ts) (hrow : IsRow (render ts)) (hafter : s.after ts = some s') :
    Passes 0 s [render ts] 0 s' :=
  .single hrow fun _ _ _ hbefore hu =>
    extentFrom_render (hts _ _ hbefore (by simpa using hu.closes (show Closes none from rfl))) hafter

/-- A row of tokens between parentheses, perhaps with a comment behind them. -/
theorem passes_entry {parens : Nat} (hts : IsPhrase ts) (hrow : IsRow (render ts))
    (hcomment : ∀ c ∈ comment, c.IsOneLine) :
    Passes (parens + 1) s [render ts ++ remark comment] (parens + 1) s := by
  refine .single (isRow_remark hrow hcomment) fun position before u hbefore hu => ?_
  rw [List.append_assoc, extentFrom_innerAll s ts _ _ _ _ (hts _ _ hbefore (closes_remark comment hu)),
    extentFrom_remark (fun c hc => (hcomment c hc).1) hu, List.length_append, lastOr_append,
    Nat.add_assoc]

end Rows

/-! ## Inside constructs -/

/-- Rows inside a construct after which the same constructs are open as before them.
Unless they are `free`, they are not for a place where the words after `else` are read. -/
def Stays (free : Bool) (ls : List Text) : Prop :=
  ∀ depth header, (header = true → free = true) → ∃ header', (header' = true → free = true) ∧
    Passes 0 ⟨depth + 1, false, header⟩ ls 0 ⟨depth + 1, false, header'⟩

theorem stays_nil {free : Bool} : Stays free [] := fun _ header hheader => ⟨header, hheader, .nil⟩

theorem Stays.append {free : Bool} {ls ls' : List Text} (h : Stays free ls) (h' : Stays free ls') :
    Stays free (ls ++ ls') := by
  intro depth header hheader
  obtain ⟨header₁, hheader₁, hpass⟩ := h depth header hheader
  obtain ⟨header₂, hheader₂, hpass'⟩ := h' depth header₁ hheader₁
  exact ⟨header₂, hheader₂, hpass.append hpass'⟩

theorem stays_flatMap {α : Type} {free : Bool} {f : α → List Text} {as : List α}
    (h : ∀ a ∈ as, Stays free (f a)) : Stays free (as.flatMap f) := by
  induction as with
  | nil => exact stays_nil
  | cons a as ih =>
    rw [List.flatMap_cons]
    exact (h a List.mem_cons_self).append (ih fun b hb => h b (List.mem_cons_of_mem a hb))

theorem Stays.isTidy {free : Bool} {t : Text} (h : Stays free (rows t)) : IsTidy t := by
  obtain ⟨header, -, hpass⟩ := h 0 false fun h => nomatch h
  exact hpass.isTidy

/-- Printing a region inside a construct keeps what the scan does with it. -/
theorem Stays.nested {free : Bool} {t : Text} (h : Stays free (rows t)) :
    Stays free (rows (Text.nested t)) := by
  rwa [rows_nested h.isTidy]

theorem stays_comment {free : Bool} {c : Comment} (hc : c.IsOneLine) : Stays free [c.line] :=
  fun _ header hheader => ⟨header, hheader, passes_comment hc⟩

/-! ## Whole statements -/

/-- A text that is one statement or construct with its semicolon, wherever it stands and
however far it is moved to the right. -/
structure Stands (free : Bool) (t : Text) : Prop where
  /-- A semicolon ends the text. -/
  last : t.getLast? = some ';'
  /-- The scan ends a statement with the last row. -/
  finishes : ∀ depth header, (header = true → free = true) →
    Finishes depth 0 ⟨depth, false, header⟩ (rows t)

namespace Stands

variable {free : Bool} {t : Text}

/-- **The extent of a statement is its length**, whatever follows it. -/
theorem extent? (h : Stands free t) (u : Text) : extent? (t ++ u) = some t.length := by
  have hscan := (h.finishes 0 false fun h => nomatch h).extentFrom h.last (show Opens none from rfl) u 0
  rw [Nat.zero_add] at hscan
  exact hscan

/-- Inside a construct a statement leaves the nesting as it is. -/
theorem stays (h : Stands free t) : Stays free (rows t) := fun depth header hheader =>
  ⟨false, (fun h => nomatch h), (h.finishes (depth + 1) header hheader).passes⟩

/-- A statement may be taken for one that is not free. -/
theorem mono (h : Stands true t) : Stands free t :=
  ⟨h.last, fun depth header _ => h.finishes depth header fun _ => rfl⟩

end Stands

/-- A statement of one line with a comment behind it. -/
theorem Stands.stays_remark {free : Bool} {x : Text} {comment : Option Comment} (h : Stands free x)
    (hx : IsRow x) (hcomment : ∀ c ∈ comment, c.IsOneLine) :
    Stays free (rows (x ++ remark comment)) := by
  have hremark : IsRow (x ++ remark comment) := isRow_remark hx hcomment
  refine fun depth header hheader => ⟨false, (fun h => nomatch h), ?_⟩
  rw [hremark.rows_eq]
  refine .single hremark fun position before u hbefore hu => ?_
  have hlast : lastOr before x = some ';' := by
    rw [lastOr, h.last]
    rfl
  have hscan := (h.finishes (depth + 1) header hheader).extentFrom h.last hbefore
    (remark comment ++ u) position
  rw [List.append_assoc, hscan, ended, if_neg (Nat.succ_ne_zero depth),
    extentFrom_remark (fun c hc => (hcomment c hc).1) hu, List.length_append, lastOr_append,
    Nat.add_assoc, hlast]

/-- Tokens of one line that leave the nesting as it is, and a semicolon. -/
theorem stands_tokens {free : Bool} {ts : List Token} (hts : IsPhrase ts)
    (hrow : IsRow (render ts ++ [';']))
    (hafter : ∀ depth header, (header = true → free = true) → ∃ header',
      Nesting.after ⟨depth, false, header⟩ ts = some ⟨depth, false, header'⟩) :
    Stands free (render ts ++ [';']) := by
  have hlast : (render ts ++ [';']).getLast? = some ';' := by simp
  refine ⟨hlast, fun depth header hheader => ?_⟩
  obtain ⟨header', hafter⟩ := hafter depth header hheader
  rw [hrow.rows_eq]
  refine .last hrow hlast fun position before u hbefore => ?_
  have hfit : FitAll before ts (';' :: u).head? := hts _ _ hbefore rfl
  rw [List.append_assoc, List.singleton_append, extentFrom_render hfit hafter,
    extentFrom_semicolon_ended, List.length_append, List.length_singleton, Nat.add_assoc]

/-! ## Constructs -/

/-- The last row of a construct. -/
theorem finishes_closing {depth : Nat} {header : Bool} {k : Text} {ks : List Text} (hk : IsRun k)
    (hks : ∀ v ∈ ks, IsRun v ∧ structureWords.contains (fold v) = false) :
    Finishes depth 0 ⟨depth + 1, false, header⟩ ["end".toList ++ clauseEnd (k :: ks)] := by
  have hlast : ("end".toList ++ clauseEnd (k :: ks)).getLast? = some ';' := by
    rw [clauseEnd, ← List.append_assoc, List.getLast?_concat]
  have hruns : ∀ v ∈ k :: ks, IsRun v := List.forall_mem_cons.2 ⟨hk, fun v hv => (hks v hv).1⟩
  refine .last ⟨isLine_closing hruns, by simp⟩ hlast fun position before u hbefore => ?_
  rw [List.append_assoc, extentFrom_closing hk hks hbefore.ident, List.length_append]
  rfl

/-- A text on new lines stands behind one of its own. -/
theorem rows_append_of_atLineEnd (a : Text) {b : Text} (hb : AtLineEnd b) :
    rows (a ++ b) = rows a ++ rows b := by
  obtain rfl | ⟨v, rfl⟩ := hb.cases
  · rw [List.append_nil, rows_nil, List.append_nil]
  · rw [rows_append, rows_newline]

/-- A head, what stands on the lines after it, and a closing clause. -/
def framed (head inner : Text) (ks : List Text) : Text :=
  head ++ (inner ++ '\n' :: ("end".toList ++ clauseEnd ks))

/-- A construct is made of lines. -/
theorem isLined_framed {head inner : Text} {ks : List Text} (hhead : IsLine head) (hinner : IsTail inner)
    (hks : ∀ k ∈ ks, IsRun k) : IsLined (framed head inner ks) :=
  hhead.isLined.append_tail (hinner.append (isLine_closing hks).isLined.tail)

/-- A head that opens a construct, an interior, and a closing clause. -/
theorem stands_construct {free free' : Bool} {head inner k : Text} {ks : List Text}
    (hrow : IsRow head)
    (hhead : ∀ depth header, (header = true → free = true) →
      Passes 0 ⟨depth, false, header⟩ [head] 0 ⟨depth + 1, false, false⟩)
    (hline : AtLineEnd inner) (hinner : Stays free' (rows inner)) (hk : IsRun k)
    (hks : ∀ v ∈ ks, IsRun v ∧ structureWords.contains (fold v) = false) :
    Stands free (framed head inner (k :: ks)) := by
  have hruns : ∀ v ∈ k :: ks, IsRun v := List.forall_mem_cons.2 ⟨hk, fun v hv => (hks v hv).1⟩
  have hclosing : IsRow ("end".toList ++ clauseEnd (k :: ks)) := ⟨isLine_closing hruns, by simp⟩
  refine ⟨?_, fun depth header hheader => ?_⟩
  · simp only [framed, clauseEnd, ← List.append_assoc, ← List.cons_append, List.getLast?_concat]
  · obtain ⟨header', -, hpass⟩ := hinner depth false fun hheader => absurd hheader Bool.false_ne_true
    rw [framed, rows_append_of_atLineEnd head (hline.append (atLineEnd_newline _)), rows_append,
      hrow.rows_eq, hclosing.rows_eq]
    exact .after (hhead depth header hheader) (.after hpass (finishes_closing hk hks))

end CanonicalVhdl
