import CanonicalVhdl.Concurrent.Read
import CanonicalVhdl.Proofs.Extent.Concurrent
import CanonicalVhdl.Proofs.Room.Lines

/-!
# Concurrent assignments that read back

A chain of values with conditions is cut at the words `when` and `else` outside
parentheses, all of which are found before any part is read.  No part holds such a word
outside its own parentheses, so the places of the words are those where they were printed.

## Main definitions

* `ConditionalWaveform.cuts`, `ConditionalWaveform.parts` — the places of the words of a
  chain, and the texts between them.
* `Waveform.ReadsBack`, `ConcurrentStatement.ReadsBack` — the parts of an assignment read
  back, and it is not too long.

## Main statements

* `ConditionalWaveform.keywords_text` — the words that are found in a chain.
* `ConditionalWaveform.read_text` — a chain is read from its text.
* `ConcurrentStatement.ReadsBack.read_text` — an assignment is read from its text.
* `labelled?_text`, `labelled?_eq_none` — statements with and without a label.
-/

namespace CanonicalVhdl

open Text Token

/-! ## Labels -/

/-- A label and a colon before a text. -/
theorem labelled?_text (label : Ident) {r : Text} (hr : r.head?.any isBlank = false) :
    labelled? (label.text ++ ':' :: ' ' :: r) = some (label, r) := by
  have hrun := label.isRun
  have hstart : trimStart (label.text ++ ':' :: ' ' :: r) = label.text ++ ':' :: ' ' :: r := by
    refine trimStart_eq_self ?_
    rw [List.head?_append_of_ne_nil _ hrun.ne_nil]
    exact hrun.trimmed.head
  have hrest : trimStart (' ' :: r) = r := by
    have := trimStart_append (g := [' ']) rfl r
    rwa [List.singleton_append, trimStart_eq_self hr] at this
  rw [labelled?, hstart, splitOnce_append (hrun.not_mem (by decide))]
  simp only [List.head?_cons, trimEnd_eq_self hrun.trimmed.last, label.ofText?_text, hrest,
    Option.bind_eq_bind, Option.bind_some]
  rfl

/-- What stands before the first colon is no name, if something else is found before it. -/
theorem labelled?_eq_none {a r : Text} {c : Char} (hblank : isBlank c = false) (hcolon : c ≠ ':')
    (ha : ':' ∉ a) (hhead : (a ++ c :: r).head?.any isBlank = false)
    (hident : (a ++ [c]).all isIdentChar = false) : labelled? (a ++ c :: r) = none := by
  have hac : ∀ d ∈ a ++ [c], (d != ':') = true := by
    intro d hd
    rw [bne_iff_ne]
    rintro rfl
    rcases List.mem_append.1 hd with hd | hd
    · exact ha hd
    · exact hcolon (List.mem_singleton.1 hd).symm
  rw [labelled?, trimStart_eq_self hhead]
  cases hsplit : splitOnce ':' (a ++ c :: r) with
  | none => rfl
  | some parts =>
    obtain ⟨label, rest⟩ := parts
    have hlabel : label = a ++ c :: r.takeWhile (· != ':') := by
      rw [(eq_of_splitOnce hsplit).2, List.append_cons, List.takeWhile_append_of_pos hac,
        List.append_assoc, List.singleton_append]
    obtain ⟨q, hq⟩ := trimEnd_append_cons hblank a (r.takeWhile (· != ':'))
    obtain ⟨d, hd, hdident⟩ : ∃ d ∈ a ++ [c], isIdentChar d = false := by
      simpa only [Bool.not_eq_true] using List.all_eq_false.1 hident
    have hmem : d ∈ trimEnd label := by
      rw [hlabel, hq, List.append_cons]
      exact List.mem_append_left q hd
    simp only [Option.bind_eq_bind, Option.bind_some, Ident.ofText?_eq_none hmem hdident,
      Option.bind_none, ite_self]

/-! ## Chains of values -/

namespace ConditionalWaveform

/-- The words that divide a chain. -/
def dividers : List Text := ["when".toList, "else".toList]

theorem isPattern_dividers : ∀ p ∈ dividers, IsPattern p := by
  have key : ∀ p ∈ dividers, IsName p := by decide
  exact fun p hp => isPattern_word (key p hp)

/-- The words of a chain are found where one of its dividers stands outside. -/
theorem keywords_eq_hitsFrom (t : Text) :
    keywords t = (hitsFrom dividers 0 0 none t).map fun hit => (hit.1, hit.2 == 0) := by
  have hfirst : ∀ p : CodePoint, firstHit? dividers p.before p.rest
      = if matchesAt "when".toList p then some 0
        else if matchesAt "else".toList p then some 1 else none := by
    intro p
    rw [firstHit?, dividers, List.findIdx?_cons, List.findIdx?_cons, List.findIdx?_nil,
      ← matchesAt_eq_standsAt, ← matchesAt_eq_standsAt]
    cases matchesAt "when".toList p <;> cases matchesAt "else".toList p <;> rfl
  rw [keywords, outerPoints, codePoints, hitsFrom, List.filterMap_filter, List.map_filterMap]
  refine List.filterMap_congr fun p _ => ?_
  rw [hfirst]
  cases p.depth == 0 <;> cases matchesAt "when".toList p <;> cases matchesAt "else".toList p <;> rfl

/-- The tokens of a chain. -/
def tokens : ConditionalWaveform → List Token
  | value e => e.tokens
  | choose v c rest => v.tokens ++ (spaced "when".toList ++ (c.tokens
      ++ (spaced "else".toList ++ rest.tokens)))

/-- The places of the words of a chain, and which words they are; `start` characters
precede the chain. -/
def cuts (start : Nat) : ConditionalWaveform → List (Nat × Nat)
  | value _ => []
  | choose v c rest =>
    let i := start + v.text.length + 1
    let j := i + 5 + c.text.length + 1
    (i, 0) :: (j, 1) :: rest.cuts (j + 5)

/-- The texts between the words of a chain, with padding before the first. -/
def parts (g : Text) : ConditionalWaveform → List Text
  | value e => [g ++ e.text]
  | choose v c rest => (g ++ (v.text ++ [' '])) :: (' ' :: (c.text ++ [' '])) :: rest.parts [' ']

theorem text_choose (v c : Expr) (rest : ConditionalWaveform) :
    (choose v c rest).text = v.text ++ ' ' :: ("when".toList ++ ' ' :: (c.text
      ++ ' ' :: ("else".toList ++ ' ' :: rest.text))) := by
  have hwhen : " when ".toList = ' ' :: ("when".toList ++ [' ']) := rfl
  have helse : " else ".toList = ' ' :: ("else".toList ++ [' ']) := rfl
  rw [text, hwhen, helse]
  simp only [List.append_assoc, List.cons_append, List.nil_append]

theorem render_tokens (chain : ConditionalWaveform) : render chain.tokens = chain.text := by
  induction chain with
  | value e => exact e.render_tokens
  | choose v c rest ih =>
    rw [text_choose, tokens]
    simp [Expr.render_tokens, ih]

variable {room : Nat} {chain : ConditionalWaveform}

theorem Readable.isPhrase (h : chain.Readable room) : IsPhrase chain.tokens := by
  induction chain with
  | value e => exact Expr.ReadsBack.isPhrase h
  | choose v c rest ih =>
    obtain ⟨hv, hc, hrest⟩ := h
    exact hv.isPhrase.spaced (hc.isPhrase.spaced (ih hrest) (by decide)) (by decide)

theorem Readable.solid (h : chain.Readable room) : Solid chain.text := by
  induction chain with
  | value e => exact Expr.ReadsBack.solid h
  | choose v c rest ih =>
    obtain ⟨hv, -, hrest⟩ := h
    have := hv.solid.between (ih hrest) (' ' :: ("when".toList ++ ' ' :: (c.text
      ++ ' ' :: ("else".toList ++ [' ']))))
    rw [text_choose]
    simpa using this

/-- An expression holds no word of a chain. -/
theorem hits_expr {e : Expr} (h : e.ReadsBack room) (position : Nat) :
    hits dividers position e.tokens = [] := by
  have hlacks : ∀ p ∈ dividers, Lacks p e.tokens := by
    have key : ∀ p ∈ dividers, p ∈ statementWords := by decide
    exact fun p hp => lacks_of_isCalm (isForeign_words p (key p hp)) h.isCalm
  have hnone : ∀ t ∈ e.tokens, t.hit? dividers = none := fun t ht =>
    List.findIdx?_eq_none_iff.2 fun p hp => hlacks p hp t ht
  clear hlacks
  generalize e.tokens = ts at hnone
  induction ts generalizing position with
  | nil => rfl
  | cons t ts ih =>
    rw [hits, hnone t List.mem_cons_self, ih _ fun t ht => hnone t (List.mem_cons_of_mem _ ht)]
    rfl

/-- The words that stand in the tokens of a chain. -/
theorem hits_tokens (h : chain.Readable room) (start : Nat) :
    hits dividers start chain.tokens = chain.cuts start := by
  induction chain generalizing start with
  | value e => exact hits_expr h start
  | choose v c rest ih =>
    obtain ⟨hv, hc, hrest⟩ := h
    have hwhen : ∀ position, hits dividers position (spaced "when".toList) = [(position + 1, 0)] :=
      fun _ => rfl
    have helse : ∀ position, hits dividers position (spaced "else".toList) = [(position + 1, 1)] :=
      fun _ => rfl
    have hlengths : (render (spaced "when".toList)).length = 6
        ∧ (render (spaced "else".toList)).length = 6 := by decide
    rw [tokens, hits_append, hits_append, hits_append, hits_append, hits_expr hv, hits_expr hc, hwhen,
      helse, ih hrest, cuts, hlengths.1, hlengths.2, v.render_tokens, c.render_tokens]
    rfl

/-- The words that are found in a chain. -/
theorem keywords_text (h : chain.Readable room) :
    keywords chain.text = (chain.cuts 0).map fun hit => (hit.1, hit.2 == 0) := by
  have hfound := hitsFrom_render (u := []) isPattern_dividers (h.isPhrase none none rfl rfl) 0
  rw [List.append_nil, chain.render_tokens, hits_tokens h] at hfound
  have hend : ∀ position before, hitsFrom dividers position 0 before [] = [] := fun _ _ => rfl
  rw [keywords_eq_hitsFrom, hfound, hend, List.append_nil]

theorem alternates_cuts (chain : ConditionalWaveform) (start : Nat) :
    alternates ((chain.cuts start).map fun hit => (hit.1, hit.2 == 0)) = true := by
  induction chain generalizing start with
  | value e => rfl
  | choose v c rest ih => exact ih _

/-- Cutting at the words of a chain leaves its parts. -/
theorem segments_text (chain : ConditionalWaveform) (g : Text) (start : Nat) :
    segments start (g ++ chain.text) ((chain.cuts (start + g.length)).map (·.1)) = chain.parts g := by
  induction chain generalizing g start with
  | value e => rfl
  | choose v c rest ih =>
    have hsegment : ∀ (a w u : Text) (position : Nat) (cuts : List Nat), w.length = 4 →
        segments position (a ++ (w ++ u)) ((position + a.length) :: cuts)
          = a :: segments (position + a.length + 4) u cuts := by
      intro a w u position cuts hw
      have hdrop : (a ++ (w ++ u)).drop (position + a.length + 4 - position) = u := by
        rw [← List.append_assoc]
        exact List.drop_left' (by rw [List.length_append, hw]; omega)
      rw [segments, Nat.add_sub_cancel_left, List.take_left, hdrop]
    have hsplit : g ++ (choose v c rest).text
        = (g ++ (v.text ++ [' '])) ++ ("when".toList ++ ((' ' :: (c.text ++ [' ']))
          ++ ("else".toList ++ ([' '] ++ rest.text)))) := by
      rw [text_choose]
      simp only [List.append_assoc, List.cons_append, List.nil_append]
    have hfirst := hsegment (g ++ (v.text ++ [' '])) "when".toList ((' ' :: (c.text ++ [' ']))
      ++ ("else".toList ++ ([' '] ++ rest.text))) start
    have hsecond := hsegment (' ' :: (c.text ++ [' '])) "else".toList ([' '] ++ rest.text)
      (start + (g ++ (v.text ++ [' '])).length + 4)
    have hrest := ih [' '] (start + (g ++ (v.text ++ [' '])).length + 4
      + (' ' :: (c.text ++ [' '])).length + 4)
    have hi : start + g.length + v.text.length + 1 = start + (g ++ (v.text ++ [' '])).length := by
      simp only [List.length_append, List.length_cons, List.length_nil]
      omega
    have hj : start + (g ++ (v.text ++ [' '])).length + 5 + c.text.length + 1
        = start + (g ++ (v.text ++ [' '])).length + 4 + (' ' :: (c.text ++ [' '])).length := by
      simp only [List.length_append, List.length_cons, List.length_nil]
      omega
    have hk : start + (g ++ (v.text ++ [' '])).length + 4 + (' ' :: (c.text ++ [' '])).length + 5
        = start + (g ++ (v.text ++ [' '])).length + 4 + (' ' :: (c.text ++ [' '])).length + 4
          + [' '].length := rfl
    simp only [cuts, List.map_cons, hi, hj]
    rw [hsplit, hfirst _ rfl, hsecond _ rfl, hk, hrest, parts]

/-- The parts of a chain read back, whatever padding stands before the first. -/
theorem readParts_parts (h : chain.Readable room) {g : Text} (hg : IsPad g) :
    readParts room (chain.parts g) = some chain := by
  induction chain generalizing g with
  | value e =>
    have he := Expr.ReadsBack.reads h g [] hg isPad_nil
    rw [List.append_nil] at he
    rw [parts, readParts, he, Option.map_some]
  | choose v c rest ih =>
    obtain ⟨hv, hc, hrest⟩ := h
    have hv := hv.reads g [' '] hg isPad_blank
    have hc := hc.reads [' '] [' '] isPad_blank isPad_blank
    have hne : rest.parts [' '] ≠ [] := by cases rest <;> exact List.cons_ne_nil _ _
    obtain ⟨p, ps, hparts⟩ := List.exists_cons_of_ne_nil hne
    have hrest := ih hrest isPad_blank
    rw [List.singleton_append] at hc
    simp only [parts, readParts, hv, hc, hrest, Option.bind_eq_bind, Option.bind_some]

/-- **A chain is read from its text**, whatever the padding around it. -/
theorem reads_text (h : chain.Readable room) (hfits : fits Limits.statementBytes chain.text = true) :
    Reads (ConditionalWaveform.read room) chain.text chain := by
  intro g g' hg hg'
  have hcode := h.isPhrase.withoutComments_pad hg hg'
  have hsegments := segments_text chain [] 0
  have hpositions : ((chain.cuts 0).map fun hit => (hit.1, hit.2 == 0)).map (·.1)
      = (chain.cuts 0).map (·.1) := by
    rw [List.map_map]
    rfl
  rw [chain.render_tokens] at hcode
  rw [List.nil_append, List.length_nil, Nat.add_zero] at hsegments
  simp only [ConditionalWaveform.read, hcode, h.solid.trim_pad hg hg', hfits, keywords_text h,
    alternates_cuts, hpositions, hsegments, Bool.not_true, Bool.or_self, Bool.false_eq_true, if_false]
  exact readParts_parts h isPad_nil

end ConditionalWaveform

/-! ## Values -/

/-- Whether the value of an assignment reads back; a chain has at least one condition. -/
def Waveform.ReadsBack (room : Nat) : Waveform → Prop
  | plain e => e.ReadsBack room
  | conditional (.choose v c rest) => (ConditionalWaveform.choose v c rest).Readable room
  | conditional (.value _) => False

namespace Waveform

variable {room : Nat} {w : Waveform}

theorem ReadsBack.readable (h : w.ReadsBack room) : w.Readable room := by
  cases w with
  | plain e => exact h
  | conditional chain =>
    cases chain with
    | value e => cases h
    | choose v c rest => exact h

/-- The chain that a value is read as. -/
def chain : Waveform → ConditionalWaveform
  | plain e => .value e
  | conditional chain => chain

theorem text_chain (w : Waveform) : w.chain.text = w.text := by
  cases w <;> rfl

theorem Readable.chain (h : w.Readable room) : w.chain.Readable room := by
  cases w <;> exact h

/-- **A value is read from its text**, whatever the padding around it. -/
theorem ReadsBack.reads (h : w.ReadsBack room) (hfits : fits Limits.statementBytes w.text = true) :
    Reads (Waveform.read room) w.text w := by
  intro g g' hg hg'
  have hread := ConditionalWaveform.reads_text h.readable.chain (by rwa [w.text_chain]) g g' hg hg'
  rw [w.text_chain] at hread
  rw [Waveform.read, hread, Option.map_some]
  cases w with
  | plain e => rfl
  | conditional chain =>
    cases chain with
    | value e => cases h
    | choose v c rest => rfl

end Waveform

/-! ## Statements -/

/-- The mark that follows a reference in an assignment is the first character outside it. -/
theorem Reference.exists_mark {room : Nat} {r : Reference} (h : r.ReadsBack room) (u : Text) :
    ∃ (n : Ident) (a b : Text) (c : Char), r.text ++ ' ' :: '<' :: u = n.text ++ (a ++ c :: b)
      ∧ ':' ∉ n.text ++ a ∧ isBlank c = false ∧ c ≠ ':' ∧ isIdentChar c = false
      ∧ (a ++ c :: b).head?.any isIdentChar = false := by
  cases r with
  | name n =>
    refine ⟨n, [' '], u, '<', rfl, ?_, by decide, by decide, by decide, rfl⟩
    rw [List.mem_append, not_or]
    exact ⟨n.isRun.not_mem (by decide), by decide⟩
  | member n m =>
    refine ⟨n, [], m.text ++ ' ' :: '<' :: u, '.', by simp [Reference.text], ?_, by decide, by decide,
      by decide, rfl⟩
    rw [List.append_nil]
    exact n.isRun.not_mem (by decide)
  | indexed n i =>
    refine ⟨n, [], i.text ++ ')' :: ' ' :: '<' :: u, '(', by simp [Reference.text], ?_, by decide,
      by decide, by decide, rfl⟩
    rw [List.append_nil]
    exact n.isRun.not_mem (by decide)
  | attributeOf n d =>
    refine ⟨n, [], d ++ ' ' :: '<' :: u, '\'', by simp [Reference.text], ?_, by decide, by decide,
      by decide, rfl⟩
    rw [List.append_nil]
    exact n.isRun.not_mem (by decide)

/-- Whether the parts of a simple statement read back, and it is not too long. -/
inductive ConcurrentStatement.ReadsBack (room : Nat) : ConcurrentStatement → Prop
  | assignment {target : Reference} {value : Waveform} : target.ReadsBack room →
    value.ReadsBack room →
    fits Limits.statementBytes (ConcurrentStatement.assignment target value).text = true →
    ReadsBack room (.assignment target value)
  | comment {c : Comment} : IsCommentText c.text → ReadsBack room (.comment c)

namespace ConcurrentStatement

variable {room : Nat} {s : ConcurrentStatement} {target : Reference} {value : Waveform}

theorem ReadsBack.readable (h : s.ReadsBack room) : s.Readable room := by
  cases h with
  | assignment htarget hvalue _ => exact ⟨htarget, hvalue.readable⟩
  | comment hc => exact ⟨hc.newline_not_mem, hc.return_not_mem⟩

theorem text_assignment (target : Reference) (value : Waveform) :
    (assignment target value).text
      = target.text ++ ' ' :: ("<=".toList ++ ' ' :: value.text) ++ [';'] := by
  have hsymbol : " <= ".toList = ' ' :: ("<=".toList ++ [' ']) := rfl
  rw [text, hsymbol]
  simp only [List.append_assoc, List.cons_append, List.nil_append]

/-- The tokens of an assignment, its semicolon aside. -/
def tokens (target : Reference) (value : Waveform) : List Token :=
  target.tokens ++ (spaced "<=".toList ++ value.chain.tokens)

theorem render_tokens (target : Reference) (value : Waveform) :
    render (tokens target value ++ [mark ';']) = (assignment target value).text := by
  rw [text_assignment, tokens]
  simp [Reference.render_tokens, ConditionalWaveform.render_tokens, Waveform.text_chain]

section Assignment

variable (htarget : target.ReadsBack room)
include htarget

theorem solid_assignment (value : Waveform) : Solid (assignment target value).text := by
  rw [text_assignment, List.append_assoc]
  exact htarget.solid.between (solid_singleton (by decide)) _

/-- An assignment has no label, and is no process. -/
theorem labelled?_assignment (value : Waveform) : labelled? (assignment target value).text = none
    ∧ startsWith "process".toList (assignment target value).text = false := by
  obtain ⟨n, a, b, c, hsplit, hcolon, hblank, hne, hident, hhead⟩ :=
    Reference.exists_mark htarget ('=' :: ' ' :: (value.text ++ [';']))
  have htext : (assignment target value).text = n.text ++ (a ++ c :: b) := by
    rw [text_assignment, ← hsplit]
    simp
  have hstart := (solid_assignment htarget value).head
  rw [htext] at hstart ⊢
  constructor
  · rw [← List.append_assoc] at hstart ⊢
    refine labelled?_eq_none hblank hne hcolon hstart ?_
    rw [List.all_append, List.all_cons, hident, Bool.false_and, Bool.and_false]
  · have hprocess : IsRun "process".toList := by decide
    have := startsWith_run (g := []) rfl hprocess n.isRun hhead
    rw [List.nil_append] at this
    rw [this, sameWord_comm]
    exact n.sameWord_eq_false (by decide +kernel)

theorem isPhrase_tokens (hvalue : value.ReadsBack room) : IsPhrase (tokens target value) :=
  htarget.isPhrase.spaced hvalue.readable.chain.isPhrase (by decide)

/-- **An assignment is read from its text.** -/
theorem read_assignment (hvalue : value.ReadsBack room)
    (hfits : fits Limits.statementBytes (assignment target value).text = true) :
    ConcurrentStatement.read room (assignment target value).text = some (assignment target value) := by
  have hsolid := solid_assignment htarget value
  have hstands : Stands true (assignment target value).text :=
    Readable.stands (s := assignment target value) ⟨htarget, hvalue.readable⟩ rfl
  have hcode : withoutComments (assignment target value).text = (assignment target value).text := by
    have hfit : FitAll none (tokens target value ++ [mark ';']) none :=
      fitAll_append.2 ⟨isPhrase_tokens htarget hvalue _ _ rfl rfl, fits_separator (by decide), trivial⟩
    have := withoutComments_render hfit
    rwa [render_tokens] at this
  have hcomment : Comment.read (assignment target value).text = none := by
    obtain ⟨n, ts, htokens⟩ := target.exists_tokens
    obtain ⟨c, r, hn⟩ := List.exists_cons_of_ne_nil n.isRun.ne_nil
    have hne : c ≠ '-' := by
      rintro rfl
      have := List.all_eq_true.1 n.isRun.ident '-' (by rw [hn]; exact List.mem_cons_self)
      exact absurd this (by decide)
    have hhead : ∃ u, (assignment target value).text = c :: u := by
      rw [text_assignment, ← target.render_tokens, htokens, render_cons, text_word, hn]
      exact ⟨_, rfl⟩
    obtain ⟨u, hu⟩ := hhead
    rw [Comment.read, trim_eq_self hsolid.toTrimmed, hfits, hu]
    simp [hne]
  have hconstruct : isConstruct (assignment target value).text = true := by
    have := hstands.extent? []
    rw [List.append_nil] at this
    simp [isConstruct, this]
  have hcut := cutOuter?_spaced (s := "<=".toList) (.inr (by decide)) (by decide) htarget.isPhrase
    (target.lacks_assignment .signal) value.text
  have hinfix : value.text <:+: (assignment target value).text := by
    rw [text_assignment]
    exact ⟨target.text ++ ' ' :: ("<=".toList ++ [' ']), [';'], by simp⟩
  have htarget := htarget.reads [] [' '] isPad_nil isPad_blank
  have hvalue := hvalue.reads (fits_of_isInfix hfits hinfix) [' '] [] isPad_blank isPad_nil
  rw [target.render_tokens] at hcut
  rw [List.nil_append] at htarget
  rw [List.append_nil, List.singleton_append] at hvalue
  have hfinal : dropFinal? ';' (assignment target value).text
      = some (target.text ++ ' ' :: ("<=".toList ++ ' ' :: value.text)) := by
    rw [text_assignment]
    exact dropFinal?_append ';' _
  simp only [ConcurrentStatement.read, trim_eq_self hsolid.toTrimmed, hfits, hcomment, hcode, hconstruct,
    hfinal, hcut, htarget, hvalue, Bool.not_true, Bool.false_eq_true, if_false, Option.bind_eq_bind,
    Option.bind_some]

end Assignment

end ConcurrentStatement
end CanonicalVhdl
