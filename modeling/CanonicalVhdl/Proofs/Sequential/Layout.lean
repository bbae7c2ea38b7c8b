import CanonicalVhdl.Proofs.Region.Header
import CanonicalVhdl.Proofs.Sequential.Choice
import CanonicalVhdl.Proofs.Statement.ReadBack

/-!
# The layout of sequential code

The body of a construct stands in a block, each of its elements on lines of its own.
Moved to the right, a block stays a block.

## Main definitions

* `Sequential.block k s` — the elements of `s` with `k` steps of indentation.
* `Sequential.IsRegion room s` — code that a reader with some room gives back.
* `Sequential.finalBranch` — the last branch of a conditional statement.

## Main statements

* `Sequential.IsElement.isLaid` — every element is one piece of a region, at every
  depth of indentation.
-/

namespace CanonicalVhdl

open Text Token

namespace Sequential

/-! ## Elements and pieces -/

theorem texts_eq (es : List Sequential) : texts es = es.map text := by
  induction es with
  | nil => rfl
  | cons e es ih => rw [texts, ih, List.map_cons]

/-- The text of sequential code is made of the texts of its elements. -/
theorem text_eq_join (s : Sequential) : s.text = join ['\n'] (s.elements.map text) := by
  have hsingle : ∀ e : Sequential, e.text = join ['\n'] ([e].map text) := fun e => by simp [join]
  cases s with
  | region es =>
    have htext : (region es).text = join ['\n'] (texts es) := rfl
    rw [htext, texts_eq, elements]
  | _ => exact hsingle _

/-- What an element is in a region with `k` steps of indentation. -/
def piece (k : Nat) : Sequential → Piece
  | simple s => s.piece
  | compound => .code (shift k compound.text) none

/-- Whether a comment ends the last line of the code. -/
def endsWithComment (s : Sequential) : Bool :=
  (s.elements.getLast?.map (piece 0)).any Piece.endsLine

theorem endsLine_piece (k : Nat) (e : Sequential) : (e.piece k).endsLine = (e.piece 0).endsLine := by
  cases e <;> rfl

/-- The last branch of a conditional statement. -/
def finalBranch : Sequential → Sequential
  | conditional _ body none => body
  | conditional _ _ (some (conditional condition body otherwise)) =>
    finalBranch (conditional condition body otherwise)
  | conditional _ _ (some other) => other
  | code => code

theorem finalBranch_other {condition : Expr} {body s : Sequential} (h : s.isConditional = false) :
    (conditional condition body (some s)).finalBranch = s := by
  cases s with
  | conditional => cases h
  | _ => rfl

/-- Whether an element is one piece of a region, at every depth of indentation. -/
abbrev IsLaid (e : Sequential) : Prop :=
  Laid true (piece · e) e.text

/-! ## Blocks -/

/-- The elements of some code, each on lines of its own, with `k` steps of indentation. -/
def block (k : Nat) (s : Sequential) : Text :=
  blockOf text k s.elements

/-- Whether every element of some code is one piece of a region. -/
def IsBlock (s : Sequential) : Prop :=
  ∀ e ∈ s.elements, e.IsLaid

namespace IsBlock

variable {s : Sequential}

theorem forall₂_shows (h : s.IsBlock) (k : Nat) :
    List.Forall₂ (Shows true) (s.elements.map (piece k)) (s.elements.map fun e => shift k e.text) :=
  forall₂_shows_block h k

theorem lined (h : s.IsBlock) : s.text = [] ∨ IsLined s.text := by
  rw [text_eq_join]
  exact isLined_block h

/-- A nested block, moved to the right. -/
theorem shift_nested (h : s.IsBlock) (k : Nat) :
    shift k (nested s.text) = block (k + 1) s := by
  rw [text_eq_join]
  exact shift_nested_block h k

theorem region (h : s.IsBlock) (k : Nat) {g : Text} (hg : IsPad g) (hline : AtLineEnd g) :
    Region true (s.elements.map (piece k)) (block k s ++ g) :=
  region_block h k hg hline

theorem isInterior (h : s.IsBlock) (k : Nat) : IsInterior true s.endsWithComment (block k s) := by
  have hends : (s.elements.getLast?.map (piece k)).any Piece.endsLine = s.endsWithComment := by
    rw [endsWithComment]
    cases s.elements.getLast? with
    | none => rfl
    | some e => exact endsLine_piece k e
  rw [← hends]
  exact isInterior_block h k

theorem atLineEnd (s : Sequential) (k : Nat) {u : Text} (hu : AtLineEnd u) :
    AtLineEnd (block k s ++ u) :=
  atLineEnd_stack k _ hu

theorem solid (h : s.IsBlock) (k : Nat) {x : Text} (hx : Solid x) : Solid (x ++ block k s) :=
  solid_block h k hx

end IsBlock

/-! ## Code that reads back -/

mutual

/-- Code that a reader with some room gives back as a region. -/
inductive IsRegion : Nat → Sequential → Prop
  | single {room : Nat} {e : Sequential} : IsElement room e → IsRegion (room + 1) e
  | several {room : Nat} {es : List Sequential} : es.length ≠ 1 → (∀ e ∈ es, IsElement room e) →
    IsRegion (room + 1) (.region es)

/-- Code that a reader with some room gives back as one element of a region. -/
inductive IsElement : Nat → Sequential → Prop
  | simple {room : Nat} {s : Statement} : s.ReadsBack room → IsElement room (.simple s)
  | conditional {room : Nat} {condition : Expr} {body : Sequential} {otherwise : Option Sequential} :
    condition.ReadsBack room → IsRegion room body → IsAlternative room otherwise →
    (otherwise.any isConditional = true →
      (Sequential.conditional condition body otherwise).finalBranch.endsWithComment = false) →
    IsElement (room + 1) (.conditional condition body otherwise)
  | selection {room : Nat} {selector : Expr} {branches : List Branch} :
    selector.ReadsBack room → branches ≠ [] →
    (∀ choice body, Branch.mk choice body ∈ branches → choice.ReadsBack room) →
    (∀ choice body, Branch.mk choice body ∈ branches → IsRegion room body) →
    IsElement (room + 1) (.selection selector branches)
  | loop {room : Nat} {parameter : Ident} {range : Range} {body : Sequential} :
    range.ReadsBack room → IsRegion room body → IsElement (room + 1) (.loop parameter range body)

/-- What a reader with some room gives back as the rest of a conditional statement. -/
inductive IsAlternative : Nat → Option Sequential → Prop
  | none {room : Nat} : IsAlternative room none
  | elsif {room : Nat} {condition : Expr} {body : Sequential} {otherwise : Option Sequential} :
    IsElement room (.conditional condition body otherwise) →
    IsAlternative room (some (.conditional condition body otherwise))
  | other {room : Nat} {s : Sequential} : s.isConditional = false → IsRegion room s →
    IsAlternative room (some s)

end

/-! ## Texts of compound statements -/

section Texts

variable {condition : Expr} {body : Sequential} {otherwise : Option Sequential}

theorem text_conditional :
    (conditional condition body otherwise).text
      = construct "if".toList [' '] condition.text "then".toList
        (nested body.text ++ alternativeText otherwise) (lineBreak 0) ["if".toList] := by
  have hif : "if ".toList = "if".toList ++ [' '] := rfl
  have hthen : " then".toList = ' ' :: "then".toList := rfl
  have hend : "\nend if;".toList = lineBreak 0 ++ ("end".toList ++ clauseEnd ["if".toList]) := rfl
  have htext : (conditional condition body otherwise).text = "if ".toList ++ condition.text
      ++ " then".toList ++ nested body.text ++ alternativeText otherwise ++ "\nend if;".toList := rfl
  rw [htext, hif, hthen, hend, construct]
  simp only [List.append_assoc]

theorem alternativeText_elsif :
    alternativeText (some (.conditional condition body otherwise))
      = lineBreak 0 ++ ("elsif".toList ++ ([' '] ++ (condition.text ++ ' ' :: "then".toList)))
        ++ (nested body.text ++ alternativeText otherwise) := by
  have helsif : "\nelsif ".toList = lineBreak 0 ++ ("elsif".toList ++ [' ']) := rfl
  have hthen : " then".toList = ' ' :: "then".toList := rfl
  have htext : alternativeText (some (.conditional condition body otherwise))
      = "\nelsif ".toList ++ condition.text ++ " then".toList ++ nested body.text
        ++ alternativeText otherwise := rfl
  rw [htext, helsif, hthen]
  simp only [List.append_assoc]

theorem alternativeText_other {s : Sequential} (h : s.isConditional = false) :
    alternativeText (some s) = lineBreak 0 ++ "else".toList ++ nested s.text := by
  have helse : "\nelse".toList = lineBreak 0 ++ "else".toList := rfl
  rw [← helse]
  cases s with
  | conditional => cases h
  | _ => rfl

theorem text_loop {parameter : Ident} {range : Range} :
    (loop parameter range body).text
      = construct "for".toList [' '] (parameter.text ++ ' ' :: ("in".toList ++ ' ' :: range.text))
        "loop".toList (nested body.text) (lineBreak 0) ["loop".toList] := by
  have hfor : "for ".toList = "for".toList ++ [' '] := rfl
  have hin : " in ".toList = ' ' :: ("in".toList ++ [' ']) := rfl
  have hloop : " loop".toList = ' ' :: "loop".toList := rfl
  have hend : "\nend loop;".toList = lineBreak 0 ++ ("end".toList ++ clauseEnd ["loop".toList]) := rfl
  have htext : (loop parameter range body).text = "for ".toList ++ parameter.text ++ " in ".toList
      ++ range.text ++ " loop".toList ++ nested body.text ++ "\nend loop;".toList := rfl
  rw [htext, hfor, hin, hloop, hend, construct]
  simp only [List.append_assoc, List.cons_append, List.nil_append]

theorem text_selection {selector : Expr} {branches : List Branch} :
    (selection selector branches).text
      = construct "case".toList [' '] selector.text "is".toList
        (nested (join ['\n'] (branches.map Branch.text))) (lineBreak 0) ["case".toList] := by
  have hcase : "case ".toList = "case".toList ++ [' '] := rfl
  have his : " is".toList = ' ' :: "is".toList := rfl
  have hend : "\nend case;".toList = lineBreak 0 ++ ("end".toList ++ clauseEnd ["case".toList]) := rfl
  have htexts : Branch.texts branches = branches.map Branch.text := by
    induction branches with
    | nil => rfl
    | cons b bs ih => rw [Branch.texts, ih, List.map_cons]
  have htext : (selection selector branches).text = "case ".toList ++ selector.text ++ " is".toList
      ++ nested (join ['\n'] (Branch.texts branches)) ++ "\nend case;".toList := rfl
  rw [htext, hcase, his, hend, htexts, construct]
  simp only [List.append_assoc]

end Texts

/-! ## Alternatives -/

/-- What follows the body of a conditional statement, with `k` steps of indentation. -/
def rest (k : Nat) (otherwise : Option Sequential) : Text :=
  shift k (alternativeText otherwise)

section Alternatives

variable {condition : Expr} {body : Sequential} {otherwise : Option Sequential}

theorem rest_none (k : Nat) : rest k none = [] := rfl

theorem rest_elsif (hc : '\n' ∉ condition.text) (hb : body.IsBlock) (k : Nat) :
    rest k (some (.conditional condition body otherwise))
      = lineBreak k ++ ("elsif".toList ++ ([' '] ++ (condition.text ++ ' ' :: "then".toList)))
        ++ (block (k + 1) body ++ rest k otherwise) := by
  have hheader : '\n' ∉ "elsif".toList ++ ([' '] ++ (condition.text ++ ' ' :: "then".toList)) := by
    simp only [List.mem_append, List.mem_cons, List.not_mem_nil, not_or, or_false]
    exact ⟨by decide, by decide, hc, by decide, by decide⟩
  rw [rest, alternativeText_elsif, shift_append, shift_append, shift_lineBreak, shift_of_not_mem hheader,
    shift_append, hb.shift_nested, Nat.add_zero, rest]

theorem rest_other {s : Sequential} (h : s.isConditional = false) (hs : s.IsBlock) (k : Nat) :
    rest k (some s) = lineBreak k ++ "else".toList ++ block (k + 1) s := by
  have helse : shift k "else".toList = "else".toList := shift_of_not_mem (by decide) k
  rw [rest, alternativeText_other h, shift_append, shift_append, shift_lineBreak, helse,
    hs.shift_nested, Nat.add_zero]

/-- What follows the bodies of a conditional statement is made of lines. -/
structure IsLaidRest (body : Sequential) (otherwise : Option Sequential) : Prop where
  /-- The text has no empty lines. -/
  tail : IsTail (alternativeText otherwise)
  /-- The text ends without a blank. -/
  solid : ∀ k {x}, Solid x → Solid (x ++ rest k otherwise)
  /-- After the body and the rest the same constructs are open as before. -/
  interior : ∀ condition k, IsInterior true
    (conditional condition body otherwise).finalBranch.endsWithComment
    (block (k + 1) body ++ rest k otherwise)

theorem isLaidRest_none (hb : body.IsBlock) : IsLaidRest body none where
  tail := .inl rfl
  solid k x hx := by rwa [rest_none, List.append_nil]
  interior condition k := by
    rw [rest_none, List.append_nil]
    exact hb.isInterior (k + 1)

theorem solid_elsif (condition : Expr) :
    Solid ("elsif".toList ++ ([' '] ++ (condition.text ++ ' ' :: "then".toList))) := by
  have helsif : IsRun "elsif".toList := by decide
  have hthen : IsRun "then".toList := by decide
  have := helsif.solid.between hthen.solid ([' '] ++ (condition.text ++ [' ']))
  simpa using this

/-- A header with the words of an alternative leaves the nesting as it is. -/
theorem after_elsif {room : Nat} (hc : condition.ReadsBack room) (depth : Nat) (header : Bool) :
    Nesting.after ⟨depth + 1, false, header⟩
        (Token.header "elsif".toList [' '] condition.tokens "then".toList)
      = some ⟨depth + 1, false, false⟩ :=
  have hopen : Nesting.token ⟨depth + 1, false, header⟩ (word "elsif".toList)
      = some ⟨depth + 1, false, true⟩ := rfl
  Nesting.after_header hopen rfl isPad_blank hc.isInert rfl

theorem isLaidRest_elsif {room : Nat} (hbody : body.IsBlock) (hc : condition.ReadsBack room)
    {inner : Sequential} (hb : inner.IsBlock) (ho : IsLaidRest inner otherwise) :
    IsLaidRest body (some (.conditional condition inner otherwise)) where
  tail := by
    have hheader : IsLine ("elsif".toList ++ ([' '] ++ (condition.text ++ ' ' :: "then".toList))) := by
      refine isLine_of_solid (solid_elsif condition) ?_
      simp only [List.mem_append, List.mem_cons, List.not_mem_nil, not_or, or_false]
      exact ⟨by decide, by decide, hc.newline_not_mem, by decide, by decide⟩
    rw [alternativeText_elsif]
    exact hheader.isLined.tail.append ((isTail_nested hb.lined).append ho.tail)
  solid k x hx := by
    have hblock := hb.solid (k + 1) (hx.between (solid_elsif condition) (lineBreak k))
    rw [rest_elsif hc.newline_not_mem hb]
    simpa only [List.append_assoc] using ho.solid k hblock
  interior outer k := by
    have hwords : IsName "elsif".toList ∧ IsName "then".toList :=
      by decide
    have hphrase := isPhrase_header hc.isPhrase hwords.1 isPad_blank (List.cons_ne_nil _ _) hwords.2
    have hheader : IsInterior true false (lineBreak k
        ++ ("elsif".toList ++ ([' '] ++ (condition.text ++ ' ' :: "then".toList)))) := by
      rw [← condition.render_tokens, ← render_header]
      exact isInterior_tokens (isPad_lineBreak k) (atLineEnd_lineBreak k []) (List.cons_ne_nil _ _)
        (fun _ _ hopens hcloses _ => hphrase _ _ hopens hcloses)
        (fun depth header _ => ⟨false, fun h => absurd h (by decide), after_elsif hc depth header⟩)
    have hrest := hheader.append (ho.interior condition k) fun _ h => absurd h (by decide)
    rw [rest_elsif hc.newline_not_mem hb]
    refine (hbody.isInterior (k + 1)).append hrest fun hnil => ?_
    cases hnil

theorem isLaidRest_other {s : Sequential} (hbody : body.IsBlock) (h : s.isConditional = false)
    (hs : s.IsBlock) : IsLaidRest body (some s) where
  tail := by
    have helse : IsLine "else".toList := ⟨by decide, by decide, by decide⟩
    rw [alternativeText_other h]
    exact helse.isLined.tail.append (isTail_nested hs.lined)
  solid k x hx := by
    have helse : IsRun "else".toList := by decide
    rw [rest_other h hs]
    simpa only [List.append_assoc] using hs.solid (k + 1) (hx.between helse.solid (lineBreak k))
  interior outer k := by
    have hheader : IsInterior true false (lineBreak k ++ "else".toList) := by
      have htokens : "else".toList = render [word "else".toList] := by decide
      have hphrase : IsPhrase [word "else".toList] := isPhrase_word (by decide)
      rw [htokens]
      exact isInterior_tokens (isPad_lineBreak k) (atLineEnd_lineBreak k []) (List.cons_ne_nil _ _)
        (fun _ _ hopens hcloses _ => hphrase _ _ hopens hcloses)
        (fun depth header _ => ⟨true, fun _ => rfl, rfl⟩)
    have hrest := hheader.append (hs.isInterior (k + 1)) fun _ h => absurd h (by decide)
    rw [rest_other h hs, finalBranch_other h]
    refine (hbody.isInterior (k + 1)).append hrest fun hnil => ?_
    cases hnil

end Alternatives

/-! ## Constructs -/

theorem isStatement_conditional {room : Nat} {condition : Expr} {body : Sequential}
    {otherwise : Option Sequential} (hc : condition.ReadsBack room) (ho : IsLaidRest body otherwise)
    (k : Nat) {g g' : Text} (hg : IsPad g) (hne : g ≠ []) (hg' : IsPad g') (hne' : g' ≠ [])
    (hline : (conditional condition body otherwise).finalBranch.endsWithComment = true → AtLineEnd g') :
    IsStatement true (construct "if".toList g condition.text "then".toList
      (block (k + 1) body ++ rest k otherwise) g' ["if".toList]) := by
  rw [← condition.render_tokens]
  refine isStatement_headed hc.isPhrase (by decide) (by decide) hg hne
    (by decide) (fun depth header _ => ?_) (ho.interior condition k) hg' hne' hline
    (by decide) (fun _ h => absurd h List.not_mem_nil)
  have hopen : Nesting.token ⟨depth, false, header⟩ (word "if".toList)
      = some ⟨depth + 1, false, true⟩ := rfl
  exact Nesting.after_header hopen rfl hg hc.isInert rfl

theorem shift_conditional {room : Nat} {condition : Expr} {body : Sequential}
    {otherwise : Option Sequential} (hc : condition.ReadsBack room) (hb : body.IsBlock) (k : Nat) :
    shift k (conditional condition body otherwise).text
      = construct "if".toList [' '] condition.text "then".toList
        (block (k + 1) body ++ rest k otherwise) (lineBreak k) ["if".toList] := by
  rw [text_conditional, shift_construct (by decide) hc.newline_not_mem (by decide) (by decide),
    shift_append, hb.shift_nested, rest]

theorem isLaid_conditional {room : Nat} {condition : Expr} {body : Sequential}
    {otherwise : Option Sequential} (hc : condition.ReadsBack room) (hb : body.IsBlock)
    (ho : IsLaidRest body otherwise) : (conditional condition body otherwise).IsLaid where
  lined := by
    rw [text_conditional]
    exact isLined_construct (by decide) hc.newline_not_mem (by decide)
      ((isTail_nested hb.lined).append ho.tail) (by decide)
  shows k := by
    have hpiece : (conditional condition body otherwise).piece k
        = .code (shift k (conditional condition body otherwise).text) none := rfl
    rw [hpiece, shift_conditional hc hb]
    exact .code (isStatement_conditional hc ho k isPad_blank (List.cons_ne_nil _ _)
      (isPad_lineBreak k) (List.cons_ne_nil _ _) fun _ => atLineEnd_lineBreak k [])

/-- The tokens between the words of a loop's header. -/
def loopTokens (parameter : Ident) (range : Range) : List Token :=
  [word parameter.text] ++ (spaced "in".toList ++ range.tokens)

theorem render_loopTokens (parameter : Ident) (range : Range) :
    render (loopTokens parameter range)
      = parameter.text ++ ' ' :: ("in".toList ++ ' ' :: range.text) := by
  rw [loopTokens, render_append, render_append, render_spaced, range.render_tokens, render_cons,
    render_nil, text_word, List.append_nil, List.cons_append, List.append_assoc,
    List.singleton_append]

section Loop

variable {room : Nat} {parameter : Ident} {range : Range} {body : Sequential}

theorem isPhrase_loopTokens (hr : range.ReadsBack room) : IsPhrase (loopTokens parameter range) :=
  (isPhrase_word parameter.isName).spaced hr.isPhrase (by decide)

theorem isInert_loopTokens (hr : range.ReadsBack room) :
    ∀ t ∈ loopTokens parameter range, Nesting.isInert t = true := by
  intro t ht
  rcases List.mem_append.1 ht with ht | ht
  · rw [List.mem_singleton.1 ht, Nesting.isInert, parameter.not_mem_structureWords]
    rfl
  · rcases List.mem_append.1 ht with ht | ht
    · exact isInert_spaced (fun _ => by decide) t ht
    · exact range.isInert hr.designators t ht

theorem newline_not_mem_loop (hr : range.ReadsBack room) :
    '\n' ∉ parameter.text ++ ' ' :: ("in".toList ++ ' ' :: range.text) := by
  simp only [List.mem_append, List.mem_cons, not_or]
  exact ⟨parameter.isRun.newline_not_mem, by decide, by decide, by decide, hr.newline_not_mem⟩

theorem shift_loop (hr : range.ReadsBack room) (hb : body.IsBlock) (k : Nat) :
    shift k (loop parameter range body).text
      = construct "for".toList [' '] (parameter.text ++ ' ' :: ("in".toList ++ ' ' :: range.text))
        "loop".toList (block (k + 1) body) (lineBreak k) ["loop".toList] := by
  rw [text_loop, shift_construct (by decide) (newline_not_mem_loop hr) (by decide) (by decide),
    hb.shift_nested]

theorem isStatement_loop (hr : range.ReadsBack room) (hb : body.IsBlock) (k : Nat) :
    IsStatement true (shift k (loop parameter range body).text) := by
  rw [shift_loop hr hb, ← render_loopTokens]
  refine isStatement_headed (isPhrase_loopTokens hr) (by decide) (by decide) isPad_blank
    (List.cons_ne_nil _ _) (by decide) (fun depth header _ => ?_) (hb.isInterior (k + 1))
    (isPad_lineBreak k) (List.cons_ne_nil _ _) (fun _ => atLineEnd_lineBreak k []) (by decide)
    (fun _ h => absurd h List.not_mem_nil)
  have hfor : Nesting.token ⟨depth, false, header⟩ (word "for".toList) = some ⟨depth, false, header⟩ :=
    rfl
  exact Nesting.after_header hfor rfl isPad_blank (isInert_loopTokens hr) rfl

theorem isLaid_loop (hr : range.ReadsBack room) (hb : body.IsBlock) :
    (loop parameter range body).IsLaid where
  lined := by
    rw [text_loop]
    exact isLined_construct (by decide) (newline_not_mem_loop hr) (by decide) (isTail_nested hb.lined)
      (by decide)
  shows k := .code (isStatement_loop hr hb k)

end Loop

end Sequential

/-! ## Branches of `case` statements -/

namespace Branch

variable {room : Nat} {choice : Choice} {body : Sequential}

/-- The tokens of the head of a branch. -/
def headTokens (choice : Choice) : List Token :=
  word "when".toList :: mark ' ' :: (choice.tokens ++ [mark ' ', symbol "=>".toList])

/-- The head of a branch. -/
def head (choice : Choice) : Text :=
  "when".toList ++ ' ' :: (choice.text ++ ' ' :: "=>".toList)

theorem render_headTokens (hc : choice.ReadsBack room) : render (headTokens choice) = head choice := by
  simp only [headTokens, head, render_cons, text_word, text_mark, render_append, text_symbol,
    render_nil, hc.render_tokens, List.cons_append, List.nil_append, List.append_nil]

/-- The arrow after a choice needs a blank or a line end after it. -/
theorem fitAll_arrow (hc : choice.ReadsBack room) {before next : Option Char} (hb : Opens before)
    (hn : next.all isAsciiBlank = true) :
    FitAll before (choice.tokens ++ [mark ' ', symbol "=>".toList]) next :=
  fitAll_append.2 ⟨hc.isPhrase _ _ hb rfl, fits_blank, ⟨by decide, hn⟩, trivial⟩

theorem fitAll_headTokens (hc : choice.ReadsBack room) {before next : Option Char}
    (hb : Opens before) (hn : next.all isAsciiBlank = true) : FitAll before (headTokens choice) next := by
  have hwhen : IsName "when".toList := by decide
  exact ⟨hwhen.fits hb.ident rfl, fits_blank, fitAll_arrow hc rfl hn⟩

theorem isInert_headTokens (hc : choice.ReadsBack room) :
    ∀ t ∈ headTokens choice, Nesting.isInert t = true := by
  intro t ht
  simp only [headTokens, List.mem_cons, List.mem_append, List.not_mem_nil, or_false] at ht
  rcases ht with rfl | rfl | ht | rfl | rfl
  · decide
  · rfl
  · exact hc.isInert t ht
  · rfl
  · rfl

theorem newline_not_mem_head (hc : choice.ReadsBack room) : '\n' ∉ head choice := by
  simp only [head, List.mem_append, List.mem_cons, not_or]
  exact ⟨by decide, by decide, hc.newline_not_mem, by decide, by decide⟩

theorem solid_head (choice : Choice) : Solid (head choice) := by
  have hwhen : IsRun "when".toList := by decide
  have harrow : Solid "=>".toList := solid_of_forall (by decide) (by decide)
  have := hwhen.solid.between harrow (' ' :: (choice.text ++ [' ']))
  simpa [head] using this

theorem text_eq : (Branch.mk choice body).text = head choice ++ nested body.text := by
  have hwhen : "when ".toList = "when".toList ++ [' '] := rfl
  have harrow : " =>".toList = ' ' :: "=>".toList := rfl
  have htext : (Branch.mk choice body).text
      = "when ".toList ++ choice.text ++ " =>".toList ++ nested body.text := rfl
  rw [htext, hwhen, harrow, head]
  simp only [List.append_assoc, List.cons_append, List.nil_append]

/-- Whether the choice of a branch reads back and its body is a block. -/
def IsLaid (room : Nat) : Branch → Prop
  | .mk choice body => choice.ReadsBack room ∧ body.IsBlock

/-- A branch with `k` steps of indentation. -/
def block (k : Nat) : Branch → Text
  | .mk choice body => head choice ++ Sequential.block (k + 1) body

theorem IsLaid.isLined_text {b : Branch} (h : b.IsLaid room) : IsLined b.text := by
  obtain ⟨choice, body⟩ := b
  rw [text_eq]
  exact (isLine_of_solid (solid_head choice) (newline_not_mem_head h.1)).isLined.append_tail
    (isTail_nested h.2.lined)

theorem IsLaid.shift_text {b : Branch} (h : b.IsLaid room) (k : Nat) : shift k b.text = b.block k := by
  obtain ⟨choice, body⟩ := b
  rw [text_eq, shift_append, shift_of_not_mem (newline_not_mem_head h.1), h.2.shift_nested, block]

/-- Branches, moved to the right. -/
theorem shift_nested {bs : List Branch} (h : ∀ b ∈ bs, b.IsLaid room) (k : Nat) :
    shift k (nested (join ['\n'] (bs.map Branch.text))) = stack (k + 1) (bs.map (block (k + 1))) := by
  rw [CanonicalVhdl.shift_nested fun x hx => ?_, List.map_map]
  · congr 1
    exact List.map_congr_left fun b hb => (h b hb).shift_text (k + 1)
  · obtain ⟨b, hb, rfl⟩ := List.mem_map.1 hx
    exact (h b hb).isLined_text

/-- After the branches of a `case` statement the same constructs are open as before. -/
theorem isInterior_stack {bs : List Branch} (h : ∀ b ∈ bs, b.IsLaid room) (k : Nat) :
    IsInterior true true (stack k (bs.map (block k))) := by
  induction bs with
  | nil => exact isInterior_nil.mono fun h => absurd h (by decide)
  | cons b bs ih =>
    obtain ⟨choice, body⟩ := b
    obtain ⟨hc, hb⟩ := h _ List.mem_cons_self
    have hhead : IsInterior true true (lineBreak k ++ head choice) := by
      rw [← render_headTokens hc]
      refine isInterior_tokens (isPad_lineBreak k) (atLineEnd_lineBreak k []) (List.cons_ne_nil _ _)
        (fun _ u hopens _ hline => fitAll_headTokens hc hopens ?_)
        (fun depth header hheader => ⟨header, hheader,
          Nesting.after_eq_self rfl (isInert_headTokens hc)⟩)
      obtain rfl | ⟨v, rfl⟩ := (hline rfl).cases <;> rfl
    have hbody : IsInterior true true (Sequential.block (k + 1) body) :=
      (hb.isInterior (k + 1)).mono fun _ => rfl
    have := (hhead.append hbody fun _ _ => rfl).append
      (ih fun b hb => h b (List.mem_cons_of_mem _ hb)) fun _ _ => rfl
    rw [List.map_cons, stack_cons, block]
    simpa only [List.append_assoc] using this

end Branch

namespace Sequential

section Selection

variable {room : Nat} {selector : Expr} {branches : List Branch}

theorem shift_selection (hs : selector.ReadsBack room) (hb : ∀ b ∈ branches, b.IsLaid room) (k : Nat) :
    shift k (selection selector branches).text
      = construct "case".toList [' '] selector.text "is".toList
        (stack (k + 1) (branches.map (Branch.block (k + 1)))) (lineBreak k) ["case".toList] := by
  rw [text_selection, shift_construct (by decide) hs.newline_not_mem (by decide) (by decide),
    Branch.shift_nested hb]

theorem isStatement_selection (hs : selector.ReadsBack room) (hb : ∀ b ∈ branches, b.IsLaid room)
    (k : Nat) : IsStatement true (shift k (selection selector branches).text) := by
  rw [shift_selection hs hb, ← selector.render_tokens]
  refine isStatement_headed hs.isPhrase (by decide) (by decide) isPad_blank (List.cons_ne_nil _ _)
    (by decide) (fun depth header _ => ?_) (Branch.isInterior_stack hb (k + 1)) (isPad_lineBreak k)
    (List.cons_ne_nil _ _) (fun _ => atLineEnd_lineBreak k []) (by decide)
    (fun _ h => absurd h List.not_mem_nil)
  have hcase : Nesting.token ⟨depth, false, header⟩ (word "case".toList)
      = some ⟨depth + 1, false, true⟩ := rfl
  exact Nesting.after_header hcase rfl isPad_blank hs.isInert rfl

theorem isLaid_selection (hs : selector.ReadsBack room) (hb : ∀ b ∈ branches, b.IsLaid room) :
    (selection selector branches).IsLaid where
  lined := by
    have htail : branches.map Branch.text = [] ∨ IsLined (join ['\n'] (branches.map Branch.text)) := by
      by_cases hnil : branches = []
      · exact .inl (by rw [hnil]; rfl)
      · refine .inr (isLined_join (by simpa using hnil) fun x hx => ?_)
        obtain ⟨b, hb', rfl⟩ := List.mem_map.1 hx
        exact (hb b hb').isLined_text
    rw [text_selection]
    refine isLined_construct (by decide) hs.newline_not_mem (by decide) (isTail_nested ?_) (by decide)
    rcases htail with htail | htail
    · exact .inl (by rw [htail]; rfl)
    · exact .inr htail
  shows k := .code (isStatement_selection hs hb k)

end Selection

/-! ## Every element is laid -/

theorem isLaid_simple {room : Nat} {s : Statement} (h : s.ReadsBack room) : (simple s).IsLaid :=
  .of_line h.shows h.newline_not_mem

theorem IsElement.elements {room : Nat} {e : Sequential} (h : IsElement room e) :
    e.elements = [e] := by
  cases h <;> rfl

/-- Elements, regions and alternatives that read back are laid out in pieces. -/
theorem isLaid_all (room : Nat) :
    (∀ e, IsElement room e → e.IsLaid) ∧ (∀ s, IsRegion room s → s.IsBlock) ∧
      ∀ body otherwise, body.IsBlock → IsAlternative room otherwise → IsLaidRest body otherwise := by
  induction room with
  | zero =>
    refine ⟨fun e he => ?_, fun s hs => ?_, fun body otherwise hbody ho => ?_⟩
    · cases he with
      | simple h => exact isLaid_simple h
    · cases hs
    · cases ho with
      | none => exact isLaidRest_none hbody
      | elsif h => cases h
      | other _ h => cases h
  | succ room ih =>
    obtain ⟨helement, hregion, hrest⟩ := ih
    have hregion' : ∀ s, IsRegion (room + 1) s → s.IsBlock := by
      intro s hs
      cases hs with
      | single he =>
        rw [IsBlock, he.elements]
        simpa using helement _ he
      | several _ hes => exact fun e he => helement e (hes e he)
    refine ⟨fun e he => ?_, hregion', fun body otherwise hbody ho => ?_⟩
    · cases he with
      | simple h => exact isLaid_simple h
      | conditional hc hb ho _ =>
        exact isLaid_conditional hc (hregion _ hb) (hrest _ _ (hregion _ hb) ho)
      | selection hs _ hchoices hbodies =>
        refine isLaid_selection hs fun b hb => ?_
        obtain ⟨choice, body⟩ := b
        exact ⟨hchoices choice body hb, hregion body (hbodies choice body hb)⟩
      | loop hr hb => exact isLaid_loop hr (hregion _ hb)
    · cases ho with
      | none => exact isLaidRest_none hbody
      | elsif h =>
        cases h with
        | conditional hc hb ho _ =>
          exact isLaidRest_elsif hbody hc (hregion _ hb) (hrest _ _ (hregion _ hb) ho)
      | other h hs => exact isLaidRest_other hbody h (hregion' _ hs)

theorem IsElement.isLaid {room : Nat} {e : Sequential} (h : IsElement room e) : e.IsLaid :=
  (isLaid_all room).1 e h

theorem IsRegion.isBlock {room : Nat} {s : Sequential} (h : IsRegion room s) : s.IsBlock :=
  (isLaid_all room).2.1 s h

theorem IsAlternative.isLaidRest {room : Nat} {body : Sequential} {otherwise : Option Sequential}
    (h : IsAlternative room otherwise) (hb : body.IsBlock) : IsLaidRest body otherwise :=
  (isLaid_all room).2.2 body otherwise hb h

end Sequential
end CanonicalVhdl
