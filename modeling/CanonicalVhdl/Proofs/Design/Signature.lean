import CanonicalVhdl.Proofs.Concurrent.Layout
import CanonicalVhdl.Proofs.Design.Interface

/-!
# Signatures read back

The parameters of a function are cut apart at the semicolons between them.  A type starts with
no mode, so nothing before it is taken for one.  A signature is no function with a body, as
nothing in it reads as the word `is`.

## Main definitions

* `Signature.ReadsBack` — the types of a signature read back and its parameters are distinct.

## Main statements

* `Signature.ReadsBack.read_text` — a signature is read from its text.
* `Signature.ReadsBack.readBody_text` — it is not read as a function with a body.
-/

namespace CanonicalVhdl

open Text Token

variable {room : Nat}

/-! ## Parameters -/

namespace Parameter

variable {p : Parameter}

/-- The tokens of a parameter. -/
def tokens (p : Parameter) : List Token :=
  word p.name.text :: mark ':' :: mark ' ' :: p.type.tokens

theorem render_tokens (p : Parameter) : render p.tokens = p.text := by
  have hcolon : ": ".toList = [':', ' '] := rfl
  simp [tokens, text, hcolon, TypeMark.render_tokens]

/-- Nothing at the head of a type is taken for a mode. -/
theorem afterMode?_type (type : TypeMark) {g : Text} (hg : IsPad g) :
    afterMode? (type.text ++ g) = some (type.text ++ g) := by
  obtain ⟨w, ts, htokens, hw, hmode, hnext⟩ := type.exists_tokens
  have hblank : g.head?.all isSeparator = true := by
    cases g with
    | nil => rfl
    | cons c g =>
      have hseparator : isSeparator ' ' = true ∧ isSeparator '\n' = true := by decide
      rcases hg c List.mem_cons_self with rfl | rfl
      · exact hseparator.1
      · exact hseparator.2
  have hend : (render ts ++ g).head?.all isSeparator = true := by
    cases hrest : render ts with
    | nil => exact hblank
    | cons c r =>
      rw [hrest] at hnext
      exact hnext
  have htext : type.text ++ g = w ++ (render ts ++ g) := by
    rw [← type.render_tokens, htokens, render_cons, text_word, List.append_assoc]
  have hread : Mode.read w = none := by
    simp only [Mode.read, List.find?_eq_none]
    intro m _
    rw [trim_eq_self hw.isRun.trimmed, hmode m]
    decide
  rw [afterMode?, htext, firstWord?_run hw.isRun hend, Option.bind_some, hread]

/-- A parameter is read from its text, whatever padding stands around it. -/
theorem reads_text (h : p.type.ReadsBack room) : Reads (Parameter.read room) p.text p := by
  intro g g' hg hg'
  have hcolon : ": ".toList = [':', ' '] := rfl
  have htext : g ++ (p.text ++ g') = (g ++ p.name.text) ++ ':' :: (' ' :: (p.type.text ++ g')) := by
    simp [text, hcolon]
  have hconstant : afterWord? "constant".toList ((g ++ p.name.text) ++ ':' :: (' ' :: (p.type.text ++ g')))
      = none := by
    rw [afterWord?_run hg.all_isBlank (by decide) p.name.isRun rfl, sameWord_comm,
      p.name.sameWord_eq_false (by decide +kernel)]
    rfl
  have hsplit : splitOnce ':' ((g ++ p.name.text) ++ ':' :: (' ' :: (p.type.text ++ g')))
      = some (g ++ p.name.text, ' ' :: (p.type.text ++ g')) := by
    refine splitOnce_append ?_ _
    rw [List.mem_append, not_or]
    refine ⟨fun hmem => ?_, p.name.isRun.not_mem (by decide)⟩
    rcases hg _ hmem with hc | hc <;> exact absurd hc (by decide)
  have hstart : trimStart (' ' :: (p.type.text ++ g')) = p.type.text ++ g' :=
    trimStart_blank (h.solid.head_append g')
  have htrim : trim (g ++ p.name.text) = p.name.text := by
    have := p.name.isRun.solid.trim_pad hg isPad_nil
    rwa [List.append_nil] at this
  have htype : TypeMark.read room (p.type.text ++ g') = some p.type := h.reads [] g' isPad_nil hg'
  rw [htext, Parameter.read]
  simp only [hconstant, Option.getD_none, hsplit, hstart, afterMode?_type p.type hg', htrim,
    p.name.ofText?_text, htype, Option.bind_eq_bind, Option.bind_some]

end Parameter

/-! ## Signatures -/

namespace Signature

/-- Whether the types of a signature read back, its parameters are distinct, and it is not too long. -/
structure ReadsBack (room : Nat) (s : Signature) : Prop where
  /-- No two parameters have the same name. -/
  distinct : Ident.distinct (s.parameters.map (·.name)) = true
  /-- The types of the parameters read back. -/
  parameters : ∀ p ∈ s.parameters, p.type.ReadsBack room
  /-- The type of the result reads back. -/
  result : s.result.ReadsBack room
  /-- The signature is not too long. -/
  fits : Text.fits Limits.statementBytes s.text = true

variable {s : Signature}

theorem ReadsBack.readable (h : s.ReadsBack room) : s.Readable room := ⟨h.parameters, h.result⟩

/-- A signature is one statement, wherever it stands. -/
theorem ReadsBack.isStatement (h : s.ReadsBack room) : IsStatement true s.text := by
  have htext : s.text = "function".toList ++ ' ' :: (s.afterWord ++ [';']) := by
    rw [text, openText_eq, List.append_assoc, List.cons_append]
  have hstands : Stands true s.text := h.readable.stands
  have := hstands.isStatement ⟨"function".toList, _, htext, by decide, rfl, by decide⟩ 0
  rwa [shift_zero] at this

theorem ReadsBack.newline_not_mem (h : s.ReadsBack room) : '\n' ∉ s.text := by
  simp only [text, openText_eq, List.mem_append, List.mem_cons, List.not_mem_nil, not_or, or_false]
  exact ⟨⟨by decide, by decide, h.readable.isInertText.newline_not_mem⟩, by decide⟩

/-- A signature is a sequence of tokens without the word `is`. -/
theorem ReadsBack.exists_tokens (h : s.ReadsBack room) :
    ∃ ts, s.text = render ts ∧ FitAll none ts none ∧ Lacks "is".toList ts := by
  obtain ⟨⟨us, hrender, hus, hinert⟩, -, -⟩ := h.readable.isInertText
  have hfunction : IsName "function".toList := by decide
  have hfit : FitAll none ((word "function".toList :: mark ' ' :: us) ++ [mark ';']) none :=
    fitAll_append.2 ⟨hus.prefixed hfunction _ _ rfl rfl, fits_separator (by decide), trivial⟩
  refine ⟨_, ?_, hfit, ?_⟩
  · rw [text, openText_eq, ← hrender]
    simp
  · have hlacks := lacks_is (hus none none rfl rfl) hinert
    exact lacks_append.2 ⟨List.forall_mem_cons.2 ⟨by decide, List.forall_mem_cons.2 ⟨by decide, hlacks⟩⟩,
      by decide⟩

/-- The tokens of the parameters, cut apart at the semicolons. -/
def parameterTokens : List Parameter → List (List Token)
  | [] => []
  | p :: ps => p.tokens :: ps.map fun q => mark ' ' :: q.tokens

/-- A mark with a blank behind it, in a list. -/
theorem join_blank (c : Char) (x : Text) (xs : List Text) :
    join [c] (x :: xs.map (' ' :: ·)) = join [c, ' '] (x :: xs) := by
  induction xs generalizing x with
  | nil => simp [join]
  | cons y ys ih =>
    have hfirst : join [c, ' '] ((' ' :: y) :: ys) = ' ' :: join [c, ' '] (y :: ys) := by
      cases ys <;> simp [join]
    have hrest := (ih (' ' :: y)).trans hfirst
    have hleft : join [c] (x :: (' ' :: y) :: ys.map (' ' :: ·))
        = x ++ c :: join [c] ((' ' :: y) :: ys.map (' ' :: ·)) := by
      simp [join]
    have hright : join [c, ' '] (x :: y :: ys) = x ++ c :: ' ' :: join [c, ' '] (y :: ys) := by
      simp [join]
    rw [List.map_cons, hleft, hrest, hright]

theorem render_parameterTokens (ps : List Parameter) :
    render (marked ';' (parameterTokens ps)) = join "; ".toList (ps.map (·.text)) := by
  have hsemicolon : "; ".toList = [';', ' '] := rfl
  rw [render_marked, hsemicolon]
  cases ps with
  | nil => rfl
  | cons p ps =>
    rw [List.map_cons, ← join_blank, parameterTokens, List.map_cons, p.render_tokens, List.map_map,
      List.map_map]
    congr 2
    refine List.map_congr_left fun q _ => ?_
    simp [q.render_tokens]

theorem ReadsBack.isPhrase_parameterTokens (h : s.ReadsBack room) :
    ∀ ts ∈ parameterTokens s.parameters, IsPhrase ts ∧ Lacks [';'] ts := by
  have hparameter : ∀ p ∈ s.parameters, IsPhrase p.tokens ∧ Lacks [';'] p.tokens := by
    intro p hp
    have htype := h.parameters p hp
    refine ⟨htype.isPhrase.labelled p.name.isName, ?_⟩
    have hlacks : Lacks [';'] p.type.tokens := htype.lacks (by decide) (by decide) (by decide) (by decide)
    exact List.forall_mem_cons.2 ⟨rfl, List.forall_mem_cons.2 ⟨rfl, List.forall_mem_cons.2 ⟨rfl, hlacks⟩⟩⟩
  cases hps : s.parameters with
  | nil => exact fun _ h => absurd h List.not_mem_nil
  | cons p ps =>
    rw [hps] at hparameter
    obtain ⟨hp, hrest⟩ := List.forall_mem_cons.1 hparameter
    refine List.forall_mem_cons.2 ⟨hp, List.forall_mem_map.2 fun q hq => ⟨fun before next hb hn => ?_, ?_⟩⟩
    · exact ⟨fits_blank, (hrest q hq).1 _ _ rfl hn⟩
    · exact List.forall_mem_cons.2 ⟨rfl, (hrest q hq).2⟩

/-- The parameters in parentheses are read from the head of a text. -/
theorem ReadsBack.splitParameters?_text (h : s.ReadsBack room) (hne : s.parameters ≠ []) (u : Text) :
    splitParameters? room ('(' :: (join "; ".toList (s.parameters.map (·.text)) ++ [')']) ++ u)
      = some (s.parameters, u) := by
  have htokens := h.isPhrase_parameterTokens
  have hgroup := parenthesised?_group (u := u)
    (isPhrase_marked (.inr rfl) (fun ts hts => (htokens ts hts).1) (some '(') (some ')') rfl rfl)
  have hpieces : parameterTokens s.parameters ≠ [] := by
    obtain ⟨p, ps, hps⟩ := List.exists_cons_of_ne_nil hne
    rw [hps]
    exact List.cons_ne_nil _ _
  have hsplit := splitOuter_marked (.inr rfl) hpieces (fun ts hts => (htokens ts hts).1)
    fun ts hts => (htokens ts hts).2
  have hread : ((parameterTokens s.parameters).map render).mapM (Parameter.read room)
      = some s.parameters := by
    have hreads : ∀ p ∈ s.parameters, Reads (Parameter.read room) p.text p :=
      fun p hp => Parameter.reads_text (h.parameters p hp)
    cases hps : s.parameters with
    | nil => exact absurd hps hne
    | cons p ps =>
      rw [hps] at hreads
      obtain ⟨hp, hrest⟩ := List.forall_mem_cons.1 hreads
      have hmap : (ps.map fun q => mark ' ' :: q.tokens).map render = ps.map (' ' :: ·.text) := by
        rw [List.map_map]
        exact List.map_congr_left fun q _ => by simp [q.render_tokens]
      rw [parameterTokens, List.map_cons, hmap, p.render_tokens, List.mapM_cons, hp.self,
        Text.Reads.mapM hrest]
      rfl
  rw [text_group, render_parameterTokens] at hgroup
  rw [render_parameterTokens] at hsplit
  rw [splitParameters?, if_pos (by rfl), hgroup]
  simp only [hsplit, hread, Option.bind_eq_bind, Option.bind_some]

/-- A signature is read without its semicolon. -/
theorem ReadsBack.readOpen_openText (h : s.ReadsBack room) : readOpen room s.openText = some s := by
  have hend : ∀ c, isIdentChar c = true → (!(isBlank c || c == '(')) = true := by
    intro c hc
    have hparen : c ≠ '(' := by
      rintro rfl
      exact absurd hc (by decide)
    simp [isBlank_eq_false_of_isIdentChar hc, hparen]
  have hreturn : afterWord? "return".toList ("return".toList ++ ' ' :: s.result.text) = some s.result.text :=
    afterWord?_blank (by decide) h.result.solid.head
  have hresult : afterWord? "return".toList (' ' :: ("return".toList ++ ' ' :: s.result.text))
      = some s.result.text := by
    rw [← List.singleton_append, afterWord?_pad (by decide), hreturn]
  have hread := h.result.read_text
  have hname : s.afterWord.head?.any isBlank = false := by
    rw [afterWord, List.append_assoc]
    exact s.name.isRun.solid.head_append _
  have hafter := afterWord?_blank (show IsRun "function".toList by decide) hname
  rw [openText_eq, readOpen, hafter, afterWord]
  by_cases hnil : s.parameters = []
  · have hempty : s.parameters.isEmpty = true := by rw [hnil]; rfl
    have hstart : trimStart (' ' :: ("return".toList ++ ' ' :: s.result.text))
        = "return".toList ++ ' ' :: s.result.text := trimStart_blank rfl
    have hnone : splitParameters? room ("return".toList ++ ' ' :: s.result.text)
        = some (s.parameters, "return".toList ++ ' ' :: s.result.text) := by
      rw [splitParameters?, if_neg (by simp), hnil]
    obtain ⟨htake, hdrop⟩ := s.name.isRun.span hend (u := ' ' :: ("return".toList ++ ' ' :: s.result.text)) rfl
    simp only [hempty, if_true, List.append_nil, htake, hdrop, s.name.ofText?_text, hstart, hnone, hreturn,
      hread, ofParameters?, h.distinct, Option.bind_eq_bind, Option.bind_some]
  · have hempty : s.parameters.isEmpty = false := by simpa using hnil
    have hsplit := h.splitParameters?_text hnil (' ' :: ("return".toList ++ ' ' :: s.result.text))
    generalize hgroup : '(' :: (join "; ".toList (s.parameters.map (·.text)) ++ [')']) = group at hsplit
    have hstart : trimStart (group ++ ' ' :: ("return".toList ++ ' ' :: s.result.text))
        = group ++ ' ' :: ("return".toList ++ ' ' :: s.result.text) := by
      rw [← hgroup]
      exact trimStart_eq_self rfl
    obtain ⟨htake, hdrop⟩ := s.name.isRun.span hend
      (u := group ++ ' ' :: ("return".toList ++ ' ' :: s.result.text)) (by rw [← hgroup]; rfl)
    simp only [hempty, Bool.false_eq_true, if_false, List.append_assoc, htake, hdrop, s.name.ofText?_text, hstart,
      hsplit, hresult, hread, ofParameters?, h.distinct, if_true,
      Option.bind_eq_bind, Option.bind_some]

/-- **A signature is read from its text.** -/
theorem ReadsBack.read_text (h : s.ReadsBack room) : read room s.text = some s := by
  obtain ⟨ts, htext, hfit, -⟩ := h.exists_tokens
  have hcomments : withoutComments s.text = s.text := by
    rw [htext, withoutComments_render hfit]
  have hlast : trimEnd s.openText = s.openText := by
    refine trimEnd_eq_self ?_
    have hsplit : s.openText = ("function".toList ++ ' ' :: (s.name.text ++ if s.parameters.isEmpty then []
        else '(' :: (join "; ".toList (s.parameters.map (·.text)) ++ [')'])) ++ " return ".toList)
          ++ s.result.text := by
      rw [openText_eq, afterWord]
      simp
    rw [hsplit, List.getLast?_append_of_ne_nil _ h.result.solid.ne_nil]
    exact h.result.solid.last
  rw [read, hcomments, trim_eq_self h.isStatement.solid.toTrimmed, h.fits]
  simp only [Bool.not_true, Bool.false_eq_true, if_false, text, dropFinal?_append, Option.bind_some, hlast,
    h.readOpen_openText]

/-- A signature is no function with a body. -/
theorem ReadsBack.readBody_text (h : s.ReadsBack room) : FunctionBody.read room s.text = none := by
  obtain ⟨ts, htext, hfit, hlacks⟩ := h.exists_tokens
  have hcut : cutOuter? "is".toList s.text = none := by
    rw [htext]
    exact cutOuter?_eq_none (isPattern_word (by decide)) hfit hlacks
  have htrim := trim_eq_self h.isStatement.solid.toTrimmed
  cases room with
  | zero => rw [FunctionBody.read, ite_self]
  | succ room =>
    rw [FunctionBody.read]
    simp only [htrim, hcut, Option.bind_eq_bind, Option.bind_none, ite_self]

end Signature
end CanonicalVhdl
