import CanonicalVhdl.Proofs.Settled.Text

/-!
# Expressions that can be read are settled

Quotation marks stand around the values of vectors and ticks around single values or
after names, so that the two never touch.

## Main statements

* `Expr.settled_of_read` — an expression that can be read is settled.
* `Reference.settled_of_read`, `Range.settled_of_read`, `TypeMark.settled_of_read` — and so
  are references, ranges and types.
-/

namespace CanonicalVhdl

open Text

theorem Ident.isBland (i : Ident) : IsBland i.text :=
  isBland_of_ident i.isRun.ident

theorem Ident.isBland_of_ofText? {t : Text} {i : Ident} (h : Ident.ofText? t = some i) :
    IsBland t := by
  rw [← Ident.of_ofText? h]
  exact i.isBland

theorem Ident.settled_of_trim {t : Text} {i : Ident} (h : Ident.ofText? (trim t) = some i) :
    Settled t :=
  (isBland_of_ofText? h).settled.of_trim

theorem Ident.isBland_of_trimEnd {t : Text} {i : Ident} (h : Ident.ofText? (trimEnd t) = some i) :
    IsBland t :=
  (blandEnd_trimEnd t).isBland (isBland_of_ofText? h)

namespace Text

open Phase

/-- A tick before something harmless. -/
theorem settled_tick {t : Text} (h : IsBland t) : Settled ('\'' :: t) :=
  h.settled.isSound_after (p := tick) rfl fun _ => h.head?_ne

/-- A value between ticks. -/
theorem settled_ticked {c : Char} (h : isIdentChar c = true ∨ c = '-') :
    Settled ['\'', c, '\''] := by
  have hc : c ≠ '\'' ∧ c ≠ '"' := by
    constructor <;>
    · rintro rfl
      simp at h
      cases h
  have hvalue : Settled ['\'', c] := settled_tick (isBland_cons hc isBland_nil)
  exact hvalue.append (t := ['\'']) rfl fun _ => by simp

/-- What stands between quotation marks ends on its line. -/
theorem settled_quoted {t body : Text} (h : VectorLiteral.quotedBody? t = some body) :
    Settled ('"' :: t) := by
  have hphase : quoted.after t = code := by
    fun_induction VectorLiteral.quotedBody? t generalizing body with
    | case1 => rfl
    | case2 rest ih =>
      obtain ⟨body, hbody, -⟩ := Option.map_eq_some_iff.1 h
      exact ih hbody
    | case3 => cases h
    | case4 c rest h1 h2 hc ih =>
      obtain ⟨body, hbody, -⟩ := Option.map_eq_some_iff.1 h
      rw [Bool.or_eq_true, beq_iff_eq, beq_iff_eq, not_or] at hc
      rw [after_cons, show quoted.step c = quoted by simp [step, hc.1, hc.2]]
      exact ih hbody
    | case5 => cases h
  rw [Settled, after_cons, show code.step '"' = quoted from rfl, hphase]
  rfl

end Text

section Parts

variable {expr : Text → Option Expr} (hexpr : ∀ u e, expr u = some e → Settled u)

include hexpr

/-! ## Ranges and indices -/

theorem Range.settled_of_readWith {t : Text} {r : Range} (h : Range.readWith expr t = some r) :
    Settled t := by
  have hcut : ∀ (pattern : Text) {i : Nat} {e e' : Expr}, IsBland pattern → pattern ≠ [] →
      outerMatches pattern (trim t) = [i] → expr ((trim t).take i) = some e →
      expr ((trim t).drop (i + pattern.length)) = some e' → Settled t :=
    fun pattern i e e' hpattern hne hmatches he he' =>
      (Settled.of_mem_outerMatches hpattern hne (by rw [hmatches]; exact List.mem_singleton_self i)
        (hexpr _ _ he) (hexpr _ _ he')).of_trim
  simp only [readWith, Option.bind_eq_bind] at h
  obtain ⟨-, h⟩ := Option.ite_none_left_eq_some.1 h
  split at h
  · next i hi =>
    obtain ⟨high, hhigh, h⟩ := Option.bind_eq_some_iff.1 h
    obtain ⟨low, hlow, -⟩ := Option.bind_eq_some_iff.1 h
    exact hcut "downto".toList (by decide) (by decide) hi hhigh hlow
  · split at h
    · next i hi =>
      obtain ⟨low, hlow, h⟩ := Option.bind_eq_some_iff.1 h
      obtain ⟨high, hhigh, -⟩ := Option.bind_eq_some_iff.1 h
      exact hcut "to".toList (by decide) (by decide) hi hlow hhigh
    · cases h
  · cases h

theorem Index.settled_of_readWith {t : Text} {i : Index} (h : Index.readWith expr t = some i) :
    Settled t := by
  refine Settled.of_trim ?_
  simp only [readWith] at h
  split at h
  · next hothers =>
    have hbland : IsBland "others".toList := by decide
    rw [sameWord_comm] at hothers
    exact (hbland.of_sameWord hothers).settled
  · split at h
    · next r hr => exact Range.settled_of_readWith hexpr hr
    · obtain ⟨e, he, -⟩ := Option.map_eq_some_iff.1 h
      exact hexpr _ _ he

/-! ## Literals -/

theorem VectorLiteral.settled_of_readWith {literal : Text → Option Literal}
    (hliteral : ∀ u l, literal u = some l → Settled u) {t : Text} {v : VectorLiteral}
    (h : VectorLiteral.readWith expr literal t = some v) : Settled t := by
  refine Settled.of_trim ?_
  simp only [readWith] at h
  obtain ⟨-, h⟩ := Option.ite_none_left_eq_some.1 h
  split at h
  · next rest hopen =>
    obtain ⟨elements, helements, -⟩ := Option.map_eq_some_iff.1 h
    simp only [readAggregate, Option.bind_eq_bind] at helements
    obtain ⟨⟨inner, after⟩, hgroup, helements⟩ := Option.bind_eq_some_iff.1 helements
    obtain ⟨hafter, helements⟩ := Option.ite_none_left_eq_some.1 helements
    have hnil : after = [] := by simp_all
    subst hnil
    refine Settled.of_parenthesised? (Settled.of_splitOuter (c := ',') (by decide)
      fun piece hpiece => ?_) settled_nil hgroup
    obtain ⟨element, helement⟩ := (mem_mapM helements).1 piece hpiece
    simp only [readElement, Option.bind_eq_bind] at helement
    obtain ⟨⟨index, value⟩, hcut, helement⟩ := Option.bind_eq_some_iff.1 helement
    obtain ⟨i, hi, helement⟩ := Option.bind_eq_some_iff.1 helement
    obtain ⟨l, hl, -⟩ := Option.bind_eq_some_iff.1 helement
    exact Settled.of_cutOuter? (by decide) (by decide) (Index.settled_of_readWith hexpr hi)
      (hliteral _ _ hl) hcut
  · next rest hquote =>
    obtain ⟨body, hbody, -⟩ := Option.bind_eq_some_iff.1 h
    rw [hquote]
    exact settled_quoted hbody
  · rename_i base rest _ hquote
    obtain ⟨-, h⟩ := Option.ite_none_right_eq_some.1 h
    obtain ⟨body, hbody, hbase⟩ := Option.bind_eq_some_iff.1 h
    rw [hquote]
    refine (settled_quoted hbody).cons ?_
    constructor <;>
    · rintro rfl
      cases hbase
  · cases h

theorem Literal.settled_of_readNested {fuel : Nat} :
    ∀ {t : Text} {l : Literal}, Literal.readNested expr fuel t = some l → Settled t := by
  induction fuel with
  | zero => exact fun h => nomatch h
  | succ fuel ih =>
    intro t l h
    refine Settled.of_trim ?_
    simp only [readNested] at h
    obtain ⟨-, h⟩ := Option.ite_none_left_eq_some.1 h
    split at h
    · next c hc =>
      rw [hc]
      exact settled_ticked (Literal.ticked_of_readTicked h)
    · rw [readPlain] at h
      split at h
      · next htrue =>
        have hbland : IsBland "true".toList := by decide
        exact (hbland.of_sameWord ((sameWord_comm _ _).trans htrue)).settled
      · split at h
        · next hfalse =>
          have hbland : IsBland "false".toList := by decide
          exact (hbland.of_sameWord ((sameWord_comm _ _).trans hfalse)).settled
        · split at h
          · next n hn =>
            refine IsBland.settled fun c hc => ⟨?_, ?_⟩ <;>
            · rintro rfl
              rw [Integer64.read_eq_none hc (by decide)] at hn
              cases hn
          · split at h
            · obtain ⟨x, hx, -⟩ := Option.map_eq_some_iff.1 h
              refine IsBland.settled fun c hc => ⟨?_, ?_⟩ <;>
              · rintro rfl
                rw [Real64.read_eq_none_of_mem hc (by decide)] at hx
                cases hx
            · obtain ⟨v, hv, -⟩ := Option.map_eq_some_iff.1 h
              exact VectorLiteral.settled_of_readWith hexpr (fun u l => ih) hv

theorem Literal.settled_of_readWith {t : Text} {l : Literal} (h : Literal.readWith expr t = some l) :
    Settled t :=
  Literal.settled_of_readNested hexpr h

/-! ## References -/

theorem Reference.settled_of_readIndexed {t : Text} {r : Reference} (hopen : '(' ∈ t)
    (hlast : t.getLast? = some ')') (h : Reference.readIndexed expr t = some r) : Settled t := by
  simp only [readIndexed, Option.bind_eq_bind] at h
  obtain ⟨⟨start, stop⟩, -, h⟩ := Option.bind_eq_some_iff.1 h
  obtain ⟨hspan, h⟩ := Option.ite_none_left_eq_some.1 h
  obtain ⟨hstart, hstop⟩ : start = (t.takeWhile (· != '(')).length ∧ stop = t.length := by
    simpa using hspan
  obtain ⟨name, hname, h⟩ := Option.bind_eq_some_iff.1 h
  obtain ⟨index, hindex, -⟩ := Option.bind_eq_some_iff.1 h
  have hbland := Ident.isBland_of_trimEnd hname
  obtain ⟨a, u, hcut⟩ := exists_splitOnce hopen
  obtain ⟨rfl, ha⟩ := eq_of_splitOnce hcut
  rw [← ha] at hbland hstart
  subst hstart hstop
  -- the text ends with the closing parenthesis
  obtain rfl | ⟨v, c, rfl⟩ := List.eq_nil_or_concat' u
  · simp at hlast
  · obtain rfl : c = ')' := by
      rw [← List.cons_append, ← List.append_assoc, List.getLast?_concat] at hlast
      exact Option.some.inj hlast
    have hinner : ((a ++ '(' :: (v ++ [')'])).take ((a ++ '(' :: (v ++ [')'])).length - 1)).drop
        (a.length + 1) = v := by
      have hends : a ++ '(' :: (v ++ [')']) = (a ++ ['(']) ++ v ++ [')'] := by simp
      rw [hends, List.length_append, List.length_singleton, Nat.add_sub_cancel, List.take_left,
        show a.length + 1 = (a ++ ['(']).length by simp, List.drop_left]
    rw [hinner] at hindex
    exact Settled.bland_append
      (((Index.settled_of_readWith hexpr hindex).append_bland (by decide)).cons (by decide)) hbland

theorem Reference.settled_of_readWith {t : Text} {r : Reference}
    (h : Reference.readWith expr t = some r) : Settled t := by
  refine Settled.of_trim ?_
  simp only [readWith] at h
  split at h
  · next n hn => exact (Ident.isBland_of_ofText? hn).settled
  split at h
  · next hlast =>
    obtain ⟨hopen, h⟩ := Option.ite_none_right_eq_some.1 h
    exact Reference.settled_of_readIndexed hexpr (List.contains_iff_mem.1 hopen)
      (beq_iff_eq.1 hlast) h
  split at h
  · next record field hsplit =>
    simp only [Option.bind_eq_bind] at h
    obtain ⟨a, ha, h⟩ := Option.bind_eq_some_iff.1 h
    obtain ⟨b, hb, -⟩ := Option.bind_eq_some_iff.1 h
    exact Settled.of_splitOnce (by decide) (Ident.settled_of_trim ha) (Ident.settled_of_trim hb)
      hsplit
  · simp only [Option.bind_eq_bind] at h
    obtain ⟨⟨object, designator⟩, hsplit, h⟩ := Option.bind_eq_some_iff.1 h
    obtain ⟨a, ha, h⟩ := Option.bind_eq_some_iff.1 h
    obtain ⟨d, hd, -⟩ := Option.bind_eq_some_iff.1 h
    obtain ⟨hident, -⟩ := Option.ite_none_right_eq_some.1 hd
    rw [Bool.and_eq_true] at hident
    rw [(eq_of_splitOnce hsplit).1]
    exact Settled.bland_append (settled_tick (isBland_of_ident hident.2))
      (Ident.isBland_of_trimEnd ha)

theorem Argument.settled_of_readWith {t : Text} {a : Argument}
    (h : Argument.readWith expr t = some a) : Settled t := by
  simp only [readWith, Option.bind_eq_bind] at h
  split at h
  · next parameter value hcut =>
    obtain ⟨n, hn, h⟩ := Option.bind_eq_some_iff.1 h
    obtain ⟨e, he, -⟩ := Option.bind_eq_some_iff.1 h
    exact Settled.of_cutOuter? (by decide) (by decide) (Ident.settled_of_trim hn) (hexpr _ _ he)
      hcut
  · obtain ⟨e, he, -⟩ := Option.map_eq_some_iff.1 h
    exact hexpr _ _ he

/-! ## Expressions -/

namespace Expr

variable {code : Text → Option Expr} (hcode : ∀ u e, code u = some e → Settled u)

include hcode

theorem settled_of_readCall {name : Ident} {inner : Text} {e : Expr}
    (h : readCall code expr name inner = some e) : Settled inner := by
  simp only [readCall] at h
  split at h
  · obtain ⟨-, h⟩ := Option.ite_none_right_eq_some.1 h
    obtain ⟨a, ha, -⟩ := Option.map_eq_some_iff.1 h
    exact hcode _ _ ha
  split at h
  · obtain ⟨-, h⟩ := Option.ite_none_right_eq_some.1 h
    obtain ⟨r, hr, -⟩ := Option.map_eq_some_iff.1 h
    exact Reference.settled_of_readWith hexpr hr
  split at h
  · next arguments harguments =>
    refine Settled.of_splitOuter (c := ',') (by decide) fun piece hpiece => ?_
    obtain ⟨a, ha⟩ := (mem_mapM harguments).1 piece hpiece
    exact Argument.settled_of_readWith hexpr ha
  · obtain ⟨-, h⟩ := Option.ite_none_right_eq_some.1 h
    split at h
    · cases h
    · cases h
    · next index _ hindex => exact Index.settled_of_readWith hexpr hindex

theorem settled_of_readOperand {t : Text} {e : Expr} (h : readOperand code expr t = some e) :
    Settled t := by
  simp only [readOperand, Option.bind_eq_bind] at h
  split at h
  · obtain ⟨⟨inner, after⟩, hgroup, h⟩ := Option.bind_eq_some_iff.1 h
    obtain ⟨hafter, h⟩ := Option.ite_none_right_eq_some.1 h
    obtain ⟨a, ha, -⟩ := Option.map_eq_some_iff.1 h
    obtain rfl := List.isEmpty_iff.1 hafter
    exact Settled.of_parenthesised? (hcode _ _ ha) settled_nil hgroup
  · split at h
    · next operand hnot =>
      obtain ⟨a, ha, -⟩ := Option.map_eq_some_iff.1 h
      exact (hcode _ _ ha).of_afterWord? (by decide) hnot
    · obtain ⟨r, hr, -⟩ := Option.map_eq_some_iff.1 h
      exact Reference.settled_of_readWith hexpr hr

theorem settled_of_readShape {t : Text} {e : Expr} (h : readShape code expr t = some e) :
    Settled t := by
  simp only [readShape] at h
  split at h
  · next l hl => exact Literal.settled_of_readWith hexpr hl
  split at h
  · next name inner hshape =>
    simp only [callShape?, Option.bind_eq_bind] at hshape
    obtain ⟨-, hshape⟩ := Option.ite_none_left_eq_some.1 hshape
    obtain ⟨n, hn, hshape⟩ := Option.bind_eq_some_iff.1 hshape
    obtain ⟨⟨inner', after⟩, hgroup, hshape⟩ := Option.bind_eq_some_iff.1 hshape
    obtain ⟨hafter, hshape⟩ := Option.ite_none_right_eq_some.1 hshape
    obtain ⟨rfl, rfl⟩ := Prod.mk.inj (Option.some.inj hshape)
    obtain rfl := List.isEmpty_iff.1 hafter
    rw [drop_length_takeWhile] at hgroup
    exact Settled.of_dropWhile (Ident.isBland_of_trimEnd hn)
      (Settled.of_parenthesised? (settled_of_readCall hexpr hcode h) settled_nil hgroup)
  split at h
  · cases h
  · exact settled_of_readOperand hexpr hcode h
  · next ops _ hscan =>
    obtain ⟨o, ho, h⟩ := Option.bind_eq_some_iff.1 h
    simp only [readBinary, Option.bind_eq_bind] at h
    obtain ⟨lhs, hlhs, h⟩ := Option.bind_eq_some_iff.1 h
    obtain ⟨rhs, hrhs, -⟩ := Option.bind_eq_some_iff.1 h
    obtain ⟨w, hsplit, ⟨hne, hw⟩, -⟩ := Operator.eq_of_mem_scan hscan (Operator.mem_of_pivot? ho)
    rw [hsplit]
    exact (hcode _ _ hlhs).between (hcode _ _ hrhs) hw hne

end Expr

end Parts

/-- An expression without comments that can be read is settled. -/
theorem Expr.settled_of_readCode {room : Nat} :
    ∀ {t : Text} {e : Expr}, readCode room t = some e → Settled t := by
  induction room with
  | zero => exact fun h => nomatch h
  | succ room ih =>
    intro t e h
    simp only [readCode] at h
    obtain ⟨-, h⟩ := Option.ite_none_left_eq_some.1 h
    exact (settled_of_readShape (fun u e he => (ih he).of_withoutComments) (fun u e => ih) h).of_trim

section Read

variable {room : Nat} {t : Text}

/-- **An expression that can be read is settled.** -/
theorem Expr.settled_of_read {e : Expr} (h : Expr.read room t = some e) : Settled t :=
  (Expr.settled_of_readCode h).of_withoutComments

theorem Reference.settled_of_read {r : Reference} (h : Reference.read room t = some r) : Settled t :=
  Reference.settled_of_readWith (fun _ _ => Expr.settled_of_read) h

theorem Range.settled_of_read {r : Range} (h : Range.read room t = some r) : Settled t :=
  Range.settled_of_readWith (fun _ _ => Expr.settled_of_read) h

/-! ## Types -/

theorem BuiltinType.settled_of_readConstrained {b : BuiltinType}
    (h : BuiltinType.readConstrained room t = some b) : Settled t := by
  simp only [readConstrained, Option.bind_eq_bind] at h
  split at h
  · next rest hinteger =>
    obtain ⟨range, hrange, h⟩ := Option.bind_eq_some_iff.1 h
    obtain ⟨r, hr, -⟩ := Option.map_eq_some_iff.1 h
    exact ((Range.settled_of_read hr).of_afterWord? (by decide) hrange).of_afterWord? (by decide)
      hinteger
  · obtain ⟨kind, hkind, h⟩ := Option.bind_eq_some_iff.1 h
    obtain ⟨⟨inner, after⟩, hgroup, h⟩ := Option.bind_eq_some_iff.1 h
    obtain ⟨hafter, h⟩ := Option.ite_none_right_eq_some.1 h
    obtain ⟨r, hr, -⟩ := Option.map_eq_some_iff.1 h
    obtain rfl := List.isEmpty_iff.1 hafter
    have hname : IsBland kind.name.toList := by cases kind <;> decide
    have hsame := List.find?_some hkind
    rw [sameWord_comm] at hsame
    rw [drop_length_takeWhile] at hgroup
    refine Settled.of_dropWhile (p := (· != '(')) ?_
      (Settled.of_parenthesised? (Range.settled_of_read hr) settled_nil hgroup)
    exact (blandEnd_trimEnd _).isBland (hname.of_sameWord hsame)

theorem BuiltinType.settled_of_read {b : BuiltinType} (h : BuiltinType.read room t = some b) :
    Settled t := by
  simp only [read] at h
  obtain ⟨-, h⟩ := Option.ite_none_left_eq_some.1 h
  refine Settled.of_withoutComments (Settled.of_trim ?_)
  split at h
  · next kind hkind =>
    have hname : IsBland kind.name.toList := by cases kind <;> decide
    have hsame := List.find?_some hkind
    rw [sameWord_comm] at hsame
    exact (hname.of_sameWord hsame).settled
  · exact settled_of_readConstrained h

theorem TypeMark.settled_of_read {m : TypeMark} (h : TypeMark.read room t = some m) : Settled t := by
  simp only [read] at h
  split at h
  · next b hb => exact BuiltinType.settled_of_read hb
  · obtain ⟨n, hn, -⟩ := Option.map_eq_some_iff.1 h
    exact Ident.settled_of_trim hn

end Read

end CanonicalVhdl
