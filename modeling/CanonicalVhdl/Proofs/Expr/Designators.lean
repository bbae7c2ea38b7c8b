import CanonicalVhdl.Proofs.Expr.Tokens
import CanonicalVhdl.Proofs.Text.Lists
import CanonicalVhdl.Types.Read

/-!
# Designators of what the readers return

Whatever text a reader is given, the attribute designators in the tree it returns
are names: they start with a letter and hold letters, digits and underscores only.

## Main definitions

* `HasNames` — every designator of a list is a name.

## Main statements

* `Expr.hasNames_of_read`, `Reference.hasNames_of_read`, `Range.hasNames_of_read`,
  `TypeMark.hasNames_of_read` — the readers return trees with names for designators.
-/

namespace CanonicalVhdl

open Text Token

/-- Every designator is a name. -/
def HasNames (designators : List Text) : Prop :=
  ∀ d ∈ designators, IsName d

theorem hasNames_nil : HasNames [] := by
  intro d hd
  cases hd

theorem HasNames.append {ds ds' : List Text} (h : HasNames ds) (h' : HasNames ds') :
    HasNames (ds ++ ds') := by
  intro d hd
  rcases List.mem_append.1 hd with hd | hd
  · exact h d hd
  · exact h' d hd

theorem Token.IsName.fold {w : Text} (h : IsName w) : IsName (Text.fold w) := by
  refine ⟨?_, ?_⟩
  · have := h.head
    cases w with
    | nil => exact this
    | cons c w => simpa [Text.fold, isAlpha_toLower] using this
  · rw [all_isIdentChar_fold]
    exact h.ident

theorem Argument.hasNames_list {as : List Argument} (h : ∀ a ∈ as, HasNames a.designators) :
    HasNames (Argument.listDesignators as) := by
  induction as with
  | nil => exact hasNames_nil
  | cons a as ih =>
    exact (h a List.mem_cons_self).append (ih fun b hb => h b (List.mem_cons_of_mem a hb))

theorem Element.hasNames_list {es : List Element} (h : ∀ e ∈ es, HasNames e.designators) :
    HasNames (Element.listDesignators es) := by
  induction es with
  | nil => exact hasNames_nil
  | cons e es ih =>
    exact (h e List.mem_cons_self).append (ih fun b hb => h b (List.mem_cons_of_mem e hb))

/-! ## Readers given one for the expressions inside -/

section Readers

variable {expr : Text → Option Expr}
  (hexpr : ∀ t e, expr t = some e → HasNames e.designators)

include hexpr

theorem Range.hasNames_of_readWith {t : Text} {r : Range} (h : Range.readWith expr t = some r) :
    HasNames r.designators := by
  simp only [Range.readWith, Option.bind_eq_bind] at h
  split at h
  · cases h
  split at h
  · obtain ⟨high, hhigh, h⟩ := Option.bind_eq_some_iff.1 h
    obtain ⟨low, hlow, h⟩ := Option.bind_eq_some_iff.1 h
    cases h
    exact (hexpr _ _ hhigh).append (hexpr _ _ hlow)
  · split at h
    · obtain ⟨low, hlow, h⟩ := Option.bind_eq_some_iff.1 h
      obtain ⟨high, hhigh, h⟩ := Option.bind_eq_some_iff.1 h
      cases h
      exact (hexpr _ _ hlow).append (hexpr _ _ hhigh)
    · cases h
  · cases h

theorem Index.hasNames_of_readWith {t : Text} {i : Index} (h : Index.readWith expr t = some i) :
    HasNames i.designators := by
  simp only [Index.readWith] at h
  split at h
  · cases h
    exact hasNames_nil
  split at h
  · rename_i r hr
    cases h
    exact Range.hasNames_of_readWith hexpr hr
  · obtain ⟨e, he, rfl⟩ := Option.map_eq_some_iff.1 h
    exact hexpr _ _ he

theorem Element.hasNames_of_readElement {literal : Text → Option Literal}
    (hliteral : ∀ t l, literal t = some l → HasNames l.designators) {t : Text} {e : Element}
    (h : VectorLiteral.readElement expr literal t = some e) : HasNames e.designators := by
  simp only [VectorLiteral.readElement, Option.bind_eq_bind] at h
  obtain ⟨⟨index, value⟩, -, h⟩ := Option.bind_eq_some_iff.1 h
  obtain ⟨i, hi, h⟩ := Option.bind_eq_some_iff.1 h
  obtain ⟨l, hl, h⟩ := Option.bind_eq_some_iff.1 h
  cases h
  exact (Index.hasNames_of_readWith hexpr hi).append (hliteral _ _ hl)

theorem VectorLiteral.hasNames_of_readWith {literal : Text → Option Literal}
    (hliteral : ∀ t l, literal t = some l → HasNames l.designators) {t : Text}
    {v : VectorLiteral} (h : VectorLiteral.readWith expr literal t = some v) :
    HasNames v.designators := by
  -- only an aggregate holds designators, and it is read from a parenthesis
  cases v with
  | aggregate elements =>
    simp only [VectorLiteral.readWith] at h
    split at h
    · cases h
    split at h
    · obtain ⟨es, hes, hv⟩ := Option.map_eq_some_iff.1 h
      cases hv
      simp only [VectorLiteral.readAggregate, Option.bind_eq_bind] at hes
      obtain ⟨⟨inner, after⟩, -, hes⟩ := Option.bind_eq_some_iff.1 hes
      split at hes
      · cases hes
      · exact Element.hasNames_list
          (forall_of_mapM (fun _ _ => Element.hasNames_of_readElement hexpr hliteral) _ _ hes)
    · obtain ⟨body, -, h⟩ := Option.bind_eq_some_iff.1 h
      simp only [VectorLiteral.readValues] at h
      split at h
      · cases h
      · obtain ⟨_, -, h⟩ := Option.map_eq_some_iff.1 h
        cases h
    · split at h
      · obtain ⟨body, -, h⟩ := Option.bind_eq_some_iff.1 h
        simp only [VectorLiteral.readBased] at h
        split at h
        · obtain ⟨_, -, h⟩ := Option.map_eq_some_iff.1 h
          cases h
        split at h
        · obtain ⟨_, -, h⟩ := Option.map_eq_some_iff.1 h
          cases h
        split at h
        · obtain ⟨_, -, h⟩ := Option.map_eq_some_iff.1 h
          cases h
        · cases h
      · cases h
    · cases h
  | bits | logics | hexadecimal | octal => exact hasNames_nil

theorem Literal.hasNames_of_readNested (fuel : Nat) :
    ∀ t l, Literal.readNested expr fuel t = some l → HasNames l.designators := by
  induction fuel with
  | zero =>
    intro t l h
    cases h
  | succ fuel ih =>
    intro t l h
    cases l with
    | vector v =>
      simp only [Literal.readNested] at h
      split at h
      · cases h
      split at h
      · simp only [Literal.readTicked] at h
        split at h
        · cases h
        · obtain ⟨_, -, h⟩ := Option.map_eq_some_iff.1 h
          cases h
      · simp only [Literal.readPlain] at h
        split at h
        · cases h
        split at h
        · cases h
        split at h
        · cases h
        split at h
        · obtain ⟨_, -, h⟩ := Option.map_eq_some_iff.1 h
          cases h
        · obtain ⟨v', hv, h⟩ := Option.map_eq_some_iff.1 h
          cases h
          exact VectorLiteral.hasNames_of_readWith hexpr ih hv
    | bit | boolean | real | integer | logic => exact hasNames_nil

theorem Reference.hasNames_of_readWith {t : Text} {r : Reference}
    (h : Reference.readWith expr t = some r) : HasNames r.designators := by
  simp only [Reference.readWith] at h
  split at h
  · cases h
    exact hasNames_nil
  split at h
  · split at h
    · simp only [Reference.readIndexed, Option.bind_eq_bind] at h
      obtain ⟨⟨start, stop⟩, -, h⟩ := Option.bind_eq_some_iff.1 h
      split at h
      · cases h
      obtain ⟨name, -, h⟩ := Option.bind_eq_some_iff.1 h
      obtain ⟨index, hindex, h⟩ := Option.bind_eq_some_iff.1 h
      cases h
      exact Index.hasNames_of_readWith hexpr hindex
    · cases h
  split at h
  · obtain ⟨record, -, h⟩ := Option.bind_eq_some_iff.1 h
    obtain ⟨field, -, h⟩ := Option.bind_eq_some_iff.1 h
    cases h
    exact hasNames_nil
  · simp only [Option.bind_eq_bind] at h
    obtain ⟨⟨object, designator⟩, -, h⟩ := Option.bind_eq_some_iff.1 h
    obtain ⟨object, -, h⟩ := Option.bind_eq_some_iff.1 h
    obtain ⟨d, hd, h⟩ := Option.bind_eq_some_iff.1 h
    cases h
    simp only [Reference.readDesignator] at hd
    split at hd
    · rename_i hname
      cases hd
      intro d' hd'
      cases List.mem_singleton.1 hd'
      exact (isName_of_all hname).fold
    · cases hd

theorem Argument.hasNames_of_readWith {t : Text} {a : Argument}
    (h : Argument.readWith expr t = some a) : HasNames a.designators := by
  simp only [Argument.readWith] at h
  split at h
  · obtain ⟨parameter, -, h⟩ := Option.bind_eq_some_iff.1 h
    obtain ⟨value, hvalue, h⟩ := Option.bind_eq_some_iff.1 h
    cases h
    exact hexpr _ _ hvalue
  · obtain ⟨value, hvalue, rfl⟩ := Option.map_eq_some_iff.1 h
    exact hexpr _ _ hvalue

end Readers

/-! ## The readers -/

namespace Expr

section Shapes

variable {code expr : Text → Option Expr}
  (hcode : ∀ t e, code t = some e → HasNames e.designators)
  (hexpr : ∀ t e, expr t = some e → HasNames e.designators)

include hcode hexpr

theorem hasNames_of_readCall {name : Ident} {inner : Text} {e : Expr}
    (h : readCall code expr name inner = some e) : HasNames e.designators := by
  simp only [readCall] at h
  split at h
  · split at h
    · obtain ⟨value, hvalue, rfl⟩ := Option.map_eq_some_iff.1 h
      exact hcode _ value hvalue
    · cases h
  split at h
  · split at h
    · obtain ⟨signal, hsignal, rfl⟩ := Option.map_eq_some_iff.1 h
      exact Reference.hasNames_of_readWith hexpr hsignal
    · cases h
  split at h
  · rename_i arguments harguments
    simp only [callOf?] at h
    split at h
    · cases h
    · cases h
      exact Argument.hasNames_list
        (forall_of_mapM (fun _ _ => Argument.hasNames_of_readWith hexpr) _ _ harguments)
  split at h
  · split at h
    · cases h
    · cases h
    · rename_i index hindex
      cases h
      exact Index.hasNames_of_readWith hexpr hindex
  · cases h

theorem hasNames_of_readOperand {t : Text} {e : Expr} (h : readOperand code expr t = some e) :
    HasNames e.designators := by
  simp only [readOperand, Option.bind_eq_bind] at h
  split at h
  · obtain ⟨⟨inner, after⟩, -, h⟩ := Option.bind_eq_some_iff.1 h
    split at h
    · obtain ⟨value, hvalue, rfl⟩ := Option.map_eq_some_iff.1 h
      exact hcode _ value hvalue
    · cases h
  split at h
  · obtain ⟨value, hvalue, rfl⟩ := Option.map_eq_some_iff.1 h
    exact hcode _ value hvalue
  · obtain ⟨r, hr, rfl⟩ := Option.map_eq_some_iff.1 h
    exact Reference.hasNames_of_readWith hexpr hr

omit hexpr in
theorem hasNames_of_readBinary {o : Operator} {t : Text} {e : Expr}
    (h : readBinary code o t = some e) : HasNames e.designators := by
  simp only [readBinary, Option.bind_eq_bind] at h
  obtain ⟨lhs, hlhs, h⟩ := Option.bind_eq_some_iff.1 h
  obtain ⟨rhs, hrhs, h⟩ := Option.bind_eq_some_iff.1 h
  cases h
  have hboth := (hcode _ _ hlhs).append (hcode _ _ hrhs)
  cases hop : o.op <;> exact hboth

theorem hasNames_of_readShape {t : Text} {e : Expr} (h : readShape code expr t = some e) :
    HasNames e.designators := by
  simp only [readShape] at h
  split at h
  · rename_i l hl
    cases h
    exact Literal.hasNames_of_readNested hexpr _ _ _ hl
  split at h
  · exact hasNames_of_readCall hcode hexpr h
  split at h
  · cases h
  · exact hasNames_of_readOperand hcode hexpr h
  · obtain ⟨o, -, h⟩ := Option.bind_eq_some_iff.1 h
    exact hasNames_of_readBinary hcode h

end Shapes

theorem hasNames_of_readCode (room : Nat) :
    ∀ t e, readCode room t = some e → HasNames e.designators := by
  induction room with
  | zero =>
    intro t e h
    cases h
  | succ room ih =>
    intro t e h
    simp only [readCode] at h
    split at h
    · cases h
    · exact hasNames_of_readShape ih (fun t e h => ih _ _ h) h

/-- **Every designator in an expression that was read is a name.** -/
theorem hasNames_of_read {room : Nat} {t : Text} {e : Expr} (h : read room t = some e) :
    HasNames e.designators :=
  hasNames_of_readCode room _ e h

end Expr

theorem Reference.hasNames_of_read {room : Nat} {t : Text} {r : Reference}
    (h : Reference.read room t = some r) : HasNames r.designators :=
  Reference.hasNames_of_readWith (fun _ _ => Expr.hasNames_of_read) h

theorem Range.hasNames_of_read {room : Nat} {t : Text} {r : Range}
    (h : Range.read room t = some r) : HasNames r.designators :=
  Range.hasNames_of_readWith (fun _ _ => Expr.hasNames_of_read) h

/-! ## Types -/

/-- The designators in a type, from left to right. -/
def TypeMark.designators : TypeMark → List Text
  | .builtin (.scalar _) | .named _ => []
  | .builtin (.vector _ range) | .builtin (.integerRange range) => range.designators

theorem BuiltinType.hasNames_of_readConstrained {room : Nat} {t : Text} {type : BuiltinType}
    (h : BuiltinType.readConstrained room t = some type) :
    HasNames (TypeMark.builtin type).designators := by
  simp only [BuiltinType.readConstrained, Option.bind_eq_bind] at h
  split at h
  · obtain ⟨rest, -, h⟩ := Option.bind_eq_some_iff.1 h
    obtain ⟨range, hrange, rfl⟩ := Option.map_eq_some_iff.1 h
    exact Range.hasNames_of_read hrange
  · obtain ⟨kind, -, h⟩ := Option.bind_eq_some_iff.1 h
    obtain ⟨⟨inner, after⟩, -, h⟩ := Option.bind_eq_some_iff.1 h
    split at h
    · obtain ⟨range, hrange, rfl⟩ := Option.map_eq_some_iff.1 h
      exact Range.hasNames_of_read hrange
    · cases h

theorem TypeMark.hasNames_of_read {room : Nat} {t : Text} {type : TypeMark}
    (h : TypeMark.read room t = some type) : HasNames type.designators := by
  simp only [TypeMark.read] at h
  split at h
  · rename_i builtin hbuiltin
    cases h
    simp only [BuiltinType.read] at hbuiltin
    split at hbuiltin
    · cases hbuiltin
    split at hbuiltin
    · cases hbuiltin
      exact hasNames_nil
    · exact BuiltinType.hasNames_of_readConstrained hbuiltin
  · obtain ⟨name, -, rfl⟩ := Option.map_eq_some_iff.1 h
    exact hasNames_nil

end CanonicalVhdl
