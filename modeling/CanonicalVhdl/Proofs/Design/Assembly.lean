import CanonicalVhdl.Proofs.Design.FinalLine
import CanonicalVhdl.Proofs.Text.Closing

/-!
# Texts assembled from units

The units of a printed file stand on lines of their own.  Each of them is cut out
of the file as a whole.

## Main definitions

* `SourceUnit.IsUnit t` — `t` is one unit, whatever follows it.
* `SourceUnit.Assembled ts r` — `r` holds the units `ts` and line ends.
* `SourceUnit.Cuts ts r` — `r` is cut into the units `ts`.

## Main statements

* `SourceUnit.Assembled.cuts`, `SourceUnit.splitFrom_cuts` — an assembled text is cut into
  its units.
* `Package.isUnit_text` and its siblings — what is printed and can be read is a unit.
-/

namespace CanonicalVhdl

open Text Token

/-! ## Units -/

namespace SourceUnit

/-- A text that is one unit of a file, whatever follows it. -/
structure IsUnit (t : Text) : Prop where
  /-- The unit starts with no blank. -/
  head : ∃ c r, t = c :: r ∧ isAsciiBlank c = false
  /-- What follows does not change where the unit ends. -/
  length : ∀ u, Follows u → lengthAt (t ++ u) = t.length
  /-- Inside parentheses the unit is passed over. -/
  inside : ∀ u, Follows u → ∀ test, IsOuterTest test → ∀ position depth,
    findPointFrom test 0 position (depth + 1) (some '\n') (t ++ u) = none

/-- A construct that ends where it should is a unit. -/
theorem isUnit_of_extent? {c : Char} {r : Text} (hc : c.isAlpha = true)
    (h : ∀ u, Follows u → extent? (c :: r ++ u) = some (c :: r).length) : IsUnit (c :: r) := by
  have hident := isIdentChar_of_isAlpha hc
  refine ⟨⟨c, r, rfl, isAsciiBlank_eq_false_of_isIdentChar hident⟩, ?_, ?_⟩
  · intro u hu
    rw [List.cons_append, lengthAt, at_ident _ hident, ← List.cons_append, h u hu]
    rfl
  · intro u hu test htest position depth
    have hextent := h [] follows_nil
    rw [List.append_nil, extent?] at hextent
    have hbefore : extentFrom 0 .start 0 0 (some '\n') (c :: r) = some (0 + (c :: r).length) := by
      obtain ⟨w, x, hsplit, hrun, hrest, -⟩ := exists_run hident r
      have hx := hrest [] atLineEnd_nil
      rw [List.append_nil] at hx
      rw [hsplit] at hextent ⊢
      rw [extentFrom_word hrun rfl hx, lastOr_of_ne_nil hrun.ne_nil] at hextent
      rw [extentFrom_word hrun (by decide) hx, lastOr_of_ne_nil hrun.ne_nil,
        Nat.zero_add (w ++ x).length]
      exact hextent
    rw [findPointFrom_statement htest hu.atLineEnd _ _ 0 .start 0 position depth _ (Nat.le_refl _)
      hbefore]
    exact hu.inside test htest _ _ _

theorem isUnit_construct {kind : List Text} (hkind : kind ∈ kindWords) (name : Ident) {c : Char}
    {b : Text} (hc : c.isAlpha = true)
    (h : isConstruct (c :: b ++ '\n' :: ("end".toList ++ clauseEnd (kind ++ [name.text]))) = true) :
    IsUnit (c :: b ++ '\n' :: ("end".toList ++ clauseEnd (kind ++ [name.text]))) :=
  isUnit_of_extent? hc fun _ hu => extent?_closing hkind name hu h

/-- A comment line is a unit. -/
theorem isUnit_comment {t : Text} (h : '\n' ∉ t) : IsUnit ('-' :: '-' :: t) := by
  refine ⟨⟨'-', '-' :: t, rfl, by decide⟩, ?_, ?_⟩
  · intro u hu
    rw [List.cons_append, List.cons_append, lengthAt, at_comment h hu.atLineEnd]
    rfl
  · intro u hu test htest position depth
    have hcomment : findPointFrom test 0 position (depth + 1) (some '\n') ('-' :: ('-' :: t ++ u))
        = findPointFrom test 0 (position + 1 + ('-' :: t).length) (depth + 1)
          (lastOr (some '-') ('-' :: t)) u := findPointFrom_comment (at_comment h hu.atLineEnd _)
    rw [List.cons_append, hcomment]
    exact hu.inside test htest _ _ _

/-- Units on lines of their own, after line ends. -/
inductive Assembled : List Text → Text → Prop where
  | nil : Assembled [] []
  | newline {ts : List Text} {r : Text} : Assembled ts r → Assembled ts ('\n' :: r)
  | unit {t : Text} {ts : List Text} {r : Text} : IsUnit t → Assembled ts r →
    Assembled (t :: ts) ('\n' :: (t ++ r))

namespace Assembled

theorem append {ts us : List Text} {r v : Text} (h : Assembled ts r) (h' : Assembled us v) :
    Assembled (ts ++ us) (r ++ v) := by
  induction h with
  | nil => exact h'
  | newline _ ih => exact .newline ih
  | unit ht _ ih =>
    rw [List.cons_append, List.cons_append, List.append_assoc]
    exact .unit ht ih

theorem follows {ts : List Text} {r : Text} (h : Assembled ts r) : Follows r := by
  have hstep : ∀ r, (∀ test, IsOuterTest test → ∀ position depth,
      findPointFrom test 0 position (depth + 1) (some '\n') r = none) → Follows ('\n' :: r) := by
    intro r hr
    refine ⟨atLineEnd_newline r, fun test htest position depth before => ?_⟩
    rw [findPointFrom_inside htest (at_code (by decide) (fun h => absurd h (by decide))
      (fun h => absurd h (by decide))) (by decide) (by decide)]
    exact hr test htest _ _
  induction h with
  | nil => exact follows_nil
  | newline _ ih => exact hstep _ fun test htest _ _ => ih.inside test htest _ _ _
  | unit ht _ ih => exact hstep _ (ht.inside _ ih)

/-- The line ends before the first unit. -/
theorem dropWhile {ts : List Text} {r : Text} (h : Assembled ts r) :
    ts = [] ∧ r.dropWhile isAsciiBlank = [] ∨
      ∃ t us v, ts = t :: us ∧ r.dropWhile isAsciiBlank = t ++ v ∧ IsUnit t ∧ Assembled us v := by
  induction h with
  | nil => exact .inl ⟨rfl, rfl⟩
  | newline _ ih => exact ih
  | unit ht hr _ =>
    obtain ⟨c, b, rfl, hc⟩ := ht.head
    refine .inr ⟨_, _, _, rfl, ?_, ht, hr⟩
    rw [List.dropWhile_cons_of_pos (by decide), List.cons_append,
      List.dropWhile_cons_of_neg (by rw [hc]; decide)]

end Assembled

/-! ## Cutting a file into units -/

/-- What a unit is, wherever it stands. -/
def content (u : SourceUnit) : UnitKind × Text :=
  (u.kind, u.text)

/-- A text and the units that it is cut into. -/
inductive Cuts : List Text → Text → Prop where
  /-- Nothing but ASCII blanks. -/
  | nil {r : Text} (hr : r.dropWhile isAsciiBlank = []) : Cuts [] r
  /-- A unit after ASCII blanks, and what follows it. -/
  | cons {c : Char} {t : Text} {ts : List Text} {r u : Text}
      (hr : r.dropWhile isAsciiBlank = c :: (t ++ u))
      (hlength : lengthAt (c :: (t ++ u)) = t.length + 1) (hu : Cuts ts u) : Cuts ((c :: t) :: ts) r

/-- Blanks before the first unit do not matter. -/
theorem Cuts.congr {ts : List Text} {r u : Text} (h : Cuts ts r)
    (hr : u.dropWhile isAsciiBlank = r.dropWhile isAsciiBlank) : Cuts ts u := by
  cases h with
  | nil h => exact .nil (hr.trans h)
  | cons h hlength hu => exact .cons (hr.trans h) hlength hu

/-- The units of a text that is cut into them. -/
theorem splitFrom_cuts {ts : List Text} {r : Text} (h : Cuts ts r) :
    ∀ (found : List SourceUnit) (start fuel : Nat), r.length < fuel →
      (splitFrom found start fuel r).map content
        = found.reverse.map content ++ ts.map fun t => (UnitKind.ofText t, t) := by
  induction h with
  | nil hr =>
    intro found start fuel _
    rw [splitFrom_blank _ _ _ hr, List.map_nil, List.append_nil]
  | @cons c t ts r u hr hlength hu ih =>
    intro found start fuel hfuel
    obtain ⟨fuel, rfl⟩ := Nat.exists_eq_add_one_of_ne_zero (Nat.ne_zero_of_lt hfuel)
    obtain ⟨here, after, heq⟩ := splitFrom_unit found start fuel hr
    have hshort : u.length < fuel := by
      have := (List.dropWhile_sublist isAsciiBlank (l := r)).length_le
      rw [hr, List.length_cons, List.length_append] at this
      omega
    rw [heq, hlength, ← List.length_cons (a := c), ← List.cons_append, List.take_left,
      List.drop_left, ih _ _ _ hshort]
    simp [content]

/-- **An assembled text is cut into its units**, whatever blanks stand before them. -/
theorem Assembled.cuts {ts : List Text} :
    ∀ {v : Text}, Assembled ts v → Cuts ts v := by
  induction ts with
  | nil =>
    intro v h
    obtain ⟨-, hv⟩ | ⟨t, us, w, hts, -⟩ := h.dropWhile
    · exact .nil hv
    · cases hts
  | cons t ts ih =>
    intro v h
    obtain ⟨hts, -⟩ | ⟨t', us, w, hts, hv, ht, hw⟩ := h.dropWhile
    · cases hts
    · obtain ⟨rfl, rfl⟩ := List.cons.inj hts
      have hlength := ht.length w hw.follows
      obtain ⟨c, b, rfl, -⟩ := ht.head
      exact .cons hv hlength (ih hw)

/-- Groups of units with a blank line between the groups. -/
theorem assembled_groups {groups : List (List Text)} (hne : ∀ g ∈ groups, g ≠ [])
    (hunit : ∀ g ∈ groups, ∀ t ∈ g, IsUnit t) (h : groups ≠ []) :
    Assembled groups.flatten
      ("\n\n".toList ++ join "\n\n".toList (groups.map (join ['\n']))) := by
  have hlines : ∀ {g : List Text}, g ≠ [] → (∀ t ∈ g, IsUnit t) →
      Assembled g ('\n' :: join ['\n'] g) := by
    intro g hg hall
    induction g with
    | nil => exact absurd rfl hg
    | cons t ts ih =>
      have ht := hall t List.mem_cons_self
      by_cases hnil : ts = []
      · subst hnil
        have := Assembled.unit ht .nil
        simpa [join] using this
      · rw [join_cons_of_ne_nil _ hnil]
        exact .unit ht (ih hnil fun u hu => hall u (List.mem_cons_of_mem t hu))
  induction groups with
  | nil => exact absurd rfl h
  | cons g gs ih =>
    have hg : Assembled g ("\n\n".toList ++ join ['\n'] g) :=
      .newline (hlines (hne g List.mem_cons_self) (hunit g List.mem_cons_self))
    by_cases hnil : gs = []
    · subst hnil
      simpa [join] using hg
    · have hgs := ih (fun x hx => hne x (List.mem_cons_of_mem g hx))
        (fun x hx => hunit x (List.mem_cons_of_mem g hx)) hnil
      obtain ⟨g', gs', rfl⟩ := List.exists_cons_of_ne_nil hnil
      have := hg.append hgs
      simpa [join, List.append_assoc] using this

end SourceUnit

/-! ## Printed units -/

namespace UnitKind

/-- The kind of a text that starts with a keyword. -/
theorem ofText_keyword {k : Text} (hk : IsRun k) (r : Text) :
    ofText (k ++ ' ' :: r) =
      if sameWord "library".toList k || sameWord "use".toList k then context
      else if sameWord "entity".toList k then entity
      else if sameWord "architecture".toList k then architecture
      else if sameWord "package".toList k then
        if startsWith "body".toList r then packageBody else package
      else unknown := by
  have hdash : "--".toList.isPrefixOf (k ++ ' ' :: r) = false := by
    cases k with
    | nil => exact absurd rfl hk.ne_nil
    | cons c k =>
      have hc : '-' ≠ c := by
        rintro rfl
        have := hk.ident
        rw [List.all_cons, Bool.and_eq_true] at this
        exact absurd this.1 (by decide)
      simp [List.isPrefixOf, hc]
  have hafter : ∀ w, IsRun w →
      afterWord? w (k ++ ' ' :: r) = if sameWord w k then some (trimStart r) else none := by
    intro w hw
    exact afterWord?_run (g := []) rfl hw hk rfl
  have hstarts : ∀ w, IsRun w → startsWith w (k ++ ' ' :: r) = sameWord w k := by
    intro w hw
    rw [startsWith, hafter w hw]
    split <;> simp_all
  have hrun : ∀ w ∈ ["library", "use", "entity", "architecture", "package"], IsRun w.toList := by
    have key : ∀ w ∈ ["library", "use", "entity", "architecture", "package"],
        w.toList ≠ [] ∧ w.toList.all isIdentChar = true := by decide
    exact fun w hw => ⟨(key w hw).1, (key w hw).2⟩
  have hbody : (afterWords? ["package".toList, "body".toList] (k ++ ' ' :: r)).isSome
      = (sameWord "package".toList k && startsWith "body".toList r) := by
    rw [afterWords?_pair, hafter _ (hrun "package" (by simp))]
    have htrim : trimStart (trimStart r) = trimStart r :=
      trimStart_eq_self (any_head?_dropWhile isBlank r)
    cases sameWord "package".toList k
    · rfl
    · simp [startsWith, afterWord?, htrim]
  simp only [ofText, hdash, hbody, hstarts _ (hrun "library" (by simp)),
    hstarts _ (hrun "use" (by simp)), hstarts _ (hrun "entity" (by simp)),
    hstarts _ (hrun "architecture" (by simp)), hstarts _ (hrun "package" (by simp))]
  cases sameWord "package".toList k <;> cases startsWith "body".toList r <;> rfl

end UnitKind

/-- A text with the closing clause of a unit is a unit if, trimmed, it is a construct. -/
theorem SourceUnit.isUnit_closed {kind : List Text} (hkind : kind ∈ kindWords) (name : Ident)
    {t b : Text} {c : Char} (hc : c.isAlpha = true)
    (htext : t = c :: b ++ '\n' :: ("end".toList ++ clauseEnd (kind ++ [name.text])))
    (h : isConstruct (trim t) = true) : IsUnit t := by
  have hfirst : Solid [c] :=
    solid_singleton (isBlank_eq_false_of_isIdentChar (isIdentChar_of_isAlpha hc))
  have hlast : Solid [';'] := solid_singleton (by decide)
  have hends : t = [c] ++ (b ++ '\n' :: ("end".toList ++ (kind ++ [name.text]).flatMap (' ' :: ·))
      ++ [';']) := by
    rw [htext, clauseEnd]
    simp only [List.cons_append, List.nil_append, List.append_assoc]
  have htrim : trim t = t := by
    rw [hends]
    exact trim_eq_self (hfirst.between hlast _).toTrimmed
  rw [htrim, htext] at h
  rw [htext]
  exact isUnit_construct hkind name hc h

/-- The first letter and the closing clause of a printed unit. -/
theorem SourceUnit.printed_closed (kind : List Text) (name body : Text) {header closing h : Text}
    {c : Char} (hheader : header = c :: h)
    (hclosing : closing = '\n' :: ("end".toList ++ kind.flatMap (' ' :: ·) ++ [' '])) :
    header ++ body ++ closing ++ name ++ [';']
      = c :: (h ++ body) ++ '\n' :: ("end".toList ++ clauseEnd (kind ++ [name])) := by
  rw [hheader, hclosing, clauseEnd]
  generalize "end".toList = e
  simp

section Printed

variable {room : Nat}

theorem Package.isUnit_text {p q : Package} (h : read room p.text = some q) :
    SourceUnit.IsUnit p.text := by
  have hcons : isConstruct (trim p.text) = true := by
    by_contra hcons
    rw [Bool.not_eq_true] at hcons
    simp only [read, hcons, Bool.not_false, Bool.or_true, if_true, reduceCtorEq] at h
  have htext := SourceUnit.printed_closed ["package".toList] p.name.text
    (p.name.text ++ (" is".toList ++ nested (Declaration.partText p.items)))
    (show "package ".toList = 'p' :: "ackage ".toList from rfl)
    (show "\nend package ".toList = _ from rfl)
  simp only [← List.append_assoc] at htext
  exact SourceUnit.isUnit_closed (by decide) p.name (by decide) htext hcons

theorem Package.ofText_text (p : Package) : UnitKind.ofText p.text = .package := by
  have hkeyword : "package ".toList = "package".toList ++ [' '] := rfl
  have htext : ∃ r, p.text = "package".toList ++ ' ' :: (p.name.text ++ ' ' :: r) := by
    unfold text
    have his : " is".toList = ' ' :: "is".toList := rfl
    rw [hkeyword, his]
    simp only [List.append_assoc, List.cons_append]
    exact ⟨_, rfl⟩
  obtain ⟨r, htext⟩ := htext
  have hbody : startsWith "body".toList (p.name.text ++ ' ' :: r) = false := by
    have := startsWith_run (w := "body".toList) (g := []) (u := ' ' :: r) rfl
      ⟨by decide, by decide⟩ p.name.isRun rfl
    rw [List.nil_append] at this
    rw [this, sameWord_comm]
    exact p.name.sameWord_eq_false (by decide)
  rw [htext, UnitKind.ofText_keyword ⟨by decide, by decide⟩, hbody]
  decide

theorem PackageBody.isUnit_text {b d : PackageBody} (h : read room b.text = some d) :
    SourceUnit.IsUnit b.text := by
  have hcons : isConstruct (trim b.text) = true := by
    by_contra hcons
    rw [Bool.not_eq_true] at hcons
    simp only [read, hcons, Bool.not_false, Bool.or_true, if_true, reduceCtorEq] at h
  have htext := SourceUnit.printed_closed ["package".toList, "body".toList] b.name.text
    (b.name.text ++ (" is".toList ++ nested b.body.text))
    (show "package body ".toList = 'p' :: "ackage body ".toList from rfl)
    (show "\nend package body ".toList = _ from rfl)
  simp only [← List.append_assoc] at htext
  exact SourceUnit.isUnit_closed (by decide) b.name (by decide) htext hcons

theorem PackageBody.ofText_text (b : PackageBody) : UnitKind.ofText b.text = .packageBody := by
  have hkeyword : "package body ".toList = "package".toList ++ ' ' :: ("body".toList ++ [' ']) := rfl
  have htext : ∃ r, b.text = "package".toList ++ ' ' :: ("body".toList ++ ' ' :: r) := by
    unfold text
    rw [hkeyword]
    simp only [List.append_assoc, List.cons_append]
    exact ⟨_, rfl⟩
  obtain ⟨r, htext⟩ := htext
  have hrun : IsRun "body".toList := ⟨by decide, by decide⟩
  have hbody : startsWith "body".toList ("body".toList ++ ' ' :: r) = true := by
    have := startsWith_run (g := []) (u := ' ' :: r) rfl hrun hrun rfl
    rw [List.nil_append] at this
    rw [this]
    exact sameWord_self _
  rw [htext, UnitKind.ofText_keyword ⟨by decide, by decide⟩, hbody]
  decide

theorem Architecture.isUnit_text {a b : Architecture} (h : read room a.text = some b) :
    SourceUnit.IsUnit a.text := by
  have hcons : isConstruct (trim a.text) = true := by
    by_contra hcons
    rw [Bool.not_eq_true] at hcons
    simp only [read, hcons, Bool.not_false, Bool.or_true, if_true, reduceCtorEq] at h
  have htext := SourceUnit.printed_closed ["architecture".toList] a.name.text
    (a.name.text ++ (" of ".toList ++ (a.entity.text ++ (" is".toList
      ++ (nested a.head.text ++ ("\nbegin".toList ++ nested a.body.text))))))
    (show "architecture ".toList = 'a' :: "rchitecture ".toList from rfl)
    (show "\nend architecture ".toList = _ from rfl)
  simp only [← List.append_assoc] at htext
  exact SourceUnit.isUnit_closed (by decide) a.name (by decide) htext hcons

theorem Architecture.ofText_text (a : Architecture) : UnitKind.ofText a.text = .architecture := by
  have hkeyword : "architecture ".toList = "architecture".toList ++ [' '] := rfl
  have htext : ∃ r, a.text = "architecture".toList ++ ' ' :: r := by
    unfold text
    rw [hkeyword]
    simp only [List.append_assoc, List.singleton_append]
    exact ⟨_, rfl⟩
  obtain ⟨r, htext⟩ := htext
  rw [htext, UnitKind.ofText_keyword ⟨by decide, by decide⟩]
  cases startsWith "body".toList r <;> decide

theorem Interface.isUnit_entityText {e i : Interface} (h : readEntity room e.entityText = some i) :
    SourceUnit.IsUnit e.entityText := by
  have hcons : isConstruct (trim e.entityText) = true := by
    by_contra hcons
    rw [Bool.not_eq_true] at hcons
    simp only [readEntity, readAs, splitUnit?, hcons, Bool.not_false, Bool.or_true, if_true,
      Option.bind_eq_bind, Option.bind_none, reduceCtorEq] at h
  have htext := SourceUnit.printed_closed ["entity".toList] e.name.text
    ((' ' :: e.name.text) ++ (" is".toList
      ++ ((e.generics.elim [] fun c => '\n' :: indent 1 c.text)
        ++ (e.ports.elim [] fun c => '\n' :: indent 1 c.text))))
    (show "entity".toList = 'e' :: "ntity".toList from rfl)
    (show "\nend ".toList ++ "entity".toList ++ [' '] = _ from rfl)
  have heq : e.entityText = "entity".toList ++ ((' ' :: e.name.text) ++ (" is".toList
      ++ ((e.generics.elim [] fun c => '\n' :: indent 1 c.text)
        ++ (e.ports.elim [] fun c => '\n' :: indent 1 c.text))))
      ++ ("\nend ".toList ++ "entity".toList ++ [' ']) ++ e.name.text ++ [';'] := by
    unfold entityText textAs
    generalize "entity".toList = k
    generalize " is".toList = i
    generalize "\nend ".toList = n
    simp
  exact SourceUnit.isUnit_closed (by decide) e.name (by decide) (heq.trans htext) hcons

theorem Interface.ofText_entityText (e : Interface) : UnitKind.ofText e.entityText = .entity := by
  have htext : ∃ r, e.entityText = "entity".toList ++ ' ' :: r := by
    unfold entityText textAs
    simp only [List.append_assoc, List.cons_append]
    exact ⟨_, rfl⟩
  obtain ⟨r, htext⟩ := htext
  rw [htext, UnitKind.ofText_keyword ⟨by decide, by decide⟩]
  cases startsWith "body".toList r <;> decide

end Printed

/-! ## Context clauses -/

/-- A text that starts with a keyword, goes on with words after blanks or points and
ends with a semicolon is a unit. -/
theorem SourceUnit.isUnit_runs (k : Text) (runs : List (Char × Text)) {t : Text} (hk : IsRun k)
    (hfirst : k.head?.any Char.isAlpha = true)
    (hplain : structureWords.contains (Text.fold k) = false)
    (hne : runs ≠ []) (hsep : ∀ p ∈ runs, p.1 = ' ' ∨ p.1 = '.')
    (hwords : ∀ p ∈ runs, IsRun p.2 ∧ structureWords.contains (Text.fold p.2) = false)
    (ht : t = k ++ (runs.flatMap (fun p => p.1 :: p.2) ++ [';'])) : IsUnit t := by
  have hextent : ∀ u, extent? (t ++ u) = some t.length := by
    intro u
    have hhead : (runs.flatMap (fun p => p.1 :: p.2) ++ ([';'] ++ u)).head?.any isIdentChar = false := by
      obtain ⟨p, ps, rfl⟩ := List.exists_cons_of_ne_nil hne
      rcases hsep p List.mem_cons_self with hp | hp <;> simp [hp] <;> decide
    have hsemi : (([';'] : Text) ++ u).head?.any isIdentChar = false := rfl
    obtain ⟨before, hruns⟩ := extentFrom_runs (s := .start) rfl hsemi runs (0 + k.length)
      (lastOr none k) hsep hwords
    have hcode : ∀ before, Lexeme.at before (';' :: u) = .code := fun before =>
      at_code (by decide) (fun h => absurd h (by decide)) (fun h => absurd h (by decide))
    have hident : isIdentChar ';' = false := by decide
    rw [ht, extent?, List.append_assoc, List.append_assoc, extentFrom_word hk rfl hhead,
      Nesting.word_eq_self hplain rfl, Option.bind_some, hruns, List.singleton_append]
    simp only [extentFrom, hcode, hident, Bool.false_and, Bool.false_eq_true, if_false,
      Char.reduceBEq, beq_self_eq_true, Bool.and_self, if_true, Nesting.start, Option.some.injEq,
      List.length_append, List.length_singleton]
    omega
  cases k with
  | nil => exact absurd rfl hk.ne_nil
  | cons c k =>
    subst ht
    exact isUnit_of_extent? (by simpa using hfirst) fun u _ => hextent u

namespace ContextClause

theorem join_points (p : Text) (ps : List Text) :
    join ['.'] (p :: ps) = p ++ (ps.map (('.', ·))).flatMap (fun q : Char × Text => q.1 :: q.2) := by
  induction ps generalizing p with
  | nil => simp [join]
  | cons q qs ih =>
    have := ih q
    simp only [join, List.intercalate_cons_cons] at this ⊢
    rw [this]
    simp

theorem isPlain_all : structureWords.contains (Text.fold "all".toList) = false := by decide

theorem isUnit_text {c d : ContextClause} (h : read c.text = some d) : SourceUnit.IsUnit c.text := by
  cases c with
  | library name =>
    refine SourceUnit.isUnit_runs "library".toList [(' ', name.text)]
      ⟨by decide, by decide⟩ (by decide) (by decide) (List.cons_ne_nil _ _) (by simp) ?_ ?_
    · intro p hp
      rw [List.mem_singleton.1 hp]
      exact ⟨name.isRun, name.not_mem_structureWords⟩
    · have hkeyword : "library ".toList = "library".toList ++ [' '] := rfl
      unfold text
      rw [hkeyword]
      generalize "library".toList = k
      simp
  | use path all =>
    have hparts : ∀ w ∈ path.map (·.text) ++ (if all then ["all".toList] else []),
        IsRun w ∧ structureWords.contains (Text.fold w) = false := by
      intro w hw
      rcases List.mem_append.1 hw with hw | hw
      · obtain ⟨i, -, rfl⟩ := List.mem_map.1 hw
        exact ⟨i.isRun, i.not_mem_structureWords⟩
      · cases all with
        | false => simp at hw
        | true =>
          rw [List.mem_singleton.1 hw]
          exact ⟨⟨by decide, by decide⟩, isPlain_all⟩
    have htext : text (use path all) = "use ".toList
        ++ join ['.'] (path.map (·.text) ++ if all then ["all".toList] else []) ++ [';'] := rfl
    rw [htext] at h ⊢
    revert h hparts
    generalize path.map (·.text) ++ (if all then ["all".toList] else []) = parts
    intro h hparts
    cases parts with
    | nil =>
      have hnone : read ("use ".toList ++ join ['.'] [] ++ [';']) = none := by decide
      rw [hnone] at h
      cases h
    | cons w ws =>
      refine SourceUnit.isUnit_runs "use".toList ((' ', w) :: ws.map (('.', ·)))
        ⟨by decide, by decide⟩ (by decide) (by decide) (List.cons_ne_nil _ _) ?_ ?_ ?_
      · intro p hp
        rcases List.mem_cons.1 hp with rfl | hp
        · exact .inl rfl
        · obtain ⟨v, -, rfl⟩ := List.mem_map.1 hp
          exact .inr rfl
      · intro p hp
        rcases List.mem_cons.1 hp with rfl | hp
        · exact hparts w List.mem_cons_self
        · obtain ⟨v, hv, rfl⟩ := List.mem_map.1 hp
          exact hparts v (List.mem_cons_of_mem w hv)
      · have hkeyword : "use ".toList = "use".toList ++ [' '] := rfl
        rw [join_points, hkeyword]
        generalize "use".toList = k
        simp

theorem ofText_text (c : ContextClause) : UnitKind.ofText c.text = .context := by
  have hlibrary : "library ".toList = "library".toList ++ [' '] := rfl
  have huse : "use ".toList = "use".toList ++ [' '] := rfl
  have htext : ∃ k r, (k = "library".toList ∨ k = "use".toList) ∧ c.text = k ++ ' ' :: r := by
    cases c with
    | library name =>
      refine ⟨"library".toList, name.text ++ [';'], .inl rfl, ?_⟩
      unfold text
      rw [hlibrary]
      simp only [List.append_assoc, List.cons_append, List.nil_append]
    | use path all =>
      refine ⟨"use".toList, join ['.'] (path.map (·.text) ++ if all then ["all".toList] else [])
        ++ [';'], .inr rfl, ?_⟩
      unfold text
      rw [huse]
      simp only [List.append_assoc, List.cons_append, List.nil_append]
  obtain ⟨k, r, rfl | rfl, htext⟩ := htext
  · rw [htext, UnitKind.ofText_keyword ⟨by decide, by decide⟩]
    cases startsWith "body".toList r <;> decide
  · rw [htext, UnitKind.ofText_keyword ⟨by decide, by decide⟩]
    cases startsWith "body".toList r <;> decide

end ContextClause
end CanonicalVhdl
