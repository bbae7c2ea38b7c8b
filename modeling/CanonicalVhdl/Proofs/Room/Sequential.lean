import CanonicalVhdl.Proofs.Room.Statement
import CanonicalVhdl.Proofs.Sequential.ReadBack

/-!
# More room for sequential code

Every construct is selected by its first word, which no declaration starts with, so more room
changes nothing about which reading a piece of a region gets.  The guard on nesting can refuse a
text, but never makes another tree of it.

## Main definitions

* `Index.readSwapped`, `Choice.readSwapped` — the readers that try the expression first.

## Main statements

* `Choice.keeps_of_le`, `Branch.keeps` — the parts of selections.
* `Sequential.read_of_le` — more room never changes the region that is read.
* `Limits.Held.reads_alike` — the same in terms of the levels in use.
* `Range.never_expr` — no text is both a range and an expression, and the order does not matter.
-/

namespace CanonicalVhdl

open Text Token

variable {room room' : Nat} {t : Text}

/-! ## Choices and branches -/

theorem Choice.readSingle_keeps_of_le (h : room ≤ room') :
    Keeps (Choice.readSingle room) (Choice.readSingle room') := by
  intro t c hc
  simp only [Choice.readSingle] at hc ⊢
  split_ifs at hc ⊢
  · exact hc
  · split at hc
    · next r hr =>
      rw [Range.keeps (Expr.read_of_le h) _ _ hr]
      exact hc
    · obtain ⟨e, he, rfl⟩ := Option.map_eq_some_iff.1 hc
      have he' := Expr.read_of_le h _ _ he
      rw [Range.read_eq_none_of_expr he', he']
      rfl

theorem Choice.keeps_of_le (h : room ≤ room') : Keeps (Choice.read room) (Choice.read room') := by
  have halternative : Keeps (Choice.readAlternative room) (Choice.readAlternative room') := by
    intro t c hc
    rw [Choice.readAlternative] at hc ⊢
    cases hsingle : Choice.readSingle room t with
    | none =>
      rw [hsingle] at hc
      cases hc
    | some c' =>
      rw [hsingle] at hc
      rw [Choice.readSingle_keeps_of_le h _ _ hsingle]
      exact hc
  intro t c hc
  simp only [Choice.read] at hc ⊢
  split at hc
  · exact Choice.readSingle_keeps_of_le h _ _ hc
  · obtain ⟨members, hmembers, rfl⟩ := Option.map_eq_some_iff.1 hc
    rw [halternative.mapM hmembers]
    rfl

section Regions

variable {region region' : Text → Option Sequential} (hle : room ≤ room') (hregion : Keeps region region')

include hle hregion

theorem Branch.keeps : Keeps (Branch.readWith room region) (Branch.readWith room' region') := by
  intro t b hb
  simp only [Branch.readWith, Option.bind_eq_bind] at hb ⊢
  obtain ⟨rest, hrest, hb⟩ := Option.bind_eq_some_iff.1 hb
  obtain ⟨⟨choice, body⟩, hcut, hb⟩ := Option.bind_eq_some_iff.1 hb
  obtain ⟨c, hc, hb⟩ := Option.bind_eq_some_iff.1 hb
  obtain ⟨s, hs, hb⟩ := Option.bind_eq_some_iff.1 hb
  simp only [hrest, hcut, Choice.keeps_of_le hle _ _ hc, hregion _ _ hs, Option.bind_some, hb]

namespace Sequential

/-! ## Compound statements -/

theorem readConditionalWith_keeps {conditional conditional' : Text → Option Sequential}
    (hconditional : Keeps conditional conditional') :
    Keeps (readConditionalWith room region conditional)
      (readConditionalWith room' region' conditional') := by
  intro t s hs
  simp only [readConditionalWith, Option.bind_eq_bind] at hs ⊢
  obtain ⟨inner, hinner, hs⟩ := Option.bind_eq_some_iff.1 hs
  obtain ⟨⟨condition, branches⟩, hcut, hs⟩ := Option.bind_eq_some_iff.1 hs
  obtain ⟨e, he, hs⟩ := Option.bind_eq_some_iff.1 hs
  dsimp only at he hs
  simp only [hinner, hcut, Expr.read_of_le hle _ _ he, Option.bind_some]
  split at hs
  · obtain ⟨body, hbody, rfl⟩ := Option.map_eq_some_iff.1 hs
    rw [hregion _ _ hbody]
    rfl
  · obtain ⟨body, hbody, hs⟩ := Option.bind_eq_some_iff.1 hs
    obtain ⟨rest, hrest, hs⟩ := Option.bind_eq_some_iff.1 hs
    simp only [hregion _ _ hbody, hconditional _ _ hrest, Option.bind_some, hs]
  · obtain ⟨body, hbody, hs⟩ := Option.bind_eq_some_iff.1 hs
    obtain ⟨rest, hrest, hs⟩ := Option.bind_eq_some_iff.1 hs
    simp only [hregion _ _ hbody, hregion _ _ hrest, Option.bind_some, hs]

theorem readSelectionWith_keeps :
    Keeps (readSelectionWith room region) (readSelectionWith room' region') := by
  intro t s hs
  simp only [readSelectionWith, Option.bind_eq_bind] at hs ⊢
  obtain ⟨inner, hinner, hs⟩ := Option.bind_eq_some_iff.1 hs
  obtain ⟨⟨selector, branches⟩, hcut, hs⟩ := Option.bind_eq_some_iff.1 hs
  obtain ⟨e, he, hs⟩ := Option.bind_eq_some_iff.1 hs
  obtain ⟨⟨i, k⟩, hclause, hs⟩ := Option.bind_eq_some_iff.1 hs
  obtain ⟨hlead, hs⟩ := Option.ite_none_left_eq_some.1 hs
  obtain ⟨parts, hparts, hs⟩ := Option.bind_eq_some_iff.1 hs
  obtain ⟨bs, hbs, hs⟩ := Option.bind_eq_some_iff.1 hs
  simp only [hinner, hcut, Expr.read_of_le hle _ _ he, hclause, if_neg hlead, hparts,
    (Branch.keeps hle hregion).mapM hbs, Option.bind_some, hs]

theorem readLoopWith_keeps : Keeps (readLoopWith room region) (readLoopWith room' region') := by
  intro t s hs
  simp only [readLoopWith, Option.bind_eq_bind] at hs ⊢
  obtain ⟨inner, hinner, hs⟩ := Option.bind_eq_some_iff.1 hs
  obtain ⟨⟨parameter, range, body⟩, hcut, hs⟩ := Option.bind_eq_some_iff.1 hs
  obtain ⟨n, hn, hs⟩ := Option.bind_eq_some_iff.1 hs
  obtain ⟨r, hr, hs⟩ := Option.bind_eq_some_iff.1 hs
  obtain ⟨s', hs', hs⟩ := Option.bind_eq_some_iff.1 hs
  simp only [hinner, hcut, hn, Range.keeps (Expr.read_of_le hle) _ _ hr, hregion _ _ hs',
    Option.bind_some, hs]

end Sequential

end Regions

/-! ## Regions -/

theorem Text.mapM_of_mem {α β : Type} {read read' : α → Option β} {as : List α} {bs : List β}
    (h : ∀ a ∈ as, ∀ b, read a = some b → read' a = some b) (hbs : as.mapM read = some bs) :
    as.mapM read' = some bs := by
  rw [← hbs]
  refine (mapM_congr fun a ha => ?_).symm
  obtain ⟨b, hb⟩ := (mem_mapM hbs).1 a ha
  rw [hb, h a ha b hb]

/-- A piece of code ends with its semicolon. -/
def Piece.IsClosed : Piece → Prop
  | .code t _ => t.getLast? = some ';'
  | .comment _ => True

theorem Text.isClosed_of_piecesFrom? {found ps : List Piece} {fuel : Nat}
    (hfound : ∀ p ∈ found, p.IsClosed) (hps : piecesFrom? found fuel t = some ps) :
    ∀ p ∈ ps, p.IsClosed := by
  induction fuel generalizing found t with
  | zero => cases hps
  | succ fuel ih =>
    have next : ∀ (p : Piece) {u : Text}, p.IsClosed → piecesFrom? (p :: found) fuel u = some ps →
        ∀ p ∈ ps, p.IsClosed := fun p _ hp hps => ih (List.forall_mem_cons.2 ⟨hp, hfound⟩) hps
    simp only [piecesFrom?] at hps
    split at hps
    · obtain rfl := Option.some.inj hps
      exact fun p hp => hfound p (List.mem_reverse.1 hp)
    · exact next (.comment _) trivial hps
    · split at hps
      · cases hps
      · next n hn =>
        have hclosed : ∀ trailer, Piece.IsClosed (.code ((t.dropWhile isAsciiBlank).take n) trailer) := by
          obtain ⟨s, u, hsplit, rfl, -⟩ := exists_of_extentFrom hn
          intro trailer
          rw [hsplit, Piece.IsClosed, Nat.zero_add, List.take_append]
          simp
        split at hps
        · exact next _ (hclosed _) hps
        · exact next _ (hclosed _) hps

namespace Sequential

/-- Nothing but a declaration starts with a barred word that opens no other statement. -/
theorem readElement_eq_none {w : Text} (hw : IsBarred w) (halpha : w.head?.any Char.isAlpha = true)
    (hne : ∀ v ∈ Statement.openingWords, sameWord w v = false)
    (h : standsAt w none (trimStart t) = true) (hnone : ObjectDecl.read room (trim t) = none) :
    readElement room t = none := by
  have hrun := (hw.word halpha).1
  have other : ∀ v ∈ Statement.openingWords, startsWith v t = false := by
    intro v hv
    obtain ⟨halpha', hrun'⟩ := Statement.openingWords_facts hv
    exact startsWith_eq_false halpha hrun halpha' hrun' (hne v hv) h
  rw [readElement, other _ (by decide), other _ (by decide), other _ (by decide),
    Statement.read_eq_none hw halpha hne (standsAt_trimEnd halpha hrun h) hnone]
  rfl

/-- No construct starts like a declaration. -/
theorem readElement_eq_none_of_declaration {d : ObjectDecl} (hclosed : t.getLast? = some ';')
    (hd : ObjectDecl.read room' t = some d) (hnone : ObjectDecl.read room t = none) :
    readElement room t = none := by
  obtain ⟨c, hstands⟩ := ObjectDecl.exists_keyword hd
  obtain ⟨hbarred, halpha, -, hne⟩ := c.keyword_facts
  obtain ⟨u, rfl⟩ := List.getLast?_eq_some_iff.1 hclosed
  have htrim : trim (u ++ [';']) = trimStart (u ++ [';']) := by
    rw [trim, trimEnd_eq_self]
    rw [trimStart, List.dropWhile_append]
    split
    · rfl
    · rw [List.getLast?_concat]
      rfl
  have hidem : trimStart (trimStart (u ++ [';'])) = trimStart (u ++ [';']) := by
    rw [trimStart, trimStart, List.dropWhile_idempotent]
  rw [htrim] at hstands
  refine readElement_eq_none hbarred halpha hne hstands ?_
  rw [ObjectDecl.read, htrim, hidem]
  exact hnone

theorem readPieceWith_keeps (h : room ≤ room') {statement : Text → Option Sequential}
    (hstatement : Keeps (readElement room) statement) {p : Piece} (hp : p.IsClosed) {ss : List Sequential}
    (hss : readPieceWith room (readElement room) p = some ss) : readPieceWith room' statement p = some ss := by
  cases p with
  | comment c => exact hss
  | code code trailer =>
    simp only [readPieceWith, ObjectDecl.readWithTrailer] at hss ⊢
    cases hd : ObjectDecl.read room code with
    | some d =>
      rw [hd] at hss
      rw [ObjectDecl.keeps_of_le h _ _ hd]
      exact hss
    | none =>
      rw [hd] at hss
      simp only [Option.map_none, Option.bind_eq_bind] at hss
      obtain ⟨element, helement, hss⟩ := Option.bind_eq_some_iff.1 hss
      have hd' : ObjectDecl.read room' code = none := by
        rw [Option.eq_none_iff_forall_ne_some]
        intro d hd'
        rw [readElement_eq_none_of_declaration hp hd' hd] at helement
        cases helement
      rw [hd']
      simp only [Option.map_none, Option.bind_eq_bind, hstatement _ _ helement, Option.bind_some]
      exact hss

theorem readRegionWith_keeps (h : room ≤ room') {statement : Text → Option Sequential}
    (hstatement : Keeps (readElement room) statement) :
    Keeps (readRegionWith room (readElement room)) (readRegionWith room' statement) := by
  intro t s hs
  simp only [readRegionWith, Option.bind_eq_bind] at hs ⊢
  obtain ⟨hfits, hs⟩ := Option.ite_none_left_eq_some.1 hs
  obtain ⟨ps, hps, hs⟩ := Option.bind_eq_some_iff.1 hs
  obtain ⟨elements, helements, hs⟩ := Option.bind_eq_some_iff.1 hs
  have hclosed := isClosed_of_piecesFrom? (fun p hp => absurd hp List.not_mem_nil) hps
  have helements' := mapM_of_mem (fun p hp ss => readPieceWith_keeps h hstatement (hclosed p hp)) helements
  rw [if_neg hfits, hps, Option.bind_some, helements', Option.bind_some, hs]

/-- **More room never changes what is read**, for regions and for compound statements. -/
theorem keeps_of_le : ∀ {room room' : Nat}, room ≤ room' → Keeps (read room) (read room')
    ∧ Keeps (readConditional room) (readConditional room')
    ∧ Keeps (readSelection room) (readSelection room') ∧ Keeps (readLoop room) (readLoop room')
  | 0, _, _ => by
    refine ⟨?_, ?_, ?_, ?_⟩ <;> intro t s hs <;> cases hs
  | room + 1, room' + 1, hle => by
    have h := Nat.le_of_succ_le_succ hle
    obtain ⟨hregion, hconditional, hselection, hloop⟩ := keeps_of_le h
    have hother : Keeps (readElement room) (readElement room') := by
      intro t s hs
      rw [readElement] at hs ⊢
      split_ifs at hs ⊢
      · exact hconditional _ _ hs
      · exact hselection _ _ hs
      · exact hloop _ _ hs
      · obtain ⟨statement, hstatement, rfl⟩ := Option.map_eq_some_iff.1 hs
        rw [Statement.keeps_of_le h _ _ hstatement]
        rfl
    refine ⟨fun t s hs => ?_, fun t s hs => ?_, fun t s hs => ?_, fun t s hs => ?_⟩
    · rw [read_succ] at hs ⊢
      exact readRegionWith_keeps h hother _ _ hs
    · rw [readConditional] at hs ⊢
      exact readConditionalWith_keeps h hregion hconditional _ _ hs
    · rw [readSelection] at hs ⊢
      exact readSelectionWith_keeps h hregion _ _ hs
    · rw [readLoop] at hs ⊢
      exact readLoopWith_keeps h hregion _ _ hs

theorem read_of_le (h : room ≤ room') : Keeps (read room) (read room') :=
  (keeps_of_le h).1

end Sequential

namespace Limits.Held

theorem room_le_room {held held' : Held} (h : held.levels ≤ held'.levels) : held'.room ≤ held.room :=
  Nat.sub_le_sub_left h depth

/-- **With fewer levels in use the same tree is read**, of expressions and of sequential code: a
lack of levels can refuse a text, but makes no other tree of it. -/
theorem reads_alike {held held' : Held} (h : held.levels ≤ held'.levels) (t : Text) :
    (∀ e, Expr.read held'.room t = some e → Expr.read held.room t = some e)
      ∧ ∀ s, Sequential.read held'.room t = some s → Sequential.read held.room t = some s :=
  ⟨fun _ he => Expr.read_of_le (room_le_room h) _ _ he,
    fun _ hs => Sequential.read_of_le (room_le_room h) _ _ hs⟩

/-- With four and with six levels left these texts are read, and they are read alike with none in
use. -/
theorem reads_alike_near_limit :
    (∃ e, Expr.read (⟨124, by decide⟩ : Held).room "a + b".toList = some e
        ∧ Expr.read none.room "a + b".toList = some e)
      ∧ ∃ s, Sequential.read (⟨122, by decide⟩ : Held).room "if a then null; end if;".toList = some s
        ∧ Sequential.read none.room "if a then null; end if;".toList = some s := by
  obtain ⟨e, he⟩ := Option.isSome_iff_exists.1 (show
    (Expr.read (⟨124, by decide⟩ : Held).room "a + b".toList).isSome = true by decide +kernel)
  obtain ⟨s, hs⟩ := Option.isSome_iff_exists.1 (show
    (Sequential.read (⟨122, by decide⟩ : Held).room "if a then null; end if;".toList).isSome = true
      by decide +kernel)
  have hfour : none.levels ≤ (⟨124, by decide⟩ : Held).levels := Nat.zero_le _
  have hsix : none.levels ≤ (⟨122, by decide⟩ : Held).levels := Nat.zero_le _
  exact ⟨⟨e, he, (reads_alike hfour _).1 e he⟩, ⟨s, hs, (reads_alike hsix _).2 s hs⟩⟩

end Limits.Held

/-! ## Ranges and expressions in either order

An index of a vector and a choice of a selection are read as a range before they are read as an
expression.  No text is both, so that the readers that try the expression first are the same
functions. -/

/-- Reads an index, with the expression tried before the range. -/
def Index.readSwapped (room : Nat) (t : Text) : Option Index :=
  let t := trim t
  if sameWord t "others".toList then some .others
  else
    match Expr.read room t with
    | some e => some (.position e)
    | none => (Range.read room t).map .slice

namespace Choice

/-- Reads a choice without alternatives, with the expression tried before the range. -/
def readSingleSwapped (room : Nat) (t : Text) : Option Choice :=
  let t := trim t
  if sameWord t "others".toList then some others
  else
    match Expr.read room t with
    | some e => some (value e)
    | none => (Range.read room t).map range

/-- Reads one of several alternatives, with the expression tried before the range. -/
def readAlternativeSwapped (room : Nat) (t : Text) : Option Choice :=
  match readSingleSwapped room t with
  | some others => none
  | choice => choice

/-- Reads a choice, with expressions tried before ranges. -/
def readSwapped (room : Nat) (t : Text) : Option Choice :=
  match splitOuter '|' (trim t) with
  | [single] => readSingleSwapped room single
  | several => (several.mapM (readAlternativeSwapped room)).map alternatives

end Choice

/-! ## Two readings that exclude each other -/

theorem Range.read_or_expr_eq_none (room room' : Nat) (t : Text) :
    Range.read room t = none ∨ Expr.read room' t = none := by
  by_cases hexpr : Expr.read room' t = none
  · exact .inr hexpr
  · obtain ⟨e, he⟩ := Option.ne_none_iff_exists'.1 hexpr
    exact .inl (Range.read_eq_none_of_expr he)

theorem Index.read_eq_readSwapped (room : Nat) (t : Text) :
    Index.read room t = Index.readSwapped room t := by
  have hrange : Range.readWith (Expr.read room) = Range.read room := rfl
  by_cases hothers : sameWord (trim t) "others".toList = true
  · simp only [read, readWith, readSwapped, if_pos hothers]
  · simp only [read, readWith, readSwapped, if_neg hothers, hrange]
    rcases Range.read_or_expr_eq_none room room (trim t) with hrange | hexpr
    · rw [hrange]
      cases Expr.read room (trim t) <;> rfl
    · rw [hexpr]
      cases Range.read room (trim t) <;> rfl

namespace Choice

theorem readSingle_eq_readSingleSwapped (room : Nat) (t : Text) :
    readSingle room t = readSingleSwapped room t := by
  by_cases hothers : sameWord (trim t) "others".toList = true
  · simp only [readSingle, readSingleSwapped, if_pos hothers]
  · simp only [readSingle, readSingleSwapped, if_neg hothers]
    rcases Range.read_or_expr_eq_none room room (trim t) with hrange | hexpr
    · rw [hrange]
      cases Expr.read room (trim t) <;> rfl
    · rw [hexpr]
      cases Range.read room (trim t) <;> rfl

theorem read_eq_readSwapped (room : Nat) (t : Text) : read room t = readSwapped room t := by
  have hsingle : readSingle room = readSingleSwapped room :=
    funext (readSingle_eq_readSingleSwapped room)
  have halternative : readAlternative room = readAlternativeSwapped room := by
    funext u
    exact congrArg (fun choice : Option Choice =>
      match choice with
      | some others => none
      | choice => choice) (readSingle_eq_readSingleSwapped room u)
  exact congrArg₂ (fun single alternative =>
    match splitOuter '|' (trim t) with
    | [text] => single text
    | several => (several.mapM alternative).map alternatives) hsingle halternative

end Choice

/-- **A range is never an expression.**  No text is read as both, whatever room each reader has,
and the readers of indices and of choices give the same result in whichever order they try the
two. -/
theorem Range.never_expr (room room' : Nat) (t : Text) :
    ¬ ((Range.read room t).isSome ∧ (Expr.read room' t).isSome) ∧
      Index.read room t = Index.readSwapped room t ∧
      Choice.read room t = Choice.readSwapped room t := by
  refine ⟨?_, ?_, ?_⟩
  · intro ⟨hrange, hexpr⟩
    rcases Range.read_or_expr_eq_none room room' t with hnone | hnone
    · rw [hnone] at hrange
      cases hrange
    · rw [hnone] at hexpr
      cases hexpr
  · exact Index.read_eq_readSwapped room t
  · exact Choice.read_eq_readSwapped room t

end CanonicalVhdl
