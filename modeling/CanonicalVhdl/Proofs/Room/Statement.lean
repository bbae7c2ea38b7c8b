import CanonicalVhdl.Proofs.Room.Expr
import CanonicalVhdl.Statement.Basic

/-!
# More room for statements

A declaration of an object starts with the word of its class.  That word is reserved, so no other
statement starts with it: a text that is read as a statement because there was too little room
for a declaration does not exist.

## Main statements

* `TypeMark.keeps_of_le`, `ObjectDecl.keeps_of_le` — types and declarations.
* `Statement.read_eq_none` — no other statement starts like a declaration.
* `Statement.keeps_of_le` — simple statements.
-/

namespace CanonicalVhdl

open Text Token

variable {room room' : Nat} {t : Text}

/-! ## Types -/

/-- A name is no type with a range. -/
theorem BuiltinType.readConstrained_eq_none (ht : IsRun t) :
    BuiltinType.readConstrained room t = none := by
  have hopen : t.takeWhile (· != '(') = t := by
    rw [List.takeWhile_eq_self_iff]
    rintro c hc
    rw [bne_iff_ne]
    rintro rfl
    exact ht.not_mem (by decide) hc
  rw [readConstrained]
  split
  · next rest hrest =>
    obtain ⟨g, x, g', hg, hx, hg', hr, hident, hsplit⟩ := exists_of_afterWord? hrest
    obtain rfl : rest = [] := by
      cases hgap : g' ++ rest with
      | nil => exact (List.append_eq_nil_iff.1 hgap).2
      | cons c u =>
        rw [hgap] at hident hsplit
        have hc : isIdentChar c = true := List.all_eq_true.1 ht.ident c (by simp [hsplit])
        simp [hc] at hident
    rfl
  · simp [hopen, parenthesised?]

theorem BuiltinType.keeps_of_le (h : room ≤ room') :
    Keeps (BuiltinType.read room) (BuiltinType.read room') := by
  intro t type htype
  simp only [BuiltinType.read] at htype ⊢
  obtain ⟨hfits, htype⟩ := Option.ite_none_left_eq_some.1 htype
  rw [if_neg hfits]
  split at htype
  · exact htype
  · simp only [readConstrained, Option.bind_eq_bind] at htype ⊢
    split at htype
    · obtain ⟨range, hrange, htype⟩ := Option.bind_eq_some_iff.1 htype
      obtain ⟨r, hr, rfl⟩ := Option.map_eq_some_iff.1 htype
      rw [hrange, Option.bind_some, Range.keeps (Expr.read_of_le h) _ _ hr]
      rfl
    · obtain ⟨kind, hkind, htype⟩ := Option.bind_eq_some_iff.1 htype
      obtain ⟨⟨inner, after⟩, hgroup, htype⟩ := Option.bind_eq_some_iff.1 htype
      obtain ⟨hafter, htype⟩ := Option.ite_none_right_eq_some.1 htype
      obtain ⟨r, hr, rfl⟩ := Option.map_eq_some_iff.1 htype
      rw [hkind, Option.bind_some, hgroup, Option.bind_some, if_pos hafter,
        Range.keeps (Expr.read_of_le h) _ _ hr]
      rfl

/-- A name without comments. -/
theorem Ident.withoutComments_of_trim {n : Ident} (h : Ident.ofText? (trim t) = some n) :
    withoutComments t = t := by
  obtain ⟨g, g', hg, hg', ht⟩ := exists_pad_trim t
  have hplain : t.all Text.isPlain = true := by
    rw [ht, ← Ident.of_ofText? h, List.all_append, List.all_append, all_isPlain_of_blank hg,
      all_isPlain_of_ident n.isRun.ident, all_isPlain_of_blank hg']
    rfl
  rw [withoutComments, commentStart?, commentFrom?_of_plain hplain]
  rfl

theorem TypeMark.keeps_of_le (h : room ≤ room') : Keeps (TypeMark.read room) (TypeMark.read room') := by
  intro t type htype
  simp only [TypeMark.read] at htype ⊢
  split at htype
  · next builtin hbuiltin =>
    rw [BuiltinType.keeps_of_le h _ _ hbuiltin]
    exact htype
  · next hnone =>
    obtain ⟨n, hn, rfl⟩ := Option.map_eq_some_iff.1 htype
    have hnone' : BuiltinType.read room' t = none := by
      have hrun : IsRun (trim t) := Ident.of_ofText? hn ▸ n.isRun
      simp only [BuiltinType.read, Ident.withoutComments_of_trim hn,
        BuiltinType.readConstrained_eq_none hrun] at hnone ⊢
      exact hnone
    rw [hnone', hn]
    rfl

/-! ## Declarations -/

theorem TypedName.keeps_of_le (h : room ≤ room') (name : Ident) :
    Keeps (TypedName.readTyped room name) (TypedName.readTyped room' name) := by
  intro t n hn
  simp only [TypedName.readTyped, Option.bind_eq_bind] at hn ⊢
  split at hn
  · obtain ⟨type, htype, hn⟩ := Option.bind_eq_some_iff.1 hn
    obtain ⟨default, hdefault, hn⟩ := Option.bind_eq_some_iff.1 hn
    simp only [TypeMark.keeps_of_le h _ _ htype, Expr.read_of_le h _ _ hdefault, Option.bind_some] at hn ⊢
    exact hn
  · obtain ⟨typed, htyped, hn⟩ := Option.bind_eq_some_iff.1 hn
    obtain ⟨type, htype, rfl⟩ := Option.map_eq_some_iff.1 htyped
    simp only [TypeMark.keeps_of_le h _ _ htype, Option.map_some, Option.bind_some] at hn ⊢
    exact hn

theorem ObjectDecl.keeps_of_le (h : room ≤ room') :
    Keeps (ObjectDecl.read room) (ObjectDecl.read room') := by
  intro t d hd
  simp only [ObjectDecl.read] at hd ⊢
  obtain ⟨c, hc, hd⟩ := Option.bind_eq_some_iff.1 hd
  rw [hc, Option.bind_some]
  simp only [readAs, Option.bind_eq_bind] at hd ⊢
  obtain ⟨hfits, hd⟩ := Option.ite_none_left_eq_some.1 hd
  rw [if_neg hfits]
  obtain ⟨code, hcode, hd⟩ := Option.bind_eq_some_iff.1 hd
  obtain ⟨body, hbody, hd⟩ := Option.bind_eq_some_iff.1 hd
  obtain ⟨⟨name, rest⟩, hname, hd⟩ := Option.bind_eq_some_iff.1 hd
  obtain ⟨typed, htyped, hd⟩ := Option.bind_eq_some_iff.1 hd
  simp only [hcode, hbody, hname, Option.bind_some, TypedName.keeps_of_le h _ _ _ htyped, hd]

/-! ## Statements -/

/-- The words that statements start with, other than assignments and declarations. -/
def Statement.openingWords : List Text :=
  ["null", "return", "if", "case", "for"].map String.toList

theorem Statement.openingWords_facts {w : Text} (hw : w ∈ openingWords) :
    w.head?.any Char.isAlpha = true ∧ IsRun w := by
  have key : ∀ w ∈ openingWords, w.head?.any Char.isAlpha = true ∧ IsRun w := by decide
  exact key w hw

/-- The words that declarations start with. -/
theorem ObjectClass.keyword_facts (c : ObjectClass) : IsBarred c.keyword.toList
    ∧ c.keyword.toList.head?.any Char.isAlpha = true ∧ IsRun c.keyword.toList
    ∧ ∀ w ∈ Statement.openingWords, sameWord c.keyword.toList w = false := by
  cases c <;> decide

/-- At most one word stands at the head of a text. -/
theorem Text.sameWord_of_standsAt {v w : Text} (hv : v.head?.any Char.isAlpha = true) (hrun : IsRun v)
    (hw : w.head?.any Char.isAlpha = true) (hrun' : IsRun w) (h : standsAt v none t = true)
    (h' : standsAt w none t = true) : sameWord v w = true := by
  obtain ⟨x, y, rfl, hx, hy, -⟩ := exists_of_standsAt hv h
  obtain ⟨x', y', heq, hx', hy', -⟩ := exists_of_standsAt hw h'
  obtain ⟨rfl, -⟩ := run_unique heq (hrun.of_sameWord hx).ident (hrun'.of_sameWord hx').ident hy hy'
  rw [sameWord_iff] at hx hx' ⊢
  rw [hx, hx']

theorem Text.standsAt_of_startsWith {w : Text} (hw : w.head?.any Char.isAlpha = true)
    (h : startsWith w t = true) : standsAt w none (trimStart t) = true := by
  rw [startsWith, afterWord?, Option.isSome_map] at h
  rw [standsAt_alpha hw, h]

theorem Text.standsAt_trimEnd {w : Text} (hw : w.head?.any Char.isAlpha = true) (hrun : IsRun w)
    (h : standsAt w none t = true) : standsAt w none (trimEnd t) = true := by
  obtain ⟨g, hg, ht⟩ := exists_pad_trimEnd t
  rw [ht] at h
  refine standsAt_word_cut hw hrun h ?_
  have := Expr.head?_gap (y := []) hg rfl
  rwa [List.append_nil] at this

/-- A text starts with one word only. -/
theorem Text.startsWith_eq_false {v w : Text} (hv : v.head?.any Char.isAlpha = true) (hrun : IsRun v)
    (hw : w.head?.any Char.isAlpha = true) (hrun' : IsRun w) (hne : sameWord v w = false)
    (h : standsAt v none (trimStart t) = true) : startsWith w t = false := by
  rw [Bool.eq_false_iff]
  intro hstarts
  have := sameWord_of_standsAt hv hrun hw hrun' h (standsAt_of_startsWith hw hstarts)
  rw [hne] at this
  cases this

/-- A barred word at the head of a text is at the head of its code. -/
theorem Text.IsBarred.standsAt_withoutComments {w : Text} (hw : IsBarred w)
    (h : standsAt w none t = true) : standsAt w none (withoutComments t) = true := by
  rw [withoutComments]
  split
  · obtain ⟨a, b, v, rfl, hplain, -⟩ := hw.isPlainStart h
    obtain ⟨s', u', hstrips⟩ := exists_strips hplain (by simpa using hw.head_not_blank h) 0 [] 0 0
      (Nat.le_refl _) .here
    obtain ⟨x, x', p, hsplit, rfl, hnil, -⟩ := hstrips.before
    obtain ⟨rfl, rfl⟩ := List.append_eq_nil_iff.1 hsplit.symm
    have hstrip := hstrips.split
    rw [hnil rfl] at hstrip
    rw [List.nil_append] at hstrip
    rw [hstrip]
    exact standsAt_strips hw h hstrips.behind
  · exact h

/-- A declaration starts with the word of its class. -/
theorem ObjectDecl.exists_keyword {d : ObjectDecl} (h : ObjectDecl.read room t = some d) :
    ∃ c : ObjectClass, standsAt c.keyword.toList none (trim t) = true := by
  simp only [ObjectDecl.read] at h
  obtain ⟨c, hc, -⟩ := Option.bind_eq_some_iff.1 h
  obtain ⟨-, halpha, hrun, -⟩ := c.keyword_facts
  have hstarts : startsWith c.keyword.toList (Text.trimStart t) = true :=
    List.find?_some (p := fun c : ObjectClass => startsWith c.keyword.toList (Text.trimStart t)) hc
  have hstands := standsAt_of_startsWith halpha hstarts
  rw [trimStart, trimStart, List.dropWhile_idempotent] at hstands
  exact ⟨c, standsAt_trimEnd halpha hrun hstands⟩

/-- The first mark of an assignment stands where it is found. -/
theorem Text.mem_outerMatches_of_firstAssignment? {i : Nat} {kind : AssignmentKind}
    (h : firstAssignment? t = some (i, kind)) :
    ∃ p ∈ ["<=".toList, ":=".toList], i ∈ outerMatches p t := by
  have hmem : ∀ {p j}, outerMatch? p t = some j → j ∈ outerMatches p t := fun hj => by
    rw [outerMatch?_eq_head?] at hj
    exact List.mem_of_head? hj
  rw [firstAssignment?] at h
  split at h
  · next j k hj hk =>
    obtain h := Option.some.inj h
    split at h
    · obtain ⟨rfl, -⟩ := Prod.mk.inj h
      exact ⟨_, by simp, hmem hj⟩
    · obtain ⟨rfl, -⟩ := Prod.mk.inj h
      exact ⟨_, by simp, hmem hk⟩
  · next j hj _ =>
    obtain ⟨rfl, -⟩ := Prod.mk.inj (Option.some.inj h)
    exact ⟨_, by simp, hmem hj⟩
  · next j _ hj =>
    obtain ⟨rfl, -⟩ := Prod.mk.inj (Option.some.inj h)
    exact ⟨_, by simp, hmem hj⟩
  · cases h

/-- What stands before a mark is no target if it starts with a barred word. -/
theorem Reference.read_eq_none_of_hit {w p s u : Text} (hw : IsBarred w)
    (halpha : w.head?.any Char.isAlpha = true) (hp : p ∈ symbolPatterns) (hhit : Hit p none t s u)
    (h : standsAt w none t = true) : Reference.read room s = none := by
  have hu : u.head?.any isIdentChar = false := by
    obtain ⟨y, hy⟩ := List.isPrefixOf_iff_prefix.1
      ((standsAt_symbol hp _ _).symm.trans hhit.stands)
    obtain ⟨a, q, rfl, -, ha, -⟩ := symbolPatterns_head hp
    rw [← hy]
    simpa using ha
  rw [hhit.split] at h
  rw [Option.eq_none_iff_forall_ne_some]
  intro r hr
  have hstart : Hit w none s [] s :=
    ⟨(List.nil_append _).symm, .here, standsAt_word_cut halpha (hw.word halpha).1 h hu⟩
  exact not_dangles_nil ((Expr.shaped_of_reference hr).hit hw hstart).2

/-- No comment starts with a barred word. -/
theorem Comment.read_eq_none_of_barred {w : Text} (hw : IsBarred w)
    (h : standsAt w none (trim t) = true) : Comment.read t = none := by
  simp only [Comment.read]
  split
  · rfl
  · split
    · next rest hhyphens =>
      rw [hhyphens, standsAt_other hw.isPattern _ (by decide) (by decide)] at h
      cases h
    · rfl

namespace Statement

section Barred

variable {w : Text} (hw : IsBarred w) (halpha : w.head?.any Char.isAlpha = true)
  (hne : ∀ v ∈ openingWords, sameWord w v = false)

include hw halpha hne

/-- Nothing but a declaration starts with a barred word that opens no other statement. -/
theorem readBody_eq_none (h : standsAt w none t = true) : readBody room t = none := by
  have hrun := (hw.word halpha).1
  have hreturn : startsWith "return".toList t = false := by
    have hmem : "return".toList ∈ openingWords := by decide
    obtain ⟨halpha', hrun'⟩ := openingWords_facts hmem
    refine startsWith_eq_false halpha hrun halpha' hrun' (hne _ hmem) ?_
    rwa [trimStart_eq_self (hw.head_not_blank h)]
  rw [readBody]
  split
  · next hnull =>
    have hstands : standsAt "null".toList none (t ++ []) = true :=
      standsAt_of_word (by decide) (by decide) (by rwa [sameWord_comm]) rfl rfl
    rw [List.append_nil] at hstands
    have := sameWord_of_standsAt halpha hrun (by decide) (by decide) h hstands
    rw [hne _ (by decide)] at this
    cases this
  · split
    · next value hvalue =>
      rw [startsWith, hvalue] at hreturn
      cases hreturn
    · simp only [Option.bind_eq_bind, Option.bind_eq_none_iff]
      rintro ⟨i, kind⟩ hfirst target htarget
      exfalso
      obtain ⟨p, hp, hi⟩ := mem_outerMatches_of_firstAssignment? hfirst
      have hsubset : ["<=".toList, ":=".toList] ⊆ symbolPatterns := by decide
      have hsymbol := hsubset hp
      obtain ⟨s, u, hhit, rfl⟩ := exists_hit (.inr hsymbol) hi
      have htake : t.take s.length = s := by rw [hhit.split, List.take_left]
      rw [htake, Reference.read_eq_none_of_hit hw halpha hsymbol hhit h] at htarget
      cases htarget

theorem read_eq_none (h : standsAt w none (trim t) = true)
    (hnone : ObjectDecl.read room (trim t) = none) : read room t = none := by
  have hrun := (hw.word halpha).1
  have hcomment : Comment.read (trim t) = none :=
    Comment.read_eq_none_of_barred hw (by rwa [trim_eq_self (trimmed_trim t)])
  simp only [read, hcomment, hnone, Option.bind_eq_bind]
  split_ifs
  · rfl
  · rfl
  · rw [Option.bind_eq_none_iff]
    intro body hbody
    have hcode := hw.standsAt_withoutComments h
    rw [eq_of_dropFinal? hbody] at hcode
    exact readBody_eq_none hw halpha hne
      (standsAt_trimEnd halpha hrun (standsAt_word_cut halpha hrun hcode rfl))

end Barred

theorem readBody_keeps_of_le (h : room ≤ room') : Keeps (readBody room) (readBody room') := by
  intro t s hs
  rw [readBody] at hs ⊢
  split_ifs at hs ⊢
  · exact hs
  · split at hs
    · split_ifs at hs ⊢
      · exact hs
      · obtain ⟨e, he, rfl⟩ := Option.map_eq_some_iff.1 hs
        rw [Expr.read_of_le h _ _ he]
        rfl
    · simp only [Option.bind_eq_bind] at hs ⊢
      obtain ⟨⟨i, kind⟩, hfirst, hs⟩ := Option.bind_eq_some_iff.1 hs
      obtain ⟨target, htarget, hs⟩ := Option.bind_eq_some_iff.1 hs
      obtain ⟨value, hvalue, hs⟩ := Option.bind_eq_some_iff.1 hs
      simp only [hfirst, Option.bind_some, Reference.keeps (Expr.read_of_le h) _ _ htarget,
        Expr.read_of_le h _ _ hvalue, hs]

theorem keeps_of_le (h : room ≤ room') : Keeps (read room) (read room') := by
  intro t s hs
  cases hd : ObjectDecl.read room (trim t) with
  | some d =>
    simp only [read, hd, ObjectDecl.keeps_of_le h _ _ hd] at hs ⊢
    exact hs
  | none =>
    have hd' : ObjectDecl.read room' (trim t) = none := by
      rw [Option.eq_none_iff_forall_ne_some]
      intro d hd'
      obtain ⟨c, hstands⟩ := ObjectDecl.exists_keyword hd'
      rw [trim_eq_self (trimmed_trim t)] at hstands
      obtain ⟨hbarred, halpha, -, hne⟩ := c.keyword_facts
      rw [read_eq_none hbarred halpha hne hstands hd] at hs
      cases hs
    simp only [read, hd, hd', Option.bind_eq_bind] at hs ⊢
    obtain ⟨hfits, hs⟩ := Option.ite_none_left_eq_some.1 hs
    rw [if_neg hfits]
    split at hs
    · exact hs
    · obtain ⟨hconstruct, hs⟩ := Option.ite_none_left_eq_some.1 hs
      obtain ⟨body, hbody, hs⟩ := Option.bind_eq_some_iff.1 hs
      rw [if_neg hconstruct, hbody, Option.bind_some, readBody_keeps_of_le h _ _ hs]

end Statement

end CanonicalVhdl
