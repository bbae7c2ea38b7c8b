import CanonicalVhdl.Proofs.Case.Concurrent
import CanonicalVhdl.Proofs.Comment.Sequential

/-!
# Concurrent code of texts without comments

Labels, sensitivity lists and maps start with no tick, so a process or a generated region of a
text without comments has its declarations and its body in texts without comments.

## Main statements

* `ProcessStatement.comments_eq_nil`, `Concurrent.comments_eq_nil` — concurrent code in a text
  without comments keeps none.
-/

namespace CanonicalVhdl

open Text

/-! ## Labels -/

theorem Text.all_isPlain_of_ofText? {t : Text} {n : Ident} (h : Ident.ofText? t = some n) :
    t.all isPlain = true ∧ t ≠ [] := by
  rw [← Ident.of_ofText? h]
  exact ⟨all_isPlain_of_ident n.isRun.ident, n.isRun.ne_nil⟩

/-- An identifier is plain code, and so are the blanks around it. -/
theorem Text.all_isPlain_of_trim {t : Text} {n : Ident} (h : Ident.ofText? (trim t) = some n) :
    t.all isPlain = true ∧ t ≠ [] := by
  obtain ⟨g, g', hg, hg', ht⟩ := exists_pad_trim t
  obtain ⟨hplain, hne⟩ := all_isPlain_of_ofText? h
  refine ⟨?_, fun hnil => hne (by rw [hnil]; rfl)⟩
  rw [ht, List.all_append, List.all_append, Bool.and_eq_true, Bool.and_eq_true]
  exact ⟨⟨all_isPlain_of_blank hg, hplain⟩, all_isPlain_of_blank hg'⟩

theorem Text.head?_ne_tick_of_isPlain {s t : Text} (hs : s.all isPlain = true) (hne : s ≠ []) :
    (s ++ t).head? ≠ some '\'' := by
  cases s with
  | nil => exact absurd rfl hne
  | cons c s =>
    intro h
    rw [List.all_cons, Bool.and_eq_true] at hs
    obtain rfl : c = '\'' := by simpa using h
    exact absurd hs.1 (by decide)

/-- A label and what follows it, with a colon between them. -/
theorem exists_of_labelled? {t rest : Text} {label : Ident} (h : labelled? t = some (label, rest)) :
    ∃ a b, trimStart t = a ++ ':' :: b ∧ Ident.ofText? (trimEnd a) = some label
      ∧ rest = trimStart b := by
  simp only [labelled?, Option.bind_eq_bind] at h
  obtain ⟨⟨a, b⟩, hsplit, h⟩ := Option.bind_eq_some_iff.1 h
  obtain ⟨-, h⟩ := Option.ite_none_left_eq_some.1 h
  obtain ⟨n, hn, h⟩ := Option.bind_eq_some_iff.1 h
  obtain ⟨rfl, rfl⟩ := Prod.mk.inj (Option.some.inj h)
  exact ⟨a, b, (eq_of_splitOnce hsplit).1, hn, rfl⟩

theorem labelled?_of_tick {t : Text} (h : t.head? = some '\'') : labelled? t = none := by
  rw [Option.eq_none_iff_forall_ne_some]
  rintro ⟨label, rest⟩ hlabel
  obtain ⟨a, b, hsplit, ha, -⟩ := exists_of_labelled? hlabel
  rw [trimStart_of_tick h] at hsplit
  have hhead : a.head? = some '\'' := by
    rw [hsplit] at h
    cases a with
    | nil => cases h
    | cons c a => exact h
  rw [Ident.ofText?_of_tick (head?_trimEnd_of_tick hhead)] at ha
  cases ha

/-- What follows a label in a text without comments holds none. -/
theorem quiet_of_labelled? {t rest : Text} {label : Ident} (h : CommentFree none t)
    (hl : labelled? t = some (label, rest)) : Quiet rest := by
  obtain ⟨a, b, hsplit, hn, rfl⟩ := exists_of_labelled? hl
  have ha : a.all isPlain = true := by
    obtain ⟨g, hg, hpad⟩ := exists_pad_trimEnd a
    rw [hpad, List.all_append, Bool.and_eq_true]
    exact ⟨(all_isPlain_of_ofText? hn).1, all_isPlain_of_blank hg⟩
  have hfree := h.trimStart
  rw [hsplit] at hfree
  have hcolon := (commentFree_cons_code (at_plain _ (by decide) b)).1 (hfree.of_plain ha)
  exact hcolon.quiet_trimStart

/-! ## Simple statements -/

namespace ConcurrentStatement

theorem comments_eq_nil {room : Nat} {t : Text} {s : ConcurrentStatement} (h : CommentFree none t)
    (hs : read room t = some s) : s.comments = [] := by
  simp only [read, Comment.read_eq_none h.trim.trim] at hs
  split at hs
  · cases hs
  · simp only [Option.bind_eq_bind] at hs
    split at hs
    · cases hs
    · obtain ⟨body, -, hs⟩ := Option.bind_eq_some_iff.1 hs
      obtain ⟨⟨target, value⟩, -, hs⟩ := Option.bind_eq_some_iff.1 hs
      obtain ⟨target, -, hs⟩ := Option.bind_eq_some_iff.1 hs
      obtain ⟨value, -, hs⟩ := Option.bind_eq_some_iff.1 hs
      obtain rfl := Option.some.inj hs
      rfl

theorem read_of_tick {room : Nat} {t : Text} (h : t.head? = some '\'') : read room t = none := by
  obtain ⟨g, -, -, htrim, -⟩ := pad_of_tick h
  simp only [read, Comment.read_of_tick htrim, Option.bind_eq_bind]
  split
  · rfl
  · split
    · rfl
    · rw [Option.bind_eq_none_iff]
      intro body hbody
      rw [Option.bind_eq_none_iff]
      rintro ⟨target, value⟩ hcut
      have hhead := head?_of_dropFinal? (head?_withoutComments htrim) hbody
      rw [cutOuter?, Option.map_eq_some_iff] at hcut
      obtain ⟨i, -, hi⟩ := hcut
      rw [← (Prod.mk.inj hi).1, Reference.read, Reference.readWith_take_of_tick hhead]
      rfl

end ConcurrentStatement

/-! ## Processes -/

/-- Declarations that start with a tick are not read. -/
theorem Statement.head?_ne_tick_of_readDeclarations {room : Nat} {t : Text}
    {declarations : List Statement} (h : readDeclarations room t = some declarations) :
    t.head? ≠ some '\'' := by
  intro ht
  simp only [readDeclarations, Option.bind_eq_bind] at h
  obtain ⟨ps, hps, h⟩ := Option.bind_eq_some_iff.1 h
  obtain ⟨code, trailer, hpiece, hcode⟩ := exists_piece_of_tick ht hps
  obtain ⟨e, he⟩ := (mem_mapM h).1 _ hpiece
  simp only [ObjectDecl.readWithTrailer_of_tick hcode, Option.map_none, reduceCtorEq] at he

namespace ProcessStatement

theorem quiet_of_splitSensitivity? {t rest : Text} {names : List Ident} (h : Quiet t)
    (hs : splitSensitivity? t = some (names, rest)) : Quiet rest := by
  rw [splitSensitivity?] at hs
  split at hs
  · rename_i hhead
    have hhead : t.head? = some '(' := by simpa using hhead
    simp only [Option.bind_eq_bind] at hs
    obtain ⟨⟨inner, after⟩, hgroup, hs⟩ := Option.bind_eq_some_iff.1 hs
    obtain ⟨_, -, hs⟩ := Option.bind_eq_some_iff.1 hs
    obtain ⟨-, rfl⟩ : _ ∧ trimStart after = rest := by simpa using hs
    have hfree := h.commentFree (by rw [hhead]; decide)
    exact (hfree.of_parenthesised? hgroup).2.quiet_trimStart
  · obtain ⟨-, rfl⟩ : [] = names ∧ t = rest := by simpa using hs
    exact h

theorem comments_eq_nil_of_readLabelled {room : Nat} {label : Option Ident} {t : Text}
    {p : ProcessStatement} (h : Quiet t) (hp : readLabelled room label t = some p) :
    p.comments = [] := by
  simp only [readLabelled, Option.bind_eq_bind] at hp
  obtain ⟨rest, hrest, hp⟩ := Option.bind_eq_some_iff.1 hp
  obtain ⟨inner, hinner, hp⟩ := Option.bind_eq_some_iff.1 hp
  obtain ⟨⟨names, after⟩, hnames, hp⟩ := Option.bind_eq_some_iff.1 hp
  obtain ⟨⟨head, body⟩, hcut, hp⟩ := Option.bind_eq_some_iff.1 hp
  obtain ⟨declarations, hdeclarations, hp⟩ := Option.bind_eq_some_iff.1 hp
  obtain ⟨s, hs, hp⟩ := Option.bind_eq_some_iff.1 hp
  obtain rfl := Option.some.inj hp
  have hquiet := quiet_of_splitSensitivity?
    ((h.of_afterWord? ⟨by decide, by decide⟩ hrest).of_beforeEnd? hinner) hnames
  have hafter : Quiet ((afterWord? "is".toList after).getD after) := by
    cases his : afterWord? "is".toList after with
    | none => exact hquiet
    | some r => exact hquiet.of_afterWord? ⟨by decide, by decide⟩ his
  obtain ⟨hhead, hbody⟩ := hafter.of_cutClause? ⟨by decide, by decide⟩ hcut
    (Statement.head?_ne_tick_of_readDeclarations hdeclarations)
  rw [comments, Statement.comments_eq_nil_of_readDeclarations (.inl hhead) hdeclarations,
    Sequential.comments_eq_nil hbody hs]
  rfl

/-- A process in a text without comments keeps none. -/
theorem comments_eq_nil {room : Nat} {t : Text} {p : ProcessStatement} (h : CommentFree none t)
    (hp : read room t = some p) : p.comments = [] := by
  simp only [read] at hp
  split at hp
  · cases hp
  · split at hp
    · cases hp
    · split at hp
      · rename_i hl
        exact comments_eq_nil_of_readLabelled (quiet_of_labelled? h.trim hl) hp
      · exact comments_eq_nil_of_readLabelled (.inl h.trim) hp

end ProcessStatement

/-! ## Regions -/

namespace Concurrent

theorem commentsAll_eq_flatMap (cs : List Concurrent) :
    commentsAll cs = cs.flatMap Concurrent.comments := by
  induction cs with
  | nil => rfl
  | cons c cs ih => rw [commentsAll, ih, List.flatMap_cons]

theorem comments_ofElements (cs : List Concurrent) :
    (ofElements cs).comments = cs.flatMap Concurrent.comments := by
  rcases cs with _ | ⟨c, _ | ⟨c', cs⟩⟩
  · rfl
  · simp [ofElements]
  · exact commentsAll_eq_flatMap _

theorem comments_eq_nil_of_readGenerateWith {room : Nat} {body : Text → Option Concurrent}
    (hbody : ∀ t c, Quiet t → body t = some c → c.comments = []) {t : Text} {c : Concurrent}
    (h : CommentFree none t) (hc : readGenerateWith room body t = some c) : c.comments = [] := by
  simp only [readGenerateWith, Option.bind_eq_bind] at hc
  split at hc
  · cases hc
  · obtain ⟨⟨label, rest⟩, hlabel, hc⟩ := Option.bind_eq_some_iff.1 hc
    obtain ⟨after, hafter, hc⟩ := Option.bind_eq_some_iff.1 hc
    obtain ⟨inner, hinner, hc⟩ := Option.bind_eq_some_iff.1 hc
    obtain ⟨⟨parameter, range, inside⟩, hsplit, hc⟩ := Option.bind_eq_some_iff.1 hc
    obtain ⟨p, hp, hc⟩ := Option.bind_eq_some_iff.1 hc
    obtain ⟨r, hr, hc⟩ := Option.bind_eq_some_iff.1 hc
    obtain ⟨b, hb, hc⟩ := Option.bind_eq_some_iff.1 hc
    obtain rfl := Option.some.inj hc
    have hquiet := ((quiet_of_labelled? h.trim hlabel).of_afterWord? ⟨by decide, by decide⟩
      hafter).of_beforeEnd? hinner
    obtain ⟨hhead, header, hcut⟩ := Sequential.exists_of_splitIteration? hsplit hp
    have hinside := ((hquiet.commentFree hhead).of_cutOuter? (by decide) (by decide) hcut).2.quiet
    refine hbody _ b ?_ hb
    cases hbegin : afterWord? "begin".toList inside with
    | none => exact hinside
    | some r => exact hinside.of_afterWord? ⟨by decide, by decide⟩ hbegin

theorem comments_eq_nil_all (room : Nat) :
    (∀ t c, Quiet t → read room t = some c → c.comments = [])
      ∧ (∀ t c, CommentFree none t → readGenerate room t = some c → c.comments = []) := by
  induction room with
  | zero => refine ⟨fun t c _ hc => ?_, fun t c _ hc => ?_⟩ <;> cases hc
  | succ room ih =>
    obtain ⟨hread, hgenerate⟩ := ih
    refine ⟨fun t c h hc => ?_, fun t c h hc => comments_eq_nil_of_readGenerateWith hread h hc⟩
    simp only [read, Option.bind_eq_bind] at hc
    split at hc
    · cases hc
    · obtain ⟨ps, hps, hc⟩ := Option.bind_eq_some_iff.1 hc
      obtain ⟨es, hes, hc⟩ := Option.bind_eq_some_iff.1 hc
      obtain rfl := Option.some.inj hc
      have hpieces : ∀ e ∈ es, e.flatMap Concurrent.comments = [] := by
        refine h.forall_of_pieces hps hes (fun code trailer hhead => ?_) fun code e hfree he => ?_
        · simp only [readPieceWith, labelled?_of_tick hhead,
            startsWith_of_tick (⟨by decide, by decide⟩ : IsRun "process".toList) hhead,
            ConcurrentStatement.read_of_tick hhead, Bool.false_eq_true, if_false, Option.map_none,
            Option.bind_eq_bind, Option.bind_none]
        · simp only [readPieceWith, Option.bind_eq_bind] at he
          obtain ⟨element, helement, he⟩ := Option.bind_eq_some_iff.1 he
          obtain rfl := Option.some.inj he
          have hnone : element.comments = [] := by
            split at helement
            · split at helement
              · obtain ⟨p, hp, rfl⟩ := Option.map_eq_some_iff.1 helement
                exact ProcessStatement.comments_eq_nil hfree hp
              · split at helement
                · exact hgenerate _ _ hfree helement
                · obtain ⟨i, -, rfl⟩ := Option.map_eq_some_iff.1 helement
                  rfl
            · split at helement
              · obtain ⟨p, hp, rfl⟩ := Option.map_eq_some_iff.1 helement
                exact ProcessStatement.comments_eq_nil hfree hp
              · obtain ⟨s, hs, rfl⟩ := Option.map_eq_some_iff.1 helement
                exact ConcurrentStatement.comments_eq_nil hfree hs
          simp [hnone]
      rw [comments_ofElements, List.flatMap_eq_nil_iff]
      intro c hc
      obtain ⟨e, he, hce⟩ := List.mem_flatten.1 hc
      exact List.flatMap_eq_nil_iff.1 (hpieces e he) c hce

/-- **Concurrent code in a text without comments keeps none.** -/
theorem comments_eq_nil {room : Nat} {t : Text} {c : Concurrent} (h : Quiet t)
    (hc : read room t = some c) : c.comments = [] :=
  (comments_eq_nil_all room).1 t c h hc

end Concurrent
end CanonicalVhdl
