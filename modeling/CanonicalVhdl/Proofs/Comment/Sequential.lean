import CanonicalVhdl.Proofs.Case.Sequential
import CanonicalVhdl.Proofs.Case.Statement
import CanonicalVhdl.Proofs.Comment.Steady
import CanonicalVhdl.Proofs.Text.Lists

/-!
# Statements and sequential code of texts without comments

A region is read without comments when its text holds none, although conditions, selectors and
choices may start with a tick that belongs to the word before them: what is read there ends
steady, so the regions behind them are seen as they are.

## Main statements

* `ObjectDecl.comments_eq_nil`, `Statement.comments_eq_nil` — what is read keeps no comment.
* `Choice.endsSteady_of_read` — a choice that is read ends steady.
* `Sequential.commentFree_of_read` — a region that is read does not start with a tick.
* `Sequential.comments_eq_nil` — sequential code in a text without comments keeps none.
-/

namespace CanonicalVhdl

open Text

/-! ## Statements of texts without comments

A declaration or a statement keeps a comment only if its text holds one.  A region that starts
with a tick, as it may after a word, is not read at all: no statement starts with a tick. -/

/-! ## Texts that start with a tick -/

namespace Text

theorem afterWord?_of_tick {w t : Text} (hw : IsRun w) (h : t.head? = some '\'') :
    afterWord? w t = none := by
  rw [Option.eq_none_iff_forall_ne_some]
  exact fun r hr => head?_ne_tick_of_afterWord? hw hr h

theorem startsWith_of_tick {w t : Text} (hw : IsRun w) (h : t.head? = some '\'') :
    startsWith w t = false := by
  rw [startsWith, afterWord?_of_tick hw h]
  rfl

theorem trimStart_of_tick {t : Text} (h : t.head? = some '\'') : trimStart t = t :=
  trimStart_eq_self (by rw [h]; rfl)

theorem sameWord_of_tick {w t : Text} (hw : IsRun w) (h : t.head? = some '\'') :
    sameWord t w = false := by
  obtain ⟨u, rfl⟩ := List.head?_eq_some_iff.1 h
  rw [Bool.eq_false_iff, ne_eq, sameWord_comm]
  intro heq
  exact absurd (List.all_eq_true.1 (all_isPlain_of_sameWord (all_isPlain_of_ident hw.ident) heq) '\''
    List.mem_cons_self) (by decide)

theorem head?_trimEnd_of_tick {t : Text} (h : t.head? = some '\'') :
    (trimEnd t).head? = some '\'' := by
  obtain ⟨-, -, -, htrim, heq⟩ := pad_of_tick h
  rw [← heq]
  exact htrim

/-- What precedes the final semicolon of a text that starts with a tick starts with it. -/
theorem head?_of_dropFinal? {t body : Text} (h : t.head? = some '\'')
    (hbody : dropFinal? ';' t = some body) : body.head? = some '\'' := by
  rw [eq_of_dropFinal? hbody] at h
  cases body with
  | nil => cases h
  | cons c body => exact h

end Text

theorem Reference.readWith_take_of_tick {expr : Text → Option Expr} {t : Text}
    (h : t.head? = some '\'') (i : Nat) : Reference.readWith expr (t.take i) = none := by
  cases i with
  | zero => rfl
  | succ i =>
    obtain ⟨u, rfl⟩ := List.head?_eq_some_iff.1 h
    exact Reference.readWith_of_tick rfl

/-! ## The last line -/

/-- The last line of a text is all of it or follows a line end. -/
theorem Text.exists_lastLine (t : Text) :
    ∃ last, (splitOn '\n' t).getLast? = some last ∧ (t = last ∨ ∃ s, t = s ++ '\n' :: last) := by
  induction hn : t.length using Nat.strongRecOn generalizing t with
  | ind n ih =>
    obtain ⟨l, r, rfl, hl, hr⟩ := exists_firstLine t
    obtain rfl | ⟨v, rfl⟩ := hr.cases
    · rw [List.append_nil]
      exact ⟨l, by rw [splitOn_of_not_mem hl]; rfl, .inl rfl⟩
    · have hlen : v.length < n := by
        rw [← hn, List.length_append, List.length_cons]
        omega
      obtain ⟨last, hlast, hv⟩ := ih _ hlen v rfl
      refine ⟨last, ?_, .inr ?_⟩
      · rw [splitOn_append hl]
        exact (List.getLast?_cons_of_ne_nil (splitOnFrom_ne_nil '\n' [] [] v)).trans hlast
      · rcases hv with rfl | ⟨s, rfl⟩
        · exact ⟨l, rfl⟩
        · exact ⟨l ++ '\n' :: s, by simp⟩

/-- No comment ends a text without comments. -/
theorem Comment.splitTrailer_snd {t : Text} (h : CommentFree none t) :
    (Comment.splitTrailer t).2 = none := by
  obtain ⟨last, hlast, ht⟩ := exists_lastLine (trim t)
  have hfree : CommentFree none last := by
    rcases ht with ht | ⟨s, ht⟩
    · exact ht ▸ h.trim
    · have := h.trim
      rw [ht] at this
      exact this.of_line
  have hnone : (splitTrailing last).2 = none := by
    rw [splitTrailing, commentFree_none.1 hfree]
  simp only [Comment.splitTrailer, splitLast, hlast, Option.getD_some, hnone, Option.bind_none]

/-! ## Declarations and statements -/

namespace ObjectDecl

theorem read_of_tick {room : Nat} {t : Text} (h : t.head? = some '\'') : read room t = none := by
  have hkind : ∀ c : ObjectClass, startsWith c.keyword.toList t = false := fun c =>
    startsWith_of_tick (by cases c <;> exact ⟨by decide, by decide⟩) h
  have hclass : ObjectClass.ofDeclaration? t = none := by
    rw [ObjectClass.ofDeclaration?, List.find?_eq_none]
    exact fun c _ => by simp [hkind]
  rw [read, trimStart_of_tick h, hclass]
  rfl

theorem readWithTrailer_of_tick {room : Nat} {t : Text} {trailer : Option Text}
    (h : t.head? = some '\'') : readWithTrailer room t trailer = none := by
  rw [readWithTrailer, read_of_tick h]
  rfl

theorem comment_eq_none {room : Nat} {t : Text} {d : ObjectDecl} (h : CommentFree none t)
    (hd : read room t = some d) : d.comment = none := by
  rw [read] at hd
  obtain ⟨c, -, hd⟩ := Option.bind_eq_some_iff.1 hd
  rw [readAs] at hd
  split at hd
  · cases hd
  · simp only [Option.bind_eq_bind] at hd
    obtain ⟨body, -, hd⟩ := Option.bind_eq_some_iff.1 hd
    obtain ⟨body, -, hd⟩ := Option.bind_eq_some_iff.1 hd
    obtain ⟨⟨name, rest⟩, -, hd⟩ := Option.bind_eq_some_iff.1 hd
    obtain ⟨typed, -, hd⟩ := Option.bind_eq_some_iff.1 hd
    rw [Comment.splitTrailer_snd h.trimStart, ofTyped?] at hd
    split at hd
    · obtain rfl := Option.some.inj hd
      rfl
    · cases hd

/-- A declaration in a text without comments keeps none. -/
theorem comments_eq_nil {room : Nat} {t : Text} {d : ObjectDecl} (h : CommentFree none t)
    (hd : readWithTrailer room t none = some d) : d.comments = [] := by
  obtain ⟨d', hd', rfl⟩ := Option.map_eq_some_iff.1 hd
  simp only [comments, comment_eq_none h hd', Option.toList_none]

end ObjectDecl

theorem Comment.read_eq_none {t : Text} (h : CommentFree none (trim t)) : Comment.read t = none := by
  simp only [Comment.read]
  split
  · rfl
  · split
    · rename_i heq
      rw [heq] at h
      exact absurd h (not_commentFree_hyphens _ _)
    · rfl

theorem Comment.read_of_tick {t : Text} (h : t.head? = some '\'') : Comment.read t = none := by
  obtain ⟨-, -, -, htrim, -⟩ := pad_of_tick h
  obtain ⟨u, hu⟩ := List.head?_eq_some_iff.1 htrim
  simp only [Comment.read, hu]
  split <;> rfl

namespace Statement

/-- A statement in a text without comments keeps none. -/
theorem comments_eq_nil {room : Nat} {t : Text} {s : Statement} (h : CommentFree none t)
    (hs : read room t = some s) : s.comments = [] := by
  simp only [read] at hs
  split at hs
  · cases hs
  · rw [Comment.read_eq_none h.trim.trim] at hs
    simp only at hs
    split at hs
    · rename_i d hd
      obtain rfl := Option.some.inj hs
      rw [comments, ObjectDecl.comments, ObjectDecl.comment_eq_none h.trim hd]
      rfl
    · simp only [Option.bind_eq_bind] at hs
      split at hs
      · cases hs
      · obtain ⟨body, -, hs⟩ := Option.bind_eq_some_iff.1 hs
        simp only [readBody] at hs
        split at hs
        · obtain rfl := Option.some.inj hs
          rfl
        · split at hs
          · split at hs
            · obtain rfl := Option.some.inj hs
              rfl
            · obtain ⟨e, -, rfl⟩ := Option.map_eq_some_iff.1 hs
              rfl
          · simp only [Option.bind_eq_bind] at hs
            obtain ⟨⟨i, kind⟩, -, hs⟩ := Option.bind_eq_some_iff.1 hs
            obtain ⟨target, -, hs⟩ := Option.bind_eq_some_iff.1 hs
            obtain ⟨value, -, hs⟩ := Option.bind_eq_some_iff.1 hs
            obtain rfl := Option.some.inj hs
            rfl

theorem read_of_tick {room : Nat} {t : Text} (h : t.head? = some '\'') : read room t = none := by
  obtain ⟨g, -, -, htrim, -⟩ := pad_of_tick h
  simp only [read, Comment.read_of_tick htrim, ObjectDecl.read_of_tick htrim, Option.bind_eq_bind]
  split
  · rfl
  · split
    · rfl
    · rw [Option.bind_eq_none_iff]
      intro body hbody
      have hhead := head?_trimEnd_of_tick (head?_of_dropFinal? (head?_withoutComments htrim) hbody)
      simp only [readBody, sameWord_of_tick (⟨by decide, by decide⟩ : IsRun "null".toList) hhead,
        afterWord?_of_tick (⟨by decide, by decide⟩ : IsRun "return".toList) hhead, Reference.read,
        Reference.readWith_take_of_tick hhead, Option.bind_eq_bind]
      cases firstAssignment? (trimEnd body) <;> rfl

end Statement

/-! ## Pieces -/

/-- **What a region without comments is read as** is what its statements are read as, when no
statement starts with a tick. -/
theorem Text.Quiet.forall_of_pieces {α : Type} {f : Piece → Option α} {p : α → Prop} {t : Text}
    {ps : List Piece} {as : List α} (h : Quiet t) (hps : pieces? t = some ps)
    (has : ps.mapM f = some as)
    (htick : ∀ code trailer, code.head? = some '\'' → f (.code code trailer) = none)
    (hcode : ∀ code a, CommentFree none code → f (.code code none) = some a → p a) :
    ∀ a ∈ as, p a := by
  obtain ⟨hread, hmem⟩ := mem_mapM has
  rcases h with h | h
  · intro a ha
    obtain ⟨piece, hpiece, ha⟩ := hmem a ha
    obtain ⟨code, rfl, hfree⟩ := h.of_pieces? hps piece hpiece
    exact hcode code a hfree ha
  · obtain ⟨code, trailer, hpiece, hhead⟩ := exists_piece_of_tick h hps
    obtain ⟨a, ha⟩ := hread _ hpiece
    rw [htick code trailer hhead] at ha
    cases ha

/-- The declarations in a declarative part without comments keep none. -/
theorem Statement.comments_eq_nil_of_readDeclarations {room : Nat} {t : Text}
    {declarations : List Statement} (h : Quiet t)
    (hread : readDeclarations room t = some declarations) :
    declarations.flatMap Statement.comments = [] := by
  simp only [readDeclarations, Option.bind_eq_bind] at hread
  obtain ⟨ps, hps, hread⟩ := Option.bind_eq_some_iff.1 hread
  rw [List.flatMap_eq_nil_iff]
  refine h.forall_of_pieces hps hread (fun code trailer hhead => ?_) fun code s hfree hs => ?_
  · simp only [ObjectDecl.readWithTrailer_of_tick hhead, Option.map_none]
  · obtain ⟨d, hd, rfl⟩ := Option.map_eq_some_iff.1 hs
    exact ObjectDecl.comments_eq_nil hfree hd

/-! ## Choices -/

/-- The pieces between separators that are no ticks end steady only together. -/
theorem Text.endsSteady_of_pieces {t : Text} {x : Char} (hx : x ≠ '\'') (hquote : x ≠ '"')
    {cuts : List Nat} {start : Nat} (hcuts : ∀ i ∈ cuts, ∃ v, t.drop i = x :: v)
    (hle : ∀ i ∈ cuts, start ≤ i) (hsorted : cuts.Pairwise (· < ·))
    (h : ∀ p ∈ piecesBetween start (t.drop start) cuts, EndsSteady p) :
    EndsSteady (t.drop start) := by
  induction cuts generalizing start with
  | nil => exact h _ List.mem_cons_self
  | cons i cuts ih =>
    have hi := hle i List.mem_cons_self
    obtain ⟨v, hv⟩ := hcuts i List.mem_cons_self
    have hnext : t.drop (i + 1) = v := by rw [← List.drop_drop, hv]; rfl
    have hsplit : t.drop start = (t.drop start).take (i - start) ++ x :: v := by
      conv_lhs => rw [← List.take_append_drop (i - start) (t.drop start)]
      rw [List.drop_drop, show start + (i - start) = i by omega, hv]
    rw [piecesBetween, List.drop_drop, show start + (i + 1 - start) = i + 1 by omega] at h
    rw [List.pairwise_cons] at hsorted
    have hrest : EndsSteady v := hnext ▸ ih (fun j hj => hcuts j (List.mem_cons_of_mem _ hj))
      (fun j hj => hsorted.1 j hj) hsorted.2 fun p hp => h p (List.mem_cons_of_mem _ hp)
    intro r hr
    rw [hsplit, List.append_assoc]
    exact h _ List.mem_cons_self _ ((hrest r hr).calm hx hquote)

theorem Text.endsSteady_of_splitOuter {t : Text} {x : Char} (hx : x ≠ '\'') (hquote : x ≠ '"')
    (h : ∀ p ∈ splitOuter x t, EndsSteady p) : EndsSteady t := by
  change EndsSteady (t.drop 0)
  refine endsSteady_of_pieces hx hquote ?_ (fun _ _ => Nat.zero_le _) ?_ h
  · intro i hi
    obtain ⟨p, hp, rfl⟩ := List.mem_map.1 hi
    rw [List.mem_filter] at hp
    obtain ⟨s, ht, hpos, -⟩ := mem_codePoints (mem_outerPoints hp.1)
    have hchar : p.char = x := by simpa using hp.2
    exact ⟨p.after, by rw [hpos, ht, List.drop_left, CodePoint.rest, hchar]⟩
  · rw [List.pairwise_map]
    exact ((codePointsFrom_pairwise 0 0 0 none t).filter _).filter _

namespace Choice

theorem endsSteady_of_readSingle {room : Nat} {t : Text} {c : Choice}
    (h : readSingle room t = some c) : EndsSteady t := by
  refine EndsSteady.of_trim ?_
  simp only [readSingle] at h
  split at h
  · rename_i hothers
    refine endsSteady_of_tick fun ht => ?_
    rw [sameWord_of_tick (⟨by decide, by decide⟩ : IsRun "others".toList) ht] at hothers
    cases hothers
  · split at h
    · rename_i r hr
      exact Range.endsSteady_of_read hr
    · obtain ⟨e, he, -⟩ := Option.map_eq_some_iff.1 h
      exact Expr.endsSteady_of_read he

/-- **A choice ends steady** if it is read. -/
theorem endsSteady_of_read {room : Nat} {t : Text} {c : Choice} (h : read room t = some c) :
    EndsSteady t := by
  refine EndsSteady.of_trim (endsSteady_of_splitOuter (x := '|') (by decide) (by decide) ?_)
  rw [read] at h
  split at h
  · rename_i single hsingle
    rw [hsingle]
    intro p hp
    rw [List.mem_singleton.1 hp]
    exact endsSteady_of_readSingle h
  · obtain ⟨choices, hchoices, -⟩ := Option.map_eq_some_iff.1 h
    intro p hp
    obtain ⟨choice, hchoice⟩ := (mem_mapM hchoices).1 p hp
    rw [readAlternative] at hchoice
    split at hchoice
    · cases hchoice
    · exact endsSteady_of_readSingle hchoice

end Choice

/-! ## Regions -/

namespace Sequential

theorem commentsAll_eq_flatMap (ss : List Sequential) :
    commentsAll ss = ss.flatMap Sequential.comments := by
  induction ss with
  | nil => rfl
  | cons s ss ih => rw [commentsAll, ih, List.flatMap_cons]

theorem comments_ofElements (ss : List Sequential) :
    (ofElements ss).comments = ss.flatMap Sequential.comments := by
  rcases ss with _ | ⟨s, _ | ⟨s', ss⟩⟩
  · rfl
  · simp [ofElements]
  · exact commentsAll_eq_flatMap _

/-- A piece that starts with a tick is not read. -/
theorem readPiece_of_tick (room : Nat) {code : Text} (trailer : Option Text)
    (h : code.head? = some '\'') :
    readPieceWith room (fun code =>
        if startsWith "if".toList code then readConditional room code
        else if startsWith "case".toList code then readSelection room code
        else if startsWith "for".toList code then readLoop room code
        else (Statement.read room code).map simple) (.code code trailer) = none := by
  have hrun : ∀ w : String, w ∈ ["if", "case", "for"] → startsWith w.toList code = false :=
    fun w hw => startsWith_of_tick ((by decide : ∀ w : String, w ∈ ["if", "case", "for"] →
      IsRun w.toList) w hw) h
  simp only [readPieceWith, ObjectDecl.readWithTrailer_of_tick h, Statement.read_of_tick h,
    hrun "if" (by decide), hrun "case" (by decide), hrun "for" (by decide), Bool.false_eq_true,
    if_false, Option.map_none, Option.bind_eq_bind, Option.bind_none]

/-- A region that starts with a tick is not read. -/
theorem head?_ne_tick_of_read {room : Nat} {t : Text} {s : Sequential}
    (h : read room t = some s) : t.head? ≠ some '\'' := by
  intro ht
  cases room with
  | zero => cases h
  | succ room =>
    simp only [read, readRegionWith, Option.bind_eq_bind] at h
    split at h
    · cases h
    · obtain ⟨ps, hps, h⟩ := Option.bind_eq_some_iff.1 h
      obtain ⟨es, hes, -⟩ := Option.bind_eq_some_iff.1 h
      obtain ⟨code, trailer, hpiece, hcode⟩ := exists_piece_of_tick ht hps
      obtain ⟨e, he⟩ := (mem_mapM hes).1 _ hpiece
      rw [readPiece_of_tick room trailer hcode] at he
      cases he

theorem commentFree_of_read {room : Nat} {t : Text} {s : Sequential} (h : Quiet t)
    (hs : read room t = some s) : CommentFree none t :=
  h.commentFree (head?_ne_tick_of_read hs)

/-! ## Compound statements -/

/-- The interior of a statement is a beginning of what follows its first word. -/
theorem exists_of_interior? {opening closing t inner : Text}
    (h : interior? opening closing t = some inner) :
    ∃ rest, afterWord? opening (trim t) = some rest ∧ inner <+: rest := by
  simp only [interior?, Option.bind_eq_bind] at h
  split at h
  · cases h
  · obtain ⟨rest, hrest, h⟩ := Option.bind_eq_some_iff.1 h
    exact ⟨rest, hrest, isPrefix_of_beforeEnd? h⟩

theorem commentFree_of_interior? {opening closing t inner : Text} (hrun : IsRun opening)
    (hfree : CommentFree none t) (h : interior? opening closing t = some inner) :
    ∃ before, CommentFree before inner := by
  obtain ⟨rest, hrest, hbegins⟩ := exists_of_interior? h
  obtain ⟨before, hbefore⟩ := hfree.trim.of_afterWord? (all_isPlain_of_ident hrun.ident) hrest
  exact ⟨before, hbefore.of_isPrefix hbegins⟩

/-- The header of an iteration does not start with a tick, and its body stands behind a word. -/
theorem exists_of_splitIteration? {opening inner parameter range body : Text} {p : Ident}
    (h : splitIteration? opening inner = some (parameter, range, body))
    (hp : Ident.ofText? (trim parameter) = some p) :
    inner.head? ≠ some '\'' ∧ ∃ header, cutOuter? opening inner = some (header, body) := by
  simp only [splitIteration?, Option.bind_eq_bind] at h
  obtain ⟨i, hi, h⟩ := Option.bind_eq_some_iff.1 h
  obtain ⟨j, hj, h⟩ := Option.bind_eq_some_iff.1 h
  split at h
  · cases h
  · obtain ⟨rfl, -, rfl⟩ : inner.take i = parameter ∧ (inner.take j).drop (i + 2) = range
        ∧ inner.drop (j + opening.length) = body := by simpa using h
    refine ⟨fun hhead => ?_, inner.take j, by rw [cutOuter?, hj]; rfl⟩
    obtain ⟨s, x, u, rfl, rfl, hx, -⟩ := mem_outerMatches (mem_of_outerMatch? hi)
    rw [List.take_left] at hp
    have hplain := all_isPlain_of_sameWord (by decide) hx
    cases s with
    | nil =>
      cases x with
      | nil => cases hx
      | cons c x =>
        obtain rfl : c = '\'' := by simpa using hhead
        cases hplain
    | cons c s =>
      have hs : (c :: s).head? = some '\'' := hhead
      obtain ⟨-, -, -, htrim, -⟩ := pad_of_tick hs
      rw [Ident.ofText?_of_tick htrim] at hp
      cases hp

section Readers

variable {room : Nat} {region : Text → Option Sequential}
  (hregion : ∀ t s, Quiet t → region t = some s → s.comments = [])

include hregion

theorem comments_eq_nil_of_readLoopWith {t : Text} {s : Sequential} (h : CommentFree none t)
    (hs : readLoopWith room region t = some s) : s.comments = [] := by
  simp only [readLoopWith, Option.bind_eq_bind] at hs
  obtain ⟨inner, hinner, hs⟩ := Option.bind_eq_some_iff.1 hs
  obtain ⟨⟨parameter, range, body⟩, hsplit, hs⟩ := Option.bind_eq_some_iff.1 hs
  obtain ⟨p, hp, hs⟩ := Option.bind_eq_some_iff.1 hs
  obtain ⟨r, hr, hs⟩ := Option.bind_eq_some_iff.1 hs
  obtain ⟨b, hb, hs⟩ := Option.bind_eq_some_iff.1 hs
  obtain rfl := Option.some.inj hs
  obtain ⟨before, hfree⟩ := commentFree_of_interior? ⟨by decide, by decide⟩ h hinner
  obtain ⟨hhead, header, hcut⟩ := exists_of_splitIteration? hsplit hp
  have hbody := ((hfree.quiet.commentFree hhead).of_cutOuter? (by decide) (by decide) hcut).2
  exact hregion body b hbody.quiet hb

end Readers

/-! ## Branches -/

end Sequential

namespace Branch

variable {room : Nat} {region : Text → Option Sequential}
  (hregion : ∀ t s, Quiet t → region t = some s → s.comments = [])

/-- The choice of a branch, and where it stands. -/
theorem exists_of_readWith {t : Text} {b : Branch} (hb : readWith room region t = some b) :
    ∃ rest choice body, afterWord? "when".toList t = some rest
      ∧ cutOuter? "=>".toList rest = some (choice, body) ∧ EndsSteady choice
      ∧ ∃ s, region body = some s ∧ b.comments = s.comments := by
  simp only [readWith, Option.bind_eq_bind] at hb
  obtain ⟨rest, hrest, hb⟩ := Option.bind_eq_some_iff.1 hb
  obtain ⟨⟨choice, body⟩, hcut, hb⟩ := Option.bind_eq_some_iff.1 hb
  obtain ⟨c, hc, hb⟩ := Option.bind_eq_some_iff.1 hb
  obtain ⟨s, hs, hb⟩ := Option.bind_eq_some_iff.1 hb
  obtain rfl := Option.some.inj hb
  exact ⟨rest, choice, body, hrest, hcut, Choice.endsSteady_of_read hc, s, hs, rfl⟩

include hregion in
theorem comments_eq_nil_of_readWith {t : Text} {b : Branch} (h : CommentFree none t)
    (hb : readWith room region t = some b) : b.comments = [] := by
  obtain ⟨rest, choice, body, hrest, hcut, hsteady, s, hs, hcomments⟩ := exists_of_readWith hb
  obtain ⟨before, hfree⟩ := h.of_afterWord? (by decide) hrest
  have hbody := ((hfree.of_steady_cut (by decide) hcut hsteady).of_cutOuter? (by decide) (by decide)
    hcut).2
  rw [hcomments]
  exact hregion _ _ hbody.quiet hs

/-- Behind `when`, the text goes on without comments as far as its first choice is read. -/
theorem commentFree_of_readWith {t : Text} {n : Nat} {b : Branch} (h : CommentFree none t)
    (hstart : startsWith "when".toList t = true) (hb : readWith room region (t.take n) = some b) :
    CommentFree none (dropBytes 4 t) := by
  obtain ⟨before, hfree⟩ := h.of_dropBytes (n := 4) ⟨by decide, by decide⟩ hstart (by decide)
  by_cases hhead : (dropBytes 4 t).head? = some '\''
  · obtain ⟨rest, choice, body, hrest, hcut, hsteady, -⟩ := exists_of_readWith hb
    obtain ⟨g, x, g', hg, hx, hg', -, htake⟩ := eq_of_afterWord? hrest
    obtain ⟨y, rfl, hy, -⟩ := eq_of_cutOuter? hcut
    have ht : t = g ++ x ++ (g' ++ (choice ++ (y ++ (body ++ t.drop n)))) := by
      conv_lhs => rw [← List.take_append_drop n t, htake]
      simp only [List.append_assoc]
    have hbytes : 4 ≤ byteLength (g ++ x) := by
      have hxw : byteLength x = byteLength "when".toList := by
        rw [← byteLength_fold x, ← sameWord_iff.1 hx, byteLength_fold]
      rw [byteLength_append, hxw, show byteLength "when".toList = 4 by decide]
      omega
    obtain ⟨a, s, hgx, hdrop⟩ := dropBytes_split (g' ++ (choice ++ (y ++ (body ++ t.drop n)))) hbytes
    rw [← ht] at hdrop
    have hplain : (s ++ g').all isPlain = true := by
      have := all_isPlain_of_blank hg
      have hall : (a ++ s).all isPlain = true := by
        rw [← hgx, List.all_append, Bool.and_eq_true]
        exact ⟨this, all_isPlain_of_sameWord (by decide) hx⟩
      rw [List.all_append, Bool.and_eq_true] at hall ⊢
      exact ⟨hall.2, all_isPlain_of_blank hg'⟩
    -- the choice starts with the tick right after the word
    have hnil : s ++ g' = [] := by
      cases hsg : s ++ g' with
      | nil => rfl
      | cons c u =>
        rw [hdrop, ← List.append_assoc, hsg] at hhead
        obtain rfl : c = '\'' := by simpa using hhead
        rw [hsg] at hplain
        cases hplain
    rw [hdrop, ← List.append_assoc, hnil, List.nil_append] at hfree ⊢
    exact (hsteady _ ((by decide : IsLong "=>".toList).calm hy _)).commentFree hfree
  · exact hfree.congr fun ht => absurd ht hhead

theorem dropBytes_isSuffix (n : Nat) (t : Text) : dropBytes n t <:+ t := by
  induction t generalizing n with
  | nil => cases n <;> exact List.suffix_refl _
  | cons c t ih =>
    cases n with
    | zero => exact List.suffix_refl _
    | succ n => exact (ih _).trans (List.suffix_cons c t)

include hregion in
/-- The branches of a `case` statement keep no comments.  Where a choice starts with the tick
that belongs to `when`, only its being read shows that the text behind it is seen as it is. -/
theorem comments_eq_nil_of_split? {fuel : Nat} {t : Text} {texts : List Text}
    {branches : List Branch} (h : CommentFree none t) (hstart : startsWith "when".toList t = true)
    (htexts : split? fuel t = some texts)
    (hbranches : texts.mapM (readWith room region) = some branches) :
    commentsAll branches = [] := by
  induction fuel generalizing t texts branches with
  | zero => cases htexts
  | succ fuel ih =>
    simp only [split?, Option.bind_eq_bind] at htexts
    obtain ⟨⟨x, rest⟩, hcut, htexts⟩ := Option.bind_eq_some_iff.1 htexts
    simp only at htexts
    split at htexts
    · obtain rfl := Option.some.inj htexts
      simp only [List.mapM_cons, List.mapM_nil, Option.bind_eq_bind, Option.pure_def,
        Option.bind_some] at hbranches
      obtain ⟨b, hb, hbranches⟩ := Option.bind_eq_some_iff.1 hbranches
      obtain rfl := Option.some.inj hbranches
      rw [commentsAll, comments_eq_nil_of_readWith hregion h hb]
      rfl
    · rename_i i k hclause
      obtain ⟨texts, hsplit, htexts⟩ := Option.bind_eq_some_iff.1 htexts
      obtain rfl := Option.some.inj htexts
      simp only [List.mapM_cons, Option.bind_eq_bind, Option.pure_def] at hbranches
      obtain ⟨b, hb, hbranches⟩ := Option.bind_eq_some_iff.1 hbranches
      obtain ⟨bs, hbs, hbranches⟩ := Option.bind_eq_some_iff.1 hbranches
      obtain rfl := Option.some.inj hbranches
      have hdrop := commentFree_of_readWith h hstart hb
      have hrest := (hdrop.of_cutOuter? (by decide) (by decide) hcut).2.of_unbound (by decide)
      obtain ⟨hfree, w, hw, hnext⟩ := hrest.of_clause? hclause
      have hsame : t.drop (t.length - rest.length + i) = rest.drop i := by
        have hsuffix : rest <:+ t := by
          refine List.IsSuffix.trans ?_ (dropBytes_isSuffix 4 t)
          rw [cutOuter?, Option.map_eq_some_iff] at hcut
          obtain ⟨j, -, hj⟩ := hcut
          rw [← (Prod.mk.inj hj).2]
          exact List.drop_suffix _ _
        obtain ⟨a, rfl⟩ := hsuffix
        rw [List.length_append, Nat.add_sub_cancel, ← List.drop_drop, List.drop_left]
      rw [hsame] at hsplit
      rw [List.mem_singleton.1 (List.mem_of_getElem? hw)] at hnext
      rw [commentsAll, comments_eq_nil_of_readWith hregion (h.take _) hb, ih hfree hnext hsplit hbs]
      rfl

end Branch

/-! ## Reading -/

namespace Sequential

section Readers

variable {room : Nat} {region : Text → Option Sequential}
  (hregion : ∀ t s, Quiet t → region t = some s → s.comments = [])

include hregion

theorem comments_eq_nil_of_readSelectionWith {t : Text} {s : Sequential} (h : CommentFree none t)
    (hs : readSelectionWith room region t = some s) : s.comments = [] := by
  simp only [readSelectionWith, Option.bind_eq_bind] at hs
  obtain ⟨inner, hinner, hs⟩ := Option.bind_eq_some_iff.1 hs
  obtain ⟨⟨selector, rest⟩, hcut, hs⟩ := Option.bind_eq_some_iff.1 hs
  obtain ⟨e, he, hs⟩ := Option.bind_eq_some_iff.1 hs
  obtain ⟨⟨i, k⟩, hclause, hs⟩ := Option.bind_eq_some_iff.1 hs
  simp only at hs
  split at hs
  · cases hs
  · rename_i hblank
    obtain ⟨texts, htexts, hs⟩ := Option.bind_eq_some_iff.1 hs
    obtain ⟨branches, hbranches, hs⟩ := Option.bind_eq_some_iff.1 hs
    obtain rfl := Option.some.inj hs
    obtain ⟨before, hfree⟩ := commentFree_of_interior? ⟨by decide, by decide⟩ h hinner
    have hrest := ((hfree.of_steady_cut (by decide) hcut
      (Expr.endsSteady_of_read he)).of_cutOuter? (by decide) (by decide) hcut).2
    have hfree' : CommentFree none rest := by
      refine hrest.quiet.commentFree fun hhead => hblank ?_
      have hpos := pos_of_clause? (by decide) hhead hclause
      have htake : (rest.take i).head? = some '\'' := by
        rw [List.head?_take, if_neg (by omega), hhead]
      obtain ⟨-, -, -, htrim, -⟩ := pad_of_tick htake
      obtain ⟨u, hu⟩ := List.head?_eq_some_iff.1 htrim
      rw [hu]
      rfl
    obtain ⟨hdrop, w, hw, hstart⟩ := hfree'.of_clause? hclause
    rw [List.mem_singleton.1 (List.mem_of_getElem? hw)] at hstart
    exact Branch.comments_eq_nil_of_split? hregion hdrop hstart htexts hbranches

omit hregion in
/-- What follows the first word of the conditional statement that an `elsif` stands for. -/
theorem commentFree_of_elsif {t rest : Text} {before : Option Char} (h : CommentFree before t)
    (hrest : afterWord? "if".toList (trim ("if ".toList ++ t ++ " end if;".toList)) = some rest) :
    ∃ before, CommentFree before rest := by
  have htrim : trim ("if ".toList ++ t ++ " end if;".toList)
      = [] ++ "if".toList ++ (' ' :: (t ++ " end if;".toList)) := by
    rw [trim_eq_self ⟨rfl, by rw [List.getLast?_append_of_ne_nil _ (by decide)]; decide⟩]
    simp
  rw [htrim, afterWord?_run rfl ⟨by decide, by decide⟩ ⟨by decide, by decide⟩ rfl,
    sameWord_self, if_pos rfl] at hrest
  obtain rfl := Option.some.inj hrest
  have hfree : CommentFree before (t ++ " end if;".toList) := h.append_plain (by decide)
  have hblank : trimStart (' ' :: (t ++ " end if;".toList)) = trimStart (t ++ " end if;".toList) :=
    trimStart_append (g := [' ']) rfl _
  rw [hblank]
  rw [← List.takeWhile_append_dropWhile (p := isBlank) (l := t ++ " end if;".toList)] at hfree
  exact ⟨_, hfree.of_plain (all_isPlain_of_blank List.all_takeWhile)⟩

/-- The text after the first word of a conditional statement holds no comments, whatever stands
before it: for `elsif` the word is another one than in the whole text. -/
theorem comments_eq_nil_of_readConditionalWith {conditional : Text → Option Sequential}
    (hconditional : ∀ t s, (∀ rest, afterWord? "if".toList (trim t) = some rest →
      ∃ before, CommentFree before rest) → conditional t = some s → s.comments = [])
    (hticked : ∀ t s, region t = some s → t.head? ≠ some '\'')
    {t : Text} {s : Sequential}
    (h : ∀ rest, afterWord? "if".toList (trim t) = some rest → ∃ before, CommentFree before rest)
    (hs : readConditionalWith room region conditional t = some s) : s.comments = [] := by
  simp only [readConditionalWith, Option.bind_eq_bind] at hs
  obtain ⟨inner, hinner, hs⟩ := Option.bind_eq_some_iff.1 hs
  obtain ⟨⟨condition, branches⟩, hcut, hs⟩ := Option.bind_eq_some_iff.1 hs
  obtain ⟨e, he, hs⟩ := Option.bind_eq_some_iff.1 hs
  obtain ⟨rest, hrest, hbegins⟩ := exists_of_interior? hinner
  obtain ⟨before, hfree⟩ := h rest hrest
  have hbranches := ((((hfree.of_isPrefix hbegins).of_steady_cut (by decide) hcut
    (Expr.endsSteady_of_read he)).of_cutOuter? (by decide) (by decide) hcut).2).quiet
  simp only at hs
  cases hclause : clause? ["elsif".toList, "else".toList] branches with
  | none =>
    rw [hclause] at hs
    obtain ⟨body, hbody, rfl⟩ := Option.map_eq_some_iff.1 hs
    simp [Sequential.comments, hregion _ _ hbranches hbody, comments?]
  | some clause =>
    obtain ⟨i, k⟩ := clause
    -- the body is read, so it does not start with a tick
    have hfree' : ∀ body, region (branches.take i) = some body → CommentFree none branches := by
      intro body hbody
      refine hbranches.commentFree fun hhead => hticked _ _ hbody ?_
      have hpos := pos_of_clause? (by decide) hhead hclause
      rw [List.head?_take, if_neg (by omega), hhead]
    rw [hclause] at hs
    cases k with
    | zero =>
      obtain ⟨body, hbody, hs⟩ := Option.bind_eq_some_iff.1 hs
      obtain ⟨other, hother, hs⟩ := Option.bind_eq_some_iff.1 hs
      obtain rfl := Option.some.inj hs
      obtain ⟨hdrop, w, hw, hstart⟩ := (hfree' body hbody).of_clause? hclause
      obtain rfl : "elsif".toList = w := Option.some.inj hw
      obtain ⟨before, hrest⟩ := hdrop.of_dropBytes (n := 5) ⟨by decide, by decide⟩ hstart (by decide)
      have hbody := hregion _ _ ((hfree' body hbody).take i).quiet hbody
      have hother := hconditional _ _ (fun r hr => commentFree_of_elsif hrest hr) hother
      simp [Sequential.comments, comments?, hbody, hother]
    | succ k =>
      obtain ⟨body, hbody, hs⟩ := Option.bind_eq_some_iff.1 hs
      obtain ⟨other, hother, hs⟩ := Option.bind_eq_some_iff.1 hs
      obtain rfl := Option.some.inj hs
      obtain ⟨hdrop, w, hw, hstart⟩ := (hfree' body hbody).of_clause? hclause
      obtain rfl : "else".toList = w := by
        cases k with
        | zero => exact Option.some.inj hw
        | succ k => cases hw
      obtain ⟨before, hrest⟩ := hdrop.of_dropBytes (n := 4) ⟨by decide, by decide⟩ hstart (by decide)
      have hbody := hregion _ _ ((hfree' body hbody).take i).quiet hbody
      have hother := hregion _ _ hrest.quiet hother
      simp [Sequential.comments, comments?, hbody, hother]

end Readers

/-! ## Regions -/

theorem comments_eq_nil_of_readRegionWith {room : Nat} {statement : Text → Option Sequential}
    (hstatement : ∀ t s, CommentFree none t → statement t = some s → s.comments = [])
    (hticked : ∀ t, t.head? = some '\'' → statement t = none)
    {t : Text} {s : Sequential} (h : Quiet t) (hs : readRegionWith room statement t = some s) :
    s.comments = [] := by
  simp only [readRegionWith, Option.bind_eq_bind] at hs
  split at hs
  · cases hs
  · obtain ⟨ps, hps, hs⟩ := Option.bind_eq_some_iff.1 hs
    obtain ⟨es, hes, hs⟩ := Option.bind_eq_some_iff.1 hs
    obtain rfl := Option.some.inj hs
    have hpieces : ∀ e ∈ es, e.flatMap Sequential.comments = [] := by
      refine h.forall_of_pieces hps hes (fun code trailer hhead => ?_) fun code e hfree he => ?_
      · simp only [readPieceWith, ObjectDecl.readWithTrailer_of_tick hhead, hticked code hhead]
        rfl
      · simp only [readPieceWith, Option.bind_eq_bind] at he
        split at he
        · rename_i d hd
          obtain rfl := Option.some.inj he
          simp [Sequential.comments, Statement.comments, ObjectDecl.comments_eq_nil hfree hd]
        · obtain ⟨element, helement, he⟩ := Option.bind_eq_some_iff.1 he
          obtain rfl := Option.some.inj he
          simp [hstatement _ _ hfree helement]
    rw [comments_ofElements, List.flatMap_eq_nil_iff]
    intro s hs
    obtain ⟨e, he, hse⟩ := List.mem_flatten.1 hs
    exact List.flatMap_eq_nil_iff.1 (hpieces e he) s hse

theorem comments_eq_nil_all (room : Nat) :
    (∀ t s, Quiet t → read room t = some s → s.comments = [])
      ∧ (∀ t s, (∀ rest, afterWord? "if".toList (trim t) = some rest →
          ∃ before, CommentFree before rest) → readConditional room t = some s → s.comments = [])
      ∧ (∀ t s, CommentFree none t → readSelection room t = some s → s.comments = [])
      ∧ (∀ t s, CommentFree none t → readLoop room t = some s → s.comments = []) := by
  induction room with
  | zero =>
    refine ⟨fun t s _ hs => ?_, fun t s _ hs => ?_, fun t s _ hs => ?_, fun t s _ hs => ?_⟩ <;> cases hs
  | succ room ih =>
    obtain ⟨hread, hconditional, hselection, hloop⟩ := ih
    refine ⟨fun t s h hs => ?_, fun t s h hs => ?_, fun t s h hs => ?_, fun t s h hs => ?_⟩
    · have hrun : ∀ w : String, w ∈ ["if", "case", "for"] → IsRun w.toList := by decide
      refine comments_eq_nil_of_readRegionWith (fun t s h hs => ?_) (fun t ht => ?_) h hs
      · split at hs
        · exact hconditional t s (fun rest hrest => h.trim.of_afterWord? (by decide) hrest) hs
        · split at hs
          · exact hselection t s h hs
          · split at hs
            · exact hloop t s h hs
            · obtain ⟨statement, hstatement, rfl⟩ := Option.map_eq_some_iff.1 hs
              exact Statement.comments_eq_nil h hstatement
      · simp only [startsWith_of_tick (hrun "if" (by decide)) ht,
          startsWith_of_tick (hrun "case" (by decide)) ht,
          startsWith_of_tick (hrun "for" (by decide)) ht, Statement.read_of_tick ht,
          Bool.false_eq_true, if_false, Option.map_none]
    · exact comments_eq_nil_of_readConditionalWith hread hconditional
        (fun t s => head?_ne_tick_of_read) h hs
    · exact comments_eq_nil_of_readSelectionWith hread h hs
    · exact comments_eq_nil_of_readLoopWith hread h hs

/-- **Sequential code in a text without comments keeps none.** -/
theorem comments_eq_nil {room : Nat} {t : Text} {s : Sequential} (h : Quiet t)
    (hs : read room t = some s) : s.comments = [] :=
  (comments_eq_nil_all room).1 t s h hs

end Sequential

end CanonicalVhdl
