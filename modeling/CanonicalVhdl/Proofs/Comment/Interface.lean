import CanonicalVhdl.Proofs.Case.Interface
import CanonicalVhdl.Proofs.Comment.Concurrent
import CanonicalVhdl.Proofs.Design.Clause

/-!
# Declarations of texts without comments

Record types, functions, and the clauses of entities and components: what they keep of comments
stands on the lines where fields and entries end.

## Main statements

* `TypeDecl.comments_eq_nil`, `FunctionBody.comments_eq_nil`, `Interface.comments_eq_nil` — a
  declaration in a text without comments keeps none.
-/

namespace CanonicalVhdl

open Text

/-! ## Records -/

/-- The parts around a word anywhere in a text. -/
theorem Text.eq_of_splitAtWord? {w t a b : Text} (h : splitAtWord? w t = some (a, b)) :
    ∃ x, t = a ++ (x ++ b) ∧ sameWord w x = true := by
  have hfind : ∀ (u : Text) (position i : Nat) (before : Option Char),
      wordAfter? true w position before u = some i →
      ∃ s x v, u = s ++ (x ++ v) ∧ i = position + s.length ∧ sameWord w x = true := by
    intro u
    induction u with
    | nil => intro _ _ _ h; cases h
    | cons c u ih =>
      intro position i before h
      rw [wordAfter?] at h
      split at h
      · rename_i hword
        obtain rfl := Option.some.inj h
        obtain ⟨r, hr⟩ := Option.isSome_iff_exists.1 hword
        simp only [wholeWord?, dropWordWith, if_true] at hr
        split at hr
        · cases hr
        · obtain ⟨v, hv, -⟩ := Option.bind_eq_some_iff.1 hr
          obtain ⟨x, hx, hword⟩ := dropWord?_eq_some_iff.1 hv
          exact ⟨[], x, v, hx, rfl, hword⟩
      · obtain ⟨s, x, v, rfl, rfl, hword⟩ := ih _ _ _ h
        exact ⟨c :: s, x, v, rfl, by rw [List.length_cons]; omega, hword⟩
  rw [splitAtWord?, word?, wordFrom?, Option.map_eq_some_iff] at h
  obtain ⟨i, hi, hab⟩ := h
  obtain ⟨s, x, v, hsplit, hlen, hword⟩ := hfind _ _ _ _ hi
  rw [List.drop_zero] at hsplit
  rw [Nat.zero_add] at hlen
  obtain ⟨rfl, rfl⟩ := Prod.mk.inj hab
  refine ⟨x, ?_, hword⟩
  have hword' := length_eq_of_sameWord hword
  rw [hlen, hword', hsplit, List.take_left, ← List.length_append, ← List.append_assoc s x v,
    List.drop_left, List.append_assoc]

/-- A declaration that starts with a tick does so without its trailing comment. -/
theorem Comment.splitTrailer_of_tick {t : Text} (h : t.head? = some '\'') :
    (Comment.splitTrailer t).1.head? = some '\'' := by
  obtain ⟨-, -, -, htrim, -⟩ := pad_of_tick h
  generalize hu : trim t = u at htrim
  obtain ⟨l, r, rfl, hl, hr⟩ := exists_firstLine u
  have hfirst : l.head? = some '\'' := by
    cases l with
    | nil =>
      obtain rfl | ⟨v, rfl⟩ := hr.cases
      · cases htrim
      · exact absurd htrim (by simp)
    | cons c l => exact htrim
  have hcode := head?_lineCode hfirst
  have htrailing : (splitTrailing l).1 = lineCode l := by
    rw [splitTrailing, lineCode]
    cases commentStart? l <;> rfl
  obtain rfl | ⟨v, rfl⟩ := hr.cases
  · have hlast : splitLast (l ++ []) = ([], l) := by
      rw [List.append_nil, splitLast, splitOn_of_not_mem hl]
      rfl
    have hbare : (splitTrailer t).1 = trim (splitTrailing l).1 := by
      rw [splitTrailer, hu, hlast]
      rfl
    obtain ⟨-, -, -, htrim, -⟩ := pad_of_tick hcode
    rw [hbare, htrailing, htrim]
  · obtain ⟨y, hjoin, hy⟩ := atLineEnd_join l (splitOn '\n' v).dropLast
    obtain ⟨z, hlast⟩ : ∃ z, splitLast (l ++ '\n' :: v) = (l ++ y, z) := by
      refine ⟨_, Prod.ext ?_ rfl⟩
      rw [splitLast, splitOn_append hl]
      exact (congrArg (join ['\n'])
        (List.dropLast_cons_of_ne_nil (splitOnFrom_ne_nil '\n' [] [] v))).trans hjoin
    obtain ⟨y', hstrip, -⟩ := stripComments_firstLine hl hy fun hnil => by simp [hnil] at hcode
    obtain ⟨w, hw⟩ := List.head?_eq_some_iff.1 hcode
    have hbare : (splitTrailer t).1
        = (lineCode l ++ y') ++ '\n' :: trim (splitTrailing z).1 := by
      simp only [splitTrailer, hu, hlast, hstrip, hw, List.cons_append, List.isEmpty_cons,
        Bool.false_eq_true, if_false]
    rw [hbare, hw]
    rfl

namespace RecordField

theorem read_of_tick {room : Nat} {t : Text} (h : t.head? = some '\'') : read room t = none := by
  simp only [read, Option.bind_eq_bind]
  split
  · rfl
  · rw [Option.bind_eq_none_iff]
    intro body hbody
    have hhead := head?_of_dropFinal? (Comment.splitTrailer_of_tick h) hbody
    rw [Option.bind_eq_none_iff]
    rintro ⟨name, type⟩ hsplit
    obtain ⟨heq, hname⟩ := eq_of_splitOnce hsplit
    have hnamed : name.head? = some '\'' := by
      obtain ⟨u, rfl⟩ := List.head?_eq_some_iff.1 hhead
      rw [hname]
      rfl
    obtain ⟨-, -, -, htrim, -⟩ := pad_of_tick hnamed
    rw [Ident.ofText?_of_tick htrim]
    rfl

theorem comments_eq_nil {room : Nat} {t : Text} {f : RecordField} (h : CommentFree none t)
    (hf : readWithTrailer room t none = some f) : f.comments = [] := by
  obtain ⟨f', hf', rfl⟩ := Option.map_eq_some_iff.1 hf
  have hnone : f'.comment = none := by
    simp only [read, Option.bind_eq_bind] at hf'
    split at hf'
    · cases hf'
    · obtain ⟨body, -, hf'⟩ := Option.bind_eq_some_iff.1 hf'
      obtain ⟨⟨name, type⟩, -, hf'⟩ := Option.bind_eq_some_iff.1 hf'
      obtain ⟨name, -, hf'⟩ := Option.bind_eq_some_iff.1 hf'
      obtain ⟨type, -, hf'⟩ := Option.bind_eq_some_iff.1 hf'
      obtain rfl := Option.some.inj hf'
      exact Comment.splitTrailer_snd h
  simp [comments, hnone]

end RecordField

namespace TypeDecl

/-- A record in a text without comments keeps none. -/
theorem comments_eq_nil_of_readRecord {room : Nat} {name : Ident} {whole t : Text} {d : TypeDecl}
    (h : Quiet t) (hd : readRecord room name whole t = some d) : d.comments = [] := by
  simp only [readRecord, Option.bind_eq_bind] at hd
  split at hd
  · cases hd
  · obtain ⟨rest, hrest, hd⟩ := Option.bind_eq_some_iff.1 hd
    obtain ⟨body, hbody, hd⟩ := Option.bind_eq_some_iff.1 hd
    obtain ⟨ps, hps, hd⟩ := Option.bind_eq_some_iff.1 hd
    obtain ⟨fields, hfields, hd⟩ := Option.bind_eq_some_iff.1 hd
    have hquiet := (h.of_afterWord? ⟨by decide, by decide⟩ hrest).of_beforeEnd? hbody
    have hfree : ∀ f ∈ fields, ∀ field, f = some field → field.comments = [] := by
      refine hquiet.forall_of_pieces hps hfields (fun code trailer hhead => ?_)
        fun code f hfree hf field hfield => ?_
      · simp only [readField, RecordField.readWithTrailer, RecordField.read_of_tick hhead,
          Option.map_none]
      · obtain ⟨field', hfield', rfl⟩ := Option.map_eq_some_iff.1 hf
        obtain rfl := Option.some.inj hfield
        exact RecordField.comments_eq_nil hfree hfield'
    rw [record?] at hd
    split at hd
    · obtain rfl := Option.some.inj hd
      rw [comments, List.flatMap_eq_nil_iff]
      intro field hfield
      obtain ⟨f, hf, heq⟩ := List.mem_filterMap.1 hfield
      exact hfree f hf field heq
    · cases hd

/-- A declaration of a type in a text without comments keeps none. -/
theorem comments_eq_nil {room : Nat} {t : Text} {d : TypeDecl} (h : CommentFree none t)
    (hd : read room t = some d) : d.comments = [] := by
  simp only [read, Option.bind_eq_bind] at hd
  split at hd
  · cases hd
  · obtain ⟨rest, hrest, hd⟩ := Option.bind_eq_some_iff.1 hd
    obtain ⟨⟨name, body⟩, hsplit, hd⟩ := Option.bind_eq_some_iff.1 hd
    obtain ⟨n, hn, hd⟩ := Option.bind_eq_some_iff.1 hd
    simp only at hd
    split at hd
    · refine comments_eq_nil_of_readRecord ?_ hd
      obtain ⟨x, rfl, hx⟩ := eq_of_splitAtWord? hsplit
      obtain ⟨hplain, hne⟩ := all_isPlain_of_trim hn
      have hquiet := (CommentFree.quiet h.trim).of_afterWord? ⟨by decide, by decide⟩ hrest
      have hfree := (hquiet.commentFree (head?_ne_tick_of_isPlain hplain hne)).of_plain hplain
      exact (hfree.of_plain (all_isPlain_of_sameWord (by decide) hx)).quiet_trimStart
    · split at hd
      · simp only [readEnumeration, Option.bind_eq_bind] at hd
        obtain ⟨⟨inner, after⟩, -, hd⟩ := Option.bind_eq_some_iff.1 hd
        simp only at hd
        split at hd
        · cases hd
        · obtain ⟨values, -, hd⟩ := Option.bind_eq_some_iff.1 hd
          rw [enumeration?] at hd
          split at hd
          · obtain rfl := Option.some.inj hd
            rfl
          · cases hd
      · simp only [readArray, Option.bind_eq_bind] at hd
        obtain ⟨_, -, hd⟩ := Option.bind_eq_some_iff.1 hd
        obtain ⟨_, -, hd⟩ := Option.bind_eq_some_iff.1 hd
        obtain ⟨_, -, hd⟩ := Option.bind_eq_some_iff.1 hd
        obtain ⟨_, -, hd⟩ := Option.bind_eq_some_iff.1 hd
        obtain ⟨_, -, hd⟩ := Option.bind_eq_some_iff.1 hd
        obtain ⟨_, -, hd⟩ := Option.bind_eq_some_iff.1 hd
        obtain rfl := Option.some.inj hd
        rfl

end TypeDecl

/-! ## Functions -/

/-- A function in a text without comments keeps none. -/
theorem FunctionBody.comments_eq_nil {room : Nat} {t : Text} {f : FunctionBody}
    (h : CommentFree none t) (hf : read room t = some f) : f.comments = [] := by
  simp only [read, Option.bind_eq_bind] at hf
  split at hf
  · cases hf
  · split at hf
    · cases hf
    · obtain ⟨⟨header, rest⟩, hcut, hf⟩ := Option.bind_eq_some_iff.1 hf
      obtain ⟨signature, -, hf⟩ := Option.bind_eq_some_iff.1 hf
      obtain ⟨inner, hinner, hf⟩ := Option.bind_eq_some_iff.1 hf
      obtain ⟨⟨head, body⟩, hbegin, hf⟩ := Option.bind_eq_some_iff.1 hf
      obtain ⟨declarations, hdeclarations, hf⟩ := Option.bind_eq_some_iff.1 hf
      obtain ⟨s, hs, hf⟩ := Option.bind_eq_some_iff.1 hf
      obtain rfl := Option.some.inj hf
      have hquiet := ((h.trim.of_cutOuter? (by decide) (by decide) hcut).2.quiet).of_beforeEnd? hinner
      obtain ⟨hhead, hbody⟩ := hquiet.of_cutClause? ⟨by decide, by decide⟩ hbegin
        (Statement.head?_ne_tick_of_readDeclarations hdeclarations)
      rw [comments, Statement.comments_eq_nil_of_readDeclarations (.inl hhead) hdeclarations,
        Sequential.comments_eq_nil hbody hs]
      rfl

/-! ## Clauses -/

theorem Text.maskFrom_of_commentFrom? {t : Text} {skip position : Nat} {before : Option Char}
    (h : commentFrom? skip position before t = none) (masked : Text) :
    maskFrom masked false skip before t = masked.reverse ++ t := by
  induction t generalizing skip position before masked with
  | nil => exact (List.append_nil _).symm
  | cons c t ih =>
    cases skip with
    | succ skip =>
      rw [maskFrom, ih h]
      simp
    | zero =>
      rw [commentFrom?] at h
      rw [maskFrom]
      split at h
      · cases h
      · rw [ih h]
        simp
      · rw [ih h]
        simp

theorem Text.maskComments_eq_self {t : Text} (h : CommentFree none t) : maskComments t = t :=
  maskFrom_of_commentFrom? h []

namespace ListEntry

theorem lineComment_eq_none {t : Text} (h : CommentFree none t) : lineComment t = none := by
  rw [lineComment, Comment.ofLine?, dropLead?, if_neg]
  · rfl
  · intro hstart
    obtain ⟨u, hu⟩ := List.isPrefixOf_iff_prefix.1 hstart
    have hfree := (h.of_isPrefix (List.takeWhile_prefix (· != '\n'))).trim
    rw [← hu] at hfree
    exact not_commentFree_hyphens none u hfree

/-- The entries of a clause without comments keep none. -/
theorem comment_eq_none_of_ofPieces? {pieces : List Text} {es : List ListEntry}
    (h : ∀ p ∈ pieces, CommentFree none p) (hes : ofPieces? pieces = some es) :
    ∀ e ∈ es, e.comment = none := by
  induction pieces generalizing es with
  | nil =>
    obtain rfl := Option.some.inj hes
    exact fun e he => absurd he List.not_mem_nil
  | cons piece pieces ih =>
    have hrest : ∀ p ∈ pieces, CommentFree none p := fun p hp => h p (List.mem_cons_of_mem _ hp)
    simp only [ofPieces?, maskComments_eq_self (h piece List.mem_cons_self),
      Option.bind_eq_bind] at hes
    split at hes
    · cases hes
    · obtain ⟨es', hes', hes⟩ := Option.bind_eq_some_iff.1 hes
      obtain rfl := Option.some.inj hes
      intro e he
      rcases List.mem_cons.1 he with rfl | he
      · cases pieces with
        | cons next pieces => exact lineComment_eq_none (hrest next List.mem_cons_self)
        | nil =>
          obtain ⟨g, hg, hpad⟩ := exists_pad_trimEnd piece
          have hposition : position? (byteLength (trimEnd piece)) piece
              = some (trimEnd piece).length := by
            conv_lhs => arg 2; rw [hpad]
            rw [position?_append]
          have hdrop : piece.drop (trimEnd piece).length = g := by
            conv_lhs => arg 2; rw [hpad]
            exact List.drop_left
          simp only [hposition, Option.getD_some, hdrop]
          exact lineComment_eq_none (commentFrom?_of_plain (all_isPlain_of_blank hg) 0 0 none)
      · exact ih hrest hes' e he

theorem comment_eq_none_of_split? {inner : Text} {es : List ListEntry} (h : CommentFree none inner)
    (hes : split? inner = some es) : ∀ e ∈ es, e.comment = none :=
  comment_eq_none_of_ofPieces? (fun _ hp => h.of_mem_splitOuter (by decide) (by decide) hp) hes

theorem commentFree_of_interior? {keyword t inner : Text} (hrun : IsRun keyword) (h : Quiet t)
    (hinner : interior? keyword t = some inner) : CommentFree none inner := by
  simp only [interior?, Option.bind_eq_bind] at hinner
  obtain ⟨rest, hrest, hinner⟩ := Option.bind_eq_some_iff.1 hinner
  obtain ⟨⟨a, b⟩, hgroup, hinner⟩ := Option.bind_eq_some_iff.1 hinner
  simp only at hinner
  split at hinner
  · obtain rfl := Option.some.inj hinner
    refine (((h.of_afterWord? hrun hrest).commentFree fun hhead => ?_).of_parenthesised? hgroup).1
    rw [(eq_of_parenthesised? hgroup).1] at hhead
    exact absurd (Option.some.inj hhead) (by decide)
  · cases hinner

/-- What is read of the entries of a clause without comments keeps none, when it keeps the comments
of the entries. -/
theorem flatMap_comments_eq_nil {α : Type} {f : ListEntry → Option α} {comments : α → List Comment}
    {keyword t inner : Text} {es : List ListEntry} {as : List α} (hrun : IsRun keyword)
    (h : CommentFree none t) (hinner : interior? keyword t = some inner)
    (hes : split? inner = some es) (has : es.mapM f = some as)
    (hf : ∀ e a, f e = some a → comments a = e.comment.toList) : as.flatMap comments = [] := by
  rw [List.flatMap_eq_nil_iff]
  intro a ha
  obtain ⟨e, he, hread⟩ := (mem_mapM has).2 a ha
  rw [hf e a hread,
    comment_eq_none_of_split? (commentFree_of_interior? hrun h.quiet hinner) hes e he]
  rfl

end ListEntry

/-- A port keeps the comment of its entry. -/
theorem Port.comments_of_readEntry {room : Nat} {e : ListEntry} {p : Port}
    (h : readEntry room e = some p) : p.comments = e.comment.toList := by
  simp only [readEntry, Option.bind_eq_bind] at h
  obtain ⟨_, -, h⟩ := Option.bind_eq_some_iff.1 h
  obtain ⟨_, -, h⟩ := Option.bind_eq_some_iff.1 h
  obtain ⟨_, -, h⟩ := Option.bind_eq_some_iff.1 h
  obtain rfl := Option.some.inj h
  rfl

/-- A generic keeps the comment of its entry. -/
theorem Generic.comments_of_readEntry {room : Nat} {e : ListEntry} {g : Generic}
    (h : readEntry room e = some g) : g.comments = e.comment.toList := by
  simp only [readEntry, Option.bind_eq_bind] at h
  obtain ⟨_, -, h⟩ := Option.bind_eq_some_iff.1 h
  obtain ⟨_, -, h⟩ := Option.bind_eq_some_iff.1 h
  obtain rfl := Option.some.inj h
  rfl

theorem PortClause.comments_eq_nil {room : Nat} {t : Text} {c : PortClause} (h : CommentFree none t)
    (hc : read room t = some c) : c.comments = [] := by
  simp only [read, Option.bind_eq_bind] at hc
  split at hc
  · cases hc
  · obtain ⟨inner, hinner, hc⟩ := Option.bind_eq_some_iff.1 hc
    obtain ⟨es, hes, hc⟩ := Option.bind_eq_some_iff.1 hc
    obtain ⟨ports, hports, hc⟩ := Option.bind_eq_some_iff.1 hc
    rw [ofPorts?] at hc
    split at hc
    · obtain rfl := Option.some.inj hc
      exact ListEntry.flatMap_comments_eq_nil ⟨by decide, by decide⟩ h.trim hinner hes hports
        fun _ _ => Port.comments_of_readEntry
    · cases hc

theorem GenericClause.comments_eq_nil {room : Nat} {t : Text} {c : GenericClause}
    (h : CommentFree none t) (hc : read room t = some c) : c.comments = [] := by
  simp only [read, Option.bind_eq_bind] at hc
  split at hc
  · cases hc
  · obtain ⟨inner, hinner, hc⟩ := Option.bind_eq_some_iff.1 hc
    obtain ⟨es, hes, hc⟩ := Option.bind_eq_some_iff.1 hc
    obtain ⟨generics, hgenerics, hc⟩ := Option.bind_eq_some_iff.1 hc
    rw [ofGenerics?] at hc
    split at hc
    · obtain rfl := Option.some.inj hc
      exact ListEntry.flatMap_comments_eq_nil ⟨by decide, by decide⟩ h.trim hinner hes hgenerics
        fun _ _ => Generic.comments_of_readEntry
    · cases hc

/-! ## Entities and components -/

namespace Interface

/-- A body that starts with a tick holds no clauses. -/
theorem readClauses_of_tick {room fuel : Nat} {generics : Option GenericClause}
    {ports : Option PortClause} {t : Text} (h : t.head? = some '\'') :
    readClauses room generics ports fuel t = none := by
  cases fuel with
  | zero => rfl
  | succ fuel =>
    obtain ⟨t, rfl⟩ := List.head?_eq_some_iff.1 h
    have hskip : (skipTrivia ⟨0, none, '\'' :: t⟩).rest = '\'' :: t := by
      simp [skipTrivia, triviaEnd, isAsciiBlank]
    simp only [readClauses, hskip, List.isEmpty_cons, Bool.false_eq_true, if_false,
      Option.bind_eq_bind]
    rw [Option.bind_eq_none_iff]
    intro n hn
    have hhead : (('\'' :: t).take n).head? = some '\'' := by
      obtain ⟨s, u, -, rfl, -⟩ := exists_of_extentFrom hn
      rfl
    simp only [startsWith_of_tick (⟨by decide, by decide⟩ : IsRun "generic".toList) hhead,
      startsWith_of_tick (⟨by decide, by decide⟩ : IsRun "port".toList) hhead, Bool.false_and,
      Bool.false_eq_true, if_false]

/-- The clauses in a body without comments keep none. -/
theorem comments_eq_nil_of_readClauses {room fuel : Nat} {generics gs : Option GenericClause}
    {ports ps : Option PortClause} {t : Text} (h : CommentFree none t)
    (hgenerics : generics.elim [] GenericClause.comments = [])
    (hports : ports.elim [] PortClause.comments = [])
    (hread : readClauses room generics ports fuel t = some (gs, ps)) :
    gs.elim [] GenericClause.comments = [] ∧ ps.elim [] PortClause.comments = [] := by
  induction fuel generalizing generics ports t with
  | zero => cases hread
  | succ fuel ih =>
    have hrest : CommentFree none (skipTrivia ⟨0, none, t⟩).rest := by
      rw [(skipTrivia_of_commentFree (p := ⟨0, none, t⟩) h).2]
      exact h.dropWhile_asciiBlank
    simp only [readClauses, Option.bind_eq_bind] at hread
    split at hread
    · obtain ⟨rfl, rfl⟩ := Prod.mk.inj (Option.some.inj hread)
      exact ⟨hgenerics, hports⟩
    · obtain ⟨n, hn, hread⟩ := Option.bind_eq_some_iff.1 hread
      split at hread
      · obtain ⟨clause, hclause, hread⟩ := Option.bind_eq_some_iff.1 hread
        have hnone : (some clause).elim [] GenericClause.comments = [] :=
          GenericClause.comments_eq_nil (hrest.take n) hclause
        exact ih (hrest.of_extent? hn) hnone hports hread
      · split at hread
        · obtain ⟨clause, hclause, hread⟩ := Option.bind_eq_some_iff.1 hread
          have hnone : (some clause).elim [] PortClause.comments = [] :=
            PortClause.comments_eq_nil (hrest.take n) hclause
          exact ih (hrest.of_extent? hn) hgenerics hnone hread
        · cases hread

theorem quiet_of_splitUnit? {keyword t body : Text} {requireIs : Bool} {name : Ident}
    (hrun : IsRun keyword) (h : Quiet t)
    (hsplit : splitUnit? keyword requireIs t = some (name, body)) : Quiet body := by
  simp only [splitUnit?, Option.bind_eq_bind] at hsplit
  split at hsplit
  · cases hsplit
  · obtain ⟨rest, hrest, hsplit⟩ := Option.bind_eq_some_iff.1 hsplit
    obtain ⟨n, hname, hsplit⟩ := Option.bind_eq_some_iff.1 hsplit
    obtain ⟨hplain, hne⟩ := all_isPlain_of_ofText? hname
    have hcut := List.takeWhile_append_dropWhile
      (p := fun c => !(isBlank c || c == '-')) (l := rest)
    have hfree := (h.of_afterWord? hrun hrest).commentFree
      (hcut ▸ head?_ne_tick_of_isPlain hplain hne)
    rw [← hcut] at hfree
    have hquiet := (hfree.of_plain hplain).quiet_trimStart
    have hend : ∀ {inner}, Quiet inner →
        ((beforeEnd? [keyword] false (some n.text) inner).bind fun body => some (n, body))
          = some (name, body) → Quiet body := fun hinner h => by
      obtain ⟨body', hbody, h⟩ := Option.bind_eq_some_iff.1 h
      obtain ⟨-, rfl⟩ := Prod.mk.inj (Option.some.inj h)
      exact hinner.of_beforeEnd? hbody
    split at hsplit
    · rename_i after his
      exact hend (hquiet.of_afterWord? ⟨by decide, by decide⟩ his) hsplit
    · split at hsplit
      · cases hsplit
      · exact hend hquiet hsplit

/-- **An entity or a component in a text without comments keeps none.** -/
theorem comments_eq_nil {room : Nat} {keyword t : Text} {requireIs : Bool} {u : Interface}
    (hrun : IsRun keyword) (h : CommentFree none t)
    (hu : readAs room keyword requireIs t = some u) : u.comments = [] := by
  simp only [readAs, Option.bind_eq_bind] at hu
  obtain ⟨⟨name, body⟩, hsplit, hu⟩ := Option.bind_eq_some_iff.1 hu
  obtain ⟨⟨generics, ports⟩, hclauses, hu⟩ := Option.bind_eq_some_iff.1 hu
  obtain rfl := Option.some.inj hu
  have hfree := (quiet_of_splitUnit? hrun h.trim.quiet hsplit).commentFree fun htick => by
    rw [readClauses_of_tick htick] at hclauses
    cases hclauses
  obtain ⟨hgenerics, hports⟩ := comments_eq_nil_of_readClauses hfree rfl rfl hclauses
  rw [comments, hgenerics, hports]
  rfl

end Interface
end CanonicalVhdl
