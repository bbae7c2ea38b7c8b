import CanonicalVhdl.Proofs.Comment.Interface
import CanonicalVhdl.Proofs.Settled.Basic
import CanonicalVhdl.Proofs.Text.Complete
import CanonicalVhdl.Proofs.Token.Remark

/-!
# Settled texts and their parts

Every search that cuts a text into parts leaves out blanks, words, marks and comments
only.  The text is settled when its parts are.

## Main statements

* `Text.Settled.of_withoutComments` — a text whose code is settled.
* `Text.Settled.of_beforeEnd?`, `Text.Settled.of_cutClause?`, `Text.settled_of_pieces?` —
  closing clauses, clauses and pieces.
-/

namespace CanonicalVhdl.Text

/-! ## Blanks and words -/

theorem Settled.of_trimStart {t : Text} (h : Settled (trimStart t)) : Settled t := by
  have hsplit : t = t.takeWhile isBlank ++ trimStart t := List.takeWhile_append_dropWhile.symm
  rw [hsplit]
  exact h.bland_append (isBland_of_blank List.all_takeWhile)

theorem Settled.of_trimEnd {t : Text} (h : Settled (trimEnd t)) : Settled t := by
  obtain ⟨g, hg, hsplit⟩ := exists_pad_trimEnd t
  rw [hsplit]
  exact h.append_bland (isBland_of_blank hg)

theorem Settled.of_trim {t : Text} (h : Settled (trim t)) : Settled t :=
  h.of_trimEnd.of_trimStart

/-- A word that is bland in one case is so in any. -/
theorem IsBland.of_sameWord {w x : Text} (hw : IsBland w) (h : sameWord w x = true) : IsBland x := by
  intro c hc
  have hmem : c.toLower ∈ fold w := by
    rw [sameWord_iff.1 h]
    exact List.mem_map_of_mem hc
  obtain ⟨d, hd, hdc⟩ := List.mem_map.1 hmem
  obtain ⟨htick, hquote⟩ := hw d hd
  constructor
  · rintro rfl
    exact htick ((toLower_eq_iff (by decide)).1 hdc)
  · rintro rfl
    exact hquote ((toLower_eq_iff (by decide)).1 hdc)

theorem Settled.of_afterWord? {w t r : Text} (hw : IsBland w) (h : Settled r)
    (hr : afterWord? w t = some r) : Settled t := by
  obtain ⟨g, x, g', hg, hx, hg', -, rfl⟩ := eq_of_afterWord? hr
  exact ((h.bland_append (isBland_of_blank hg')).bland_append (hw.of_sameWord hx)).bland_append
    (isBland_of_blank hg)

theorem Settled.of_afterWords? {ws : List Text} {t r : Text} (hws : ∀ w ∈ ws, IsBland w)
    (h : Settled r) (hr : afterWords? ws t = some r) : Settled t := by
  induction ws generalizing t with
  | nil =>
    obtain rfl := Option.some.inj hr
    exact h
  | cons w ws ih =>
    rw [afterWords?, List.foldlM_cons] at hr
    obtain ⟨u, hu, hr⟩ := Option.bind_eq_some_iff.1 hr
    exact (ih (fun v hv => hws v (List.mem_cons_of_mem w hv)) hr).of_afterWord?
      (hws w List.mem_cons_self) hu

/-- A text without something harmless at its end. -/
def BlandEnd (r t : Text) : Prop :=
  ∃ x, t = r ++ x ∧ IsBland x

theorem BlandEnd.settled {r t : Text} (h : BlandEnd r t) (hr : Settled r) : Settled t := by
  obtain ⟨x, rfl, hx⟩ := h
  exact hr.append_bland hx

theorem BlandEnd.isBland {r t : Text} (h : BlandEnd r t) (hr : IsBland r) : IsBland t := by
  obtain ⟨x, rfl, hx⟩ := h
  exact hr.append hx

theorem BlandEnd.trans {r s t : Text} (h : BlandEnd r s) (h' : BlandEnd s t) : BlandEnd r t := by
  obtain ⟨x, rfl, hx⟩ := h
  obtain ⟨y, rfl, hy⟩ := h'
  exact ⟨x ++ y, List.append_assoc .., hx.append hy⟩

theorem BlandEnd.refl (t : Text) : BlandEnd t t := ⟨[], (List.append_nil t).symm, isBland_nil⟩

theorem blandEnd_trimEnd (t : Text) : BlandEnd (trimEnd t) t := by
  obtain ⟨g, hg, hsplit⟩ := exists_pad_trimEnd t
  exact ⟨g, hsplit, isBland_of_blank hg⟩

theorem blandEnd_dropFinal? {c : Char} {t r : Text} (hc : c ≠ '\'' ∧ c ≠ '"')
    (h : dropFinal? c t = some r) : BlandEnd r t :=
  ⟨[c], eq_of_dropFinal? h, isBland_cons hc isBland_nil⟩

theorem blandEnd_beforeWord? {w t r : Text} (hw : IsBland w) (h : beforeWord? w t = some r) :
    BlandEnd r t := by
  obtain ⟨s, hs, rfl⟩ := Option.map_eq_some_iff.1 h
  rw [wholeWord?] at hs
  obtain ⟨-, hs⟩ := Option.ite_none_left_eq_some.1 hs
  obtain ⟨s', hs', hs⟩ := Option.bind_eq_some_iff.1 hs
  obtain ⟨-, hs⟩ := Option.ite_none_left_eq_some.1 hs
  obtain rfl := Option.some.inj hs
  obtain ⟨x, hx, hsame⟩ := dropWord?_eq_some_iff.1 (show dropWord? w.reverse _ = some s' from hs')
  have hword : IsBland x :=
    IsBland.of_sameWord (fun c hc => hw c (List.mem_reverse.1 hc)) hsame
  refine ⟨(t.reverse.takeWhile isBlank ++ (x ++ s'.takeWhile isBlank)).reverse, ?_, ?_⟩
  · rw [← List.reverse_append, ← List.reverse_inj, List.reverse_reverse, List.append_assoc,
      List.append_assoc, List.takeWhile_append_dropWhile, ← hx, List.takeWhile_append_dropWhile]
  · intro c hc
    refine ((isBland_of_blank List.all_takeWhile).append (hword.append
      (isBland_of_blank List.all_takeWhile))) c (List.mem_reverse.1 hc)

theorem blandEnd_foldlM {step : Text → Text → Option Text} {ws : List Text}
    (hstep : ∀ w ∈ ws, ∀ t r, step t w = some r → BlandEnd r t) :
    ∀ {t r : Text}, ws.foldlM step t = some r → BlandEnd r t := by
  induction ws with
  | nil =>
    intro t r h
    obtain rfl := Option.some.inj h
    exact .refl t
  | cons w ws ih =>
    intro t r h
    rw [List.foldlM_cons] at h
    obtain ⟨u, hu, h⟩ := Option.bind_eq_some_iff.1 h
    exact (ih (fun v hv => hstep v (List.mem_cons_of_mem w hv)) h).trans
      (hstep w List.mem_cons_self t u hu)

/-- A closing clause holds neither ticks nor quotation marks. -/
theorem blandEnd_beforeEnd? {keywords : List Text} {required : Bool} {name : Option Text}
    {t r : Text} (hkeywords : ∀ w ∈ keywords, IsBland w) (hname : ∀ n ∈ name, IsBland n)
    (h : beforeEnd? keywords required name t = some r) : BlandEnd r t := by
  simp only [beforeEnd?, Option.bind_eq_bind] at h
  obtain ⟨u, hu, h⟩ := Option.bind_eq_some_iff.1 h
  have hclosed : BlandEnd (trimEnd u) t :=
    ((blandEnd_trimEnd u).trans (blandEnd_dropFinal? (by decide) hu)).trans (blandEnd_trimEnd t)
  have hunnamed : BlandEnd ((name.bind fun n => beforeWord? n (trimEnd u)).getD (trimEnd u)) t := by
    cases hn : name.bind fun n => beforeWord? n (trimEnd u) with
    | none => exact hclosed
    | some v =>
      obtain ⟨n, hn, hv⟩ := Option.bind_eq_some_iff.1 hn
      exact (blandEnd_beforeWord? (hname n hn) hv).trans hclosed
  have hend : IsBland "end".toList := isBland_of_ident (by decide)
  split at h
  · next v hv =>
    have hwords : BlandEnd v _ := blandEnd_foldlM
      (fun w hw t r => blandEnd_beforeWord? (hkeywords w (List.mem_reverse.1 hw))) hv
    exact ((blandEnd_beforeWord? hend h).trans hwords).trans hunnamed
  · obtain ⟨-, h⟩ := Option.ite_none_left_eq_some.1 h
    exact (blandEnd_beforeWord? hend h).trans hunnamed

theorem Settled.of_beforeEnd? {keywords : List Text} {required : Bool} {name : Option Text}
    {t r : Text} (hkeywords : ∀ w ∈ keywords, IsBland w) (hname : ∀ n ∈ name, IsBland n)
    (h : Settled r) (hr : beforeEnd? keywords required name t = some r) : Settled t :=
  (blandEnd_beforeEnd? hkeywords hname hr).settled h

/-! ## Cuts -/

/-- A text whose parts before and after a mark are settled. -/
theorem Settled.of_mem_outerMatches {pattern t : Text} {i : Nat} (hpattern : IsBland pattern)
    (hne : pattern ≠ []) (hi : i ∈ outerMatches pattern t) (ha : Settled (t.take i))
    (hb : Settled (t.drop (i + pattern.length))) : Settled t := by
  obtain ⟨s, x, u, rfl, rfl, hx, -⟩ := mem_outerMatches hi
  rw [List.take_left] at ha
  rw [length_eq_of_sameWord hx, ← List.length_append, ← List.append_assoc, List.drop_left] at hb
  refine ha.between hb (hpattern.of_sameWord hx) ?_
  rintro rfl
  exact hne (List.eq_nil_of_length_eq_zero (length_eq_of_sameWord hx))

theorem Settled.of_cutOuter? {pattern t a b : Text} (hpattern : IsBland pattern)
    (hne : pattern ≠ []) (ha : Settled a) (hb : Settled b)
    (h : cutOuter? pattern t = some (a, b)) : Settled t := by
  obtain ⟨i, hi, h⟩ := Option.map_eq_some_iff.1 h
  obtain ⟨rfl, rfl⟩ := Prod.mk.inj h
  exact Settled.of_mem_outerMatches hpattern hne (mem_of_outerMatch? hi) ha hb

theorem Settled.of_splitAtWord? {w t a b : Text} (hw : IsBland w) (hne : w ≠ [])
    (ha : Settled a) (hb : Settled b) (h : splitAtWord? w t = some (a, b)) : Settled t := by
  obtain ⟨x, rfl, hx⟩ := eq_of_splitAtWord? h
  refine ha.between hb (hw.of_sameWord hx) ?_
  rintro rfl
  exact hne (List.eq_nil_of_length_eq_zero (length_eq_of_sameWord hx))

theorem Settled.of_splitOnce {c : Char} {t a b : Text} (hc : c ≠ '\'' ∧ c ≠ '"')
    (ha : Settled a) (hb : Settled b) (h : splitOnce c t = some (a, b)) : Settled t := by
  obtain ⟨rfl, -⟩ := eq_of_splitOnce h
  exact ha.between hb (isBland_cons hc isBland_nil) (List.cons_ne_nil c [])

/-- A name and what follows it. -/
theorem Settled.of_dropWhile {p : Char → Bool} {t : Text} (hname : IsBland (t.takeWhile p))
    (h : Settled (t.dropWhile p)) : Settled t := by
  rw [← List.takeWhile_append_dropWhile (p := p) (l := t)]
  exact h.bland_append hname

theorem Settled.of_parenthesised? {t inner after : Text} (hinner : Settled inner)
    (hafter : Settled after) (h : parenthesised? t = some (inner, after)) : Settled t := by
  rw [(eq_of_parenthesised? h).1]
  exact (hinner.between hafter (m := [')']) (by decide) (List.cons_ne_nil _ _)).cons (by decide)

/-- The parts of a text between marks of one width at the given positions; `start`
characters of the whole text precede `t`. -/
def cutAt (width start : Nat) (t : Text) : List Nat → List Text
  | [] => [t]
  | i :: cuts => t.take (i - start) :: cutAt width (i + width) (t.drop (i + width - start)) cuts

theorem piecesBetween_eq (cuts : List Nat) :
    ∀ (start : Nat) (t : Text), piecesBetween start t cuts = cutAt 1 start t cuts := by
  induction cuts with
  | nil => exact fun _ _ => rfl
  | cons i cuts ih => exact fun start t => congrArg _ (ih _ _)

theorem Settled.of_cutAt {width : Nat} (hwidth : width ≠ 0) {cuts : List Nat} :
    ∀ (start : Nat) {t : Text},
      (∀ i ∈ cuts, start ≤ i ∧ ∃ m, m.length = width ∧ IsBland m ∧ m <+: t.drop (i - start)) →
      cuts.Pairwise (· + width ≤ ·) → (∀ piece ∈ cutAt width start t cuts, Settled piece) →
      Settled t := by
  induction cuts with
  | nil => exact fun _ _ _ _ h => h _ List.mem_cons_self
  | cons i cuts ih =>
    intro start t hcuts hsorted h
    obtain ⟨hle, m, hm, hbland, u, hu⟩ := hcuts i List.mem_cons_self
    obtain ⟨hlt, hsorted⟩ := List.pairwise_cons.1 hsorted
    have hdrop : t.drop (i + width - start) = u := by
      rw [Nat.sub_add_comm hle, ← List.drop_drop, ← hu, ← hm, List.drop_left]
    rw [← List.take_append_drop (i - start) t, ← hu]
    refine Settled.between (h _ List.mem_cons_self) ?_ hbland fun hnil => ?_
    · rw [← hdrop]
      refine ih (i + width) (fun j hj => ⟨hlt j hj, ?_⟩) hsorted fun piece hpiece =>
        h piece (List.mem_cons_of_mem _ hpiece)
      obtain ⟨hstart, m', hm', hbland', hprefix⟩ := hcuts j (List.mem_cons_of_mem i hj)
      have hij := hlt j hj
      refine ⟨m', hm', hbland', ?_⟩
      rwa [List.drop_drop, show i + width - start + (j - (i + width)) = j - start by omega]
    · rw [hnil] at hm
      exact hwidth hm.symm

theorem Settled.of_splitOuter {c : Char} {t : Text} (hc : c ≠ '\'' ∧ c ≠ '"')
    (h : ∀ piece ∈ splitOuter c t, Settled piece) : Settled t := by
  rw [splitOuter, piecesBetween_eq] at h
  refine Settled.of_cutAt Nat.one_ne_zero 0 (fun i hi => ⟨Nat.zero_le _, ?_⟩) ?_ h
  · obtain ⟨p, hp, rfl⟩ := List.mem_map.1 hi
    obtain ⟨hp, hchar⟩ := List.mem_filter.1 hp
    obtain ⟨s, hs, hposition, -⟩ := mem_codePoints (mem_outerPoints hp)
    refine ⟨[c], rfl, isBland_cons hc isBland_nil, p.after, ?_⟩
    rw [Nat.sub_zero, hposition, hs, List.drop_left, CodePoint.rest, ← beq_iff_eq.1 hchar]
    rfl
  · rw [List.pairwise_map]
    exact ((codePointsFrom_pairwise 0 0 0 none t).filter _).filter _

/-! ## Clauses -/

theorem rest_triviaEnd {t : Text} {u : Text} :
    ∀ {inComment : Bool} {passed : Nat} {before : Option Char}, u = t.drop passed →
      (triviaEnd inComment passed before u).rest
        = t.drop (triviaEnd inComment passed before u).passed := by
  induction u with
  | nil => exact fun h => h
  | cons c u ih =>
    intro inComment passed before h
    have hu : u = t.drop (passed + 1) := by
      rw [← List.drop_drop, ← h]
      rfl
    rw [triviaEnd]
    split
    · exact ih hu
    · split
      · exact ih hu
      · split
        · exact ih hu
        · exact h

/-- A clause starts with its word. -/
theorem startsWith_of_clauseFrom? {words : List Text} {t : Text} {i k fuel : Nat} :
    ∀ {p : Place}, p.rest = t.drop p.passed → clauseFrom? words fuel p = some (i, k) →
      ∃ w, words[k]? = some w ∧ startsWith w (t.drop i) = true := by
  induction fuel with
  | zero => exact fun _ h => nomatch h
  | succ fuel ih =>
    intro p hp h
    have hdrop : (skipTrivia p).rest = t.drop (skipTrivia p).passed := rest_triviaEnd hp
    simp only [clauseFrom?] at h
    split at h
    · cases h
    · split at h
      · next k' hk =>
        obtain ⟨rfl, rfl⟩ := Prod.mk.inj (Option.some.inj h)
        rw [← hdrop]
        obtain ⟨hlt, hword, -⟩ := List.findIdx?_eq_some_iff_getElem.1 hk
        exact ⟨_, List.getElem?_eq_getElem hlt, hword⟩
      · obtain ⟨n, -, h⟩ := Option.bind_eq_some_iff.1 h
        refine ih ?_ h
        rw [advance, hdrop, List.drop_drop]

theorem startsWith_of_clause? {words : List Text} {t : Text} {i k : Nat}
    (h : clause? words t = some (i, k)) :
    ∃ w, words[k]? = some w ∧ startsWith w (t.drop i) = true :=
  startsWith_of_clauseFrom? (p := ⟨0, none, t⟩) rfl h

theorem byteLength_sameWord {w x : Text} (h : sameWord w x = true) : byteLength x = byteLength w := by
  rw [← byteLength_fold x, ← sameWord_iff.1 h, byteLength_fold]

/-- A text that starts with a word, without as many bytes as the word has. -/
theorem exists_dropBytes {w t : Text} {n : Nat} (hw : IsBland w) (hne : w ≠ [])
    (h : startsWith w t = true) (hn : n ≤ byteLength w) :
    t.head? ≠ some '"' ∧ ∃ m, t = m ++ dropBytes n t ∧ IsBland m := by
  obtain ⟨r, hr⟩ := Option.isSome_iff_exists.1 h
  obtain ⟨g, x, g', hg, hx, -, -, rfl⟩ := eq_of_afterWord? hr
  have hbytes : n ≤ byteLength (g ++ x) := by
    rw [byteLength_append, byteLength_sameWord hx]
    omega
  have hbland : IsBland (g ++ x) := (isBland_of_blank hg).append (hw.of_sameWord hx)
  have hgx : g ++ x ≠ [] := by
    intro hnil
    obtain ⟨-, rfl⟩ := List.append_eq_nil_iff.1 hnil
    exact hne (List.eq_nil_of_length_eq_zero (length_eq_of_sameWord hx))
  obtain ⟨a, s, hsplit, hdrop⟩ := dropBytes_split (g' ++ r) hbytes
  rw [← List.append_assoc, hdrop]
  refine ⟨?_, a, by rw [hsplit, List.append_assoc], ?_⟩
  · rw [List.head?_append_of_ne_nil _ hgx]
    exact hbland.head?_ne
  · rw [hsplit] at hbland
    exact fun c hc => hbland c (List.mem_append_left s hc)

/-- What precedes a clause, and the clause without bytes of its word. -/
theorem Settled.of_clause {w t : Text} {i n : Nat} (hw : IsBland w) (hne : w ≠ [])
    (hstart : startsWith w (t.drop i) = true) (hn : n ≤ byteLength w) (ha : Settled (t.take i))
    (hb : Settled (dropBytes n (t.drop i))) : Settled t := by
  obtain ⟨hhead, m, hsplit, hm⟩ := exists_dropBytes hw hne hstart hn
  rw [← List.take_append_drop i t]
  refine ha.append ?_ fun _ => hhead
  rw [hsplit]
  exact hb.bland_append hm

theorem Settled.of_cutClause? {w t a b : Text} (hw : IsBland w) (hne : w ≠ []) (ha : Settled a)
    (hb : Settled b) (h : cutClause? w t = some (a, b)) : Settled t := by
  obtain ⟨⟨i, k⟩, hclause, h⟩ := Option.map_eq_some_iff.1 h
  obtain ⟨rfl, rfl⟩ := Prod.mk.inj h
  obtain ⟨v, hv, hstart⟩ := startsWith_of_clause? hclause
  obtain rfl : w = v := List.mem_singleton.1 (List.mem_of_getElem? hv) |>.symm
  exact Settled.of_clause hw hne hstart (Nat.le_refl _) ha hb

/-! ## Comments -/

/-- A line whose code is settled. -/
theorem Settled.of_lineCode {l : Text} (hl : '\n' ∉ l) (h : Settled (lineCode l)) : Settled l := by
  obtain ⟨g, w, hsplit, hg, hw⟩ := exists_lineCode l
  have hcode : Settled (lineCode l ++ g) := h.append_bland (isBland_of_blank hg)
  rw [hsplit, ← List.append_assoc]
  obtain rfl | ⟨v, rfl⟩ := hw
  · rwa [List.append_nil]
  · have hv : '\n' ∉ v := fun hv => hl (by rw [hsplit]; simp [hv])
    have hcomment : Settled ('-' :: '-' :: v) := by
      have := settled_comment hv settled_nil
      rwa [List.append_nil] at this
    exact hcode.append hcomment fun _ => by simp

theorem settled_join {parts : List Text} : Settled (join ['\n'] parts) ↔ ∀ p ∈ parts, Settled p := by
  induction parts with
  | nil => simp [join, settled_nil]
  | cons p ps ih =>
    cases ps with
    | nil => simp [join]
    | cons q qs =>
      rw [join_cons_of_ne_nil p (List.cons_ne_nil q qs)]
      exact (settled_line.trans (and_congr Iff.rfl ih)).trans List.forall_mem_cons.symm

theorem settled_splitOn {t : Text} : Settled t ↔ ∀ l ∈ splitOn '\n' t, Settled l := by
  rw [← settled_join, (join_splitOn '\n' t).1]

/-- The lines between line feeds have the code that the lines of a text have. -/
theorem stripComments_eq (t : Text) :
    stripComments t = join ['\n'] (((splitOn '\n' t).map lineCode).filter (!·.isEmpty)) := by
  obtain h | ⟨init, last, h⟩ := List.eq_nil_or_concat' (splitOn '\n' t)
  · exact absurd h (splitOnFrom_ne_nil '\n' [] [] t)
  have hcode : (lines t).map lineCode
      = init.map lineCode ++ (if last.isEmpty then [] else [lineCode last]) := by
    simp only [lines, h, List.dropLast_concat, List.getLast?_concat, Option.getD_some,
      List.map_append, List.map_map]
    congr 1
    · exact List.map_congr_left fun l _ => lineCode_withoutReturn l
    · split <;> rfl
  rw [stripComments, hcode, h, List.map_append, List.filter_append, List.filter_append]
  congr 2
  by_cases hnil : last = []
  · simp [hnil, show lineCode [] = [] from rfl]
  · simp [hnil]

/-- A line without its comment. -/
theorem stripComments_line {t : Text} (hline : '\n' ∉ t) : stripComments t = lineCode t := by
  rw [stripComments_eq, splitOn_of_not_mem hline]
  by_cases hcode : lineCode t = [] <;> simp [hcode, join]

theorem Settled.of_stripComments {t : Text} (h : Settled (stripComments t)) : Settled t := by
  rw [stripComments_eq] at h
  refine settled_splitOn.2 fun l hl => Settled.of_lineCode ((join_splitOn '\n' t).2 l hl) ?_
  by_cases hnil : lineCode l = []
  · rw [hnil]
    exact settled_nil
  · exact settled_join.1 h _ (List.mem_filter.2 ⟨List.mem_map_of_mem hl, by simpa using hnil⟩)

theorem Settled.of_withoutComments {t : Text} (h : Settled (withoutComments t)) : Settled t := by
  rw [withoutComments] at h
  split at h
  · exact h.of_stripComments
  · exact h

theorem maskFrom_comment {before : Option Char} {c : Char} {x u : Text}
    (h : Lexeme.at before (c :: (x ++ u)) = .comment (x.length + 1)) :
    maskFrom [] false 0 before (c :: (x ++ u))
      = blanked (c :: x) ++ maskFrom [] false 0 (lastOr (some c) x) u := by
  rw [maskFrom, h]
  simp only [Nat.add_sub_cancel]
  rw [maskFrom_reverse, maskFrom_skip, maskFrom_hide]
  simp

open Phase in
theorem isSound_of_blanks {p : Phase} {k : Nat} (h : (p.after (List.replicate k ' ')).isSound = true) :
    p.isSound = true := by
  cases p with
  | code | hyphen | tick | comment => rfl
  | torn => rwa [after_torn] at h
  | quoted =>
    induction k with
    | zero => exact h
    | succ k ih => exact ih h

open Phase in
/-- A pass over a masked text, and over the text itself. -/
theorem isSound_of_maskFrom (n : Nat) :
    ∀ (t : Text) (before : Option Char) (p : Phase), t.length ≤ n →
      (p.after (maskFrom [] false 0 before t)).isSound = true → (p.after t).isSound = true := by
  induction n with
  | zero =>
    intro t before p ht h
    rw [List.eq_nil_of_length_eq_zero (Nat.le_zero.1 ht)] at h ⊢
    exact h
  | succ n ih =>
    intro t before p ht h
    cases t with
    | nil => exact h
    | cons c t =>
      rw [List.length_cons] at ht
      obtain hat | ⟨x, r, rfl, hat | hat⟩ := at_split before c t
      · rw [maskFrom_code hat] at h
        exact ih t _ _ (by omega) h
      · -- the comment becomes blanks, so what precedes it is not quoted
        rw [List.length_append] at ht
        rw [maskFrom_comment hat, after_append] at h
        have hrest := ih r _ _ (by omega) h
        obtain ⟨y, s, heq, hlen, hy, hs⟩ := exists_comment hat
        obtain ⟨rfl, hxr⟩ := List.cons.inj heq
        have hp : (p.after (blanked ('-' :: x))).isSound = true := by
          have hr : AtLineEnd r := by
            rwa [(List.append_inj (hxr.trans (List.cons_append ..).symm) (by simp; omega)).2]
          obtain rfl | ⟨v, rfl⟩ := hr.cases
          · exact hrest
          · exact isSound_of_newline hrest
        rw [heq]
        refine isSound_comment (isSound_of_blanks hp) hy (q := p.after (blanked ('-' :: x))) ?_
        rwa [← (List.append_inj (hxr.trans (List.cons_append ..).symm) (by simp; omega)).2]
      · rw [List.length_append] at ht
        rw [maskFrom_literal hat, ← List.cons_append, after_append] at h
        rw [← List.cons_append, after_append]
        exact ih r _ _ (by omega) h

theorem Settled.of_maskComments {t : Text} (h : Settled (maskComments t)) : Settled t :=
  isSound_of_maskFrom t.length t none .code (Nat.le_refl _) h

/-- A declaration without the comment on its last line. -/
theorem Settled.of_splitTrailer {t : Text} (h : Settled (Comment.splitTrailer t).1) : Settled t := by
  refine Settled.of_trim ?_
  obtain ⟨hjoin, hlines⟩ := join_splitOn '\n' (trim t)
  have hne : splitOn '\n' (trim t) ≠ [] := splitOnFrom_ne_nil '\n' [] [] (trim t)
  have hlast : (splitOn '\n' (trim t)).getLast?.getD [] = (splitOn '\n' (trim t)).getLast hne := by
    rw [List.getLast?_eq_some_getLast hne]
    rfl
  have hcode : ∀ l, (splitTrailing l).1 = lineCode l := by
    intro l
    rw [splitTrailing, lineCode]
    cases commentStart? l <;> rfl
  simp only [Comment.splitTrailer, Comment.splitLast, hlast, hcode] at h
  have hparts : Settled (join ['\n'] (splitOn '\n' (trim t)).dropLast)
      ∧ Settled ((splitOn '\n' (trim t)).getLast hne) := by
    have hline := hlines _ (List.getLast_mem hne)
    split at h
    · next hnil =>
      refine ⟨Settled.of_stripComments ?_, h.of_trim.of_lineCode hline⟩
      rw [List.isEmpty_iff.1 hnil]
      exact settled_nil
    · obtain ⟨hhead, hlast⟩ := settled_line.1 h
      exact ⟨hhead.of_stripComments, hlast.of_trim.of_lineCode hline⟩
  rw [settled_splitOn, ← List.dropLast_concat_getLast hne]
  intro l hl
  rcases List.mem_append.1 hl with hl | hl
  · exact settled_join.1 hparts.1 l hl
  · rw [List.mem_singleton.1 hl]
    exact hparts.2

/-! ## Pieces -/

/-- A statement ends with its semicolon. -/
theorem getLast?_take_of_extent? {t : Text} {n : Nat} (h : extent? t = some n) :
    (t.take n).getLast? = some ';' := by
  obtain ⟨s, u, rfl, rfl, -⟩ := exists_of_extentFrom h
  have hsplit : s ++ ';' :: u = (s ++ [';']) ++ u := by simp
  rw [Nat.zero_add, hsplit, show s.length + 1 = (s ++ [';']).length by simp, List.take_left,
    List.getLast?_concat]

/-- A statement and what follows it. -/
theorem Settled.of_extent? {t : Text} {n : Nat} (hn : extent? t = some n) (ht : Settled (t.take n))
    (hr : Settled (t.drop n)) : Settled t := by
  rw [← List.take_append_drop n t]
  refine ht.append hr fun h => ?_
  rw [getLast?_take_of_extent? hn] at h
  cases h

/-- A comment up to the end of its line. -/
theorem settled_hyphens {t : Text} (h : Settled (t.dropWhile (· != '\n'))) :
    Settled ('-' :: '-' :: t) := by
  have hline : '\n' ∉ t.takeWhile (· != '\n') := by
    intro hmem
    have := List.all_eq_true.1 (List.all_takeWhile (p := (· != '\n')) (l := t)) _ hmem
    simp at this
  have := settled_comment hline h
  rwa [List.takeWhile_append_dropWhile] at this

theorem Settled.of_trailer? {t comment after : Text} (h : Settled after)
    (htrailer : trailer? t = some (comment, after)) : Settled t := by
  obtain ⟨g, x, rfl, hg, hx, -, -⟩ := exists_of_trailer? htrailer
  exact (settled_comment hx h).bland_append
    (isBland_of_blank (List.all_eq_true.2 fun c hc => (hg c hc).2))

theorem settled_of_piecesFrom? {fuel : Nat} :
    ∀ {found ps : List Piece} {t : Text}, piecesFrom? found fuel t = some ps →
      (∀ code trailer, .code code trailer ∈ ps → Settled code) → Settled t := by
  induction fuel with
  | zero => exact fun h => nomatch h
  | succ fuel ih =>
    intro found ps t h hps
    have hsplit : t = t.takeWhile isAsciiBlank ++ t.dropWhile isAsciiBlank :=
      List.takeWhile_append_dropWhile.symm
    have hblank : IsBland (t.takeWhile isAsciiBlank) :=
      isBland_of_blank (all_isBlank_of_ascii List.all_takeWhile)
    rw [hsplit]
    refine Settled.bland_append ?_ hblank
    simp only [piecesFrom?] at h
    split at h
    · next hnil =>
      rw [hnil]
      exact settled_nil
    · next rest hrest =>
      rw [hrest]
      exact settled_hyphens (ih h hps)
    · next hother =>
      split at h
      · cases h
      · next n hn =>
        split at h
        · next comment after htrailer =>
          exact Settled.of_extent? hn (hps _ _ (mem_of_piecesFrom? h List.mem_cons_self))
            ((ih h hps).of_trailer? htrailer)
        · exact Settled.of_extent? hn (hps _ _ (mem_of_piecesFrom? h List.mem_cons_self)) (ih h hps)

/-- A region is settled when the statements in it are. -/
theorem settled_of_pieces? {t : Text} {ps : List Piece} (h : pieces? t = some ps)
    (hps : ∀ code trailer, .code code trailer ∈ ps → Settled code) : Settled t :=
  settled_of_piecesFrom? h hps

end CanonicalVhdl.Text
