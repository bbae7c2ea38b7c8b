import CanonicalVhdl.Proofs.Text.Complete

/-!
# Closing clauses and what follows them

A printed unit ends with a clause on a line of its own that repeats its kind and
name.  A scan that ends there also ends there when something follows: the words
before the clause look no further than its tokens, and a search for the end of a
signature that misses the semicolon of the clause stays inside parentheses.

## Main definitions

* `Text.Follows u` — `u` may stand after a unit.
* `Text.clauseEnd words` — the words of a closing clause and its semicolon.

## Main statements

* `Text.findPointFrom_statement` — a statement passes parentheses as it found them.
* `Text.extent?_closing` — a unit ends with its closing clause, whatever follows.
-/

namespace CanonicalVhdl

open Text Token

namespace Text

variable {test : CodePoint → Bool}

/-! ## What may follow a unit -/

/-- A text that may stand after a unit: nothing, or a line end and texts that close no
parenthesis opened before them. -/
structure Follows (u : Text) : Prop where
  /-- The text is empty or starts with a line feed. -/
  atLineEnd : AtLineEnd u
  /-- No place of the text stands outside a parenthesis opened before it. -/
  inside : ∀ test, IsOuterTest test → ∀ position depth before,
    findPointFrom test 0 position (depth + 1) before u = none

theorem follows_nil : Follows [] := ⟨atLineEnd_nil, fun _ _ _ _ _ => rfl⟩

/-- A complete statement inside parentheses leaves their number as it is. -/
theorem findPointFrom_statement (htest : IsOuterTest test) {u : Text} (hu : AtLineEnd u) (n : Nat) :
    ∀ (t : Text) (parens : Nat) (s : Nesting) (position q depth : Nat) (before : Option Char),
      t.length ≤ n → extentFrom parens s 0 position before t = some (position + t.length) →
      findPointFrom test 0 q (depth + parens + 1) before (t ++ u)
        = findPointFrom test 0 (q + t.length) (depth + 1) (lastOr before t) u := by
  intro t parens s position q depth before ht h
  refine (complete_of_extentFrom n t parens s position before ht h).findPointFrom htest ?_ q depth
  obtain rfl | ⟨v, rfl⟩ := hu.cases
  · exact fun h => nomatch h
  · exact fun h => absurd (Option.some.inj h) (by decide)

/-! ## Closing clauses -/

/-- Words after blanks and a semicolon. -/
def clauseEnd (words : List Text) : Text :=
  words.flatMap (' ' :: ·) ++ [';']

theorem clauseEnd_cons (w : Text) (ws : List Text) :
    clauseEnd (w :: ws) = ' ' :: (w ++ clauseEnd ws) := by
  simp [clauseEnd]

theorem head_clauseEnd (ws : List Text) (u : Text) :
    (clauseEnd ws ++ u).head?.any isIdentChar = false := by
  cases ws with
  | nil => rfl
  | cons w ws => rw [clauseEnd_cons]; rfl

theorem nextToken?_run {w r : Text} (hw : IsRun w) (hr : r.head?.any isIdentChar = false)
    {sep : Char} (hsep : isAsciiBlank sep = true) (q : Nat) (before : Option Char) :
    ∃ q' before', nextToken? ⟨q, before, sep :: (w ++ r)⟩ = some (w, ⟨q', before', r⟩) := by
  have hskip : skipTrivia ⟨q, before, sep :: (w ++ r)⟩ = skipTrivia ⟨q + 1, some sep, w ++ r⟩ := by
    simp [skipTrivia, triviaEnd, hsep]
  exact ⟨_, _, (nextToken?_congr hskip).trans (nextToken?_word hw hr _)⟩

theorem nextToken?_semicolon (r : Text) (q : Nat) (before : Option Char) :
    ∃ q' before', nextToken? ⟨q, before, ';' :: r⟩ = some ([';'], ⟨q', before', r⟩) :=
  ⟨_, _, nextToken?_code (by decide) (by decide) (at_code (by decide)
    (fun h => absurd h (by decide)) (fun h => absurd h (by decide))) q⟩

/-- The tokens of a closing clause, and those after it. -/
theorem nextTokens_clauseEnd {ws : List Text} (hws : ∀ w ∈ ws, IsRun w) (u : Text) :
    ∀ (q : Nat) (before : Option Char), ∃ q' before', ∀ n,
      nextTokens (ws.length + 1 + n) ⟨q, before, clauseEnd ws ++ u⟩
        = ws ++ [';'] :: nextTokens n ⟨q', before', u⟩ := by
  induction ws with
  | nil =>
    intro q before
    obtain ⟨q', before', h⟩ := nextToken?_semicolon u q before
    refine ⟨q', before', fun n => ?_⟩
    have h' : nextToken? ⟨q, before, clauseEnd [] ++ u⟩ = some ([';'], ⟨q', before', u⟩) := h
    rw [show ([] : List Text).length + 1 + n = n + 1 by simp; omega, nextTokens, h']
    rfl
  | cons w ws ih =>
    intro q before
    obtain ⟨q₁, before₁, h⟩ := nextToken?_run (hws w List.mem_cons_self) (head_clauseEnd ws u)
      (show isAsciiBlank ' ' = true by decide) q before
    obtain ⟨q', before', hrest⟩ := ih (fun v hv => hws v (List.mem_cons_of_mem w hv)) q₁ before₁
    refine ⟨q', before', fun n => ?_⟩
    have h' : nextToken? ⟨q, before, clauseEnd (w :: ws) ++ u⟩
        = some (w, ⟨q₁, before₁, clauseEnd ws ++ u⟩) := by
      rw [clauseEnd_cons, List.cons_append, List.append_assoc]
      exact h
    rw [show (w :: ws).length + 1 + n = (ws.length + 1 + n) + 1 by simp; omega, nextTokens, h']
    simp only [hrest, List.cons_append]

theorem nextTokens_take (n k : Nat) (p : Place) : nextTokens n p = (nextTokens (n + k) p).take n := by
  induction n generalizing p with
  | zero => simp [nextTokens]
  | succ n ih =>
    rw [Nat.add_right_comm, nextTokens, nextTokens]
    cases nextToken? p with
    | none => rfl
    | some next => rw [List.take_succ_cons, ← ih]

/-- The tokens of a closing clause do not depend on what follows it. -/
theorem nextTokens_clauseEnd_of_le {ws : List Text} (hws : ∀ w ∈ ws, IsRun w) (u : Text) {n : Nat}
    (hn : n ≤ ws.length + 1) (q : Nat) (before : Option Char) :
    nextTokens n ⟨q, before, clauseEnd ws ++ u⟩ = (ws ++ [[';']]).take n := by
  obtain ⟨q', before', h⟩ := nextTokens_clauseEnd hws u q before
  obtain ⟨k, hk⟩ := Nat.exists_eq_add_of_le hn
  have hall := h 0
  rw [Nat.add_zero, hk] at hall
  rw [nextTokens_take n k, hall]
  rfl

theorem isRun_endWord : IsRun "end".toList := ⟨by decide, by decide⟩

/-- A closing clause that names a kind and a unit is long enough to look ahead into. -/
theorem readAlike_closing {ws : List Text} (hws : ∀ w ∈ ws, IsRun w) (hlen : 2 ≤ ws.length)
    (u : Text) :
    ReadAlike ('\n' :: ("end".toList ++ clauseEnd ws)) ('\n' :: ("end".toList ++ (clauseEnd ws ++ u))) := by
  have key : ∀ u, ∀ n ≤ 4, ∀ q before,
      nextTokens n ⟨q, before, '\n' :: ("end".toList ++ (clauseEnd ws ++ u))⟩
        = ("end".toList :: (ws ++ [[';']])).take n := by
    intro u n hn q before
    cases n with
    | zero => rfl
    | succ n =>
      obtain ⟨q', before', h⟩ := nextToken?_run isRun_endWord (head_clauseEnd ws u)
        (show isAsciiBlank '\n' = true by decide) q before
      rw [nextTokens, h]
      simp only [nextTokens_clauseEnd_of_le hws u (show n ≤ ws.length + 1 by omega),
        List.take_succ_cons]
  intro n hn q before
  rw [key u n hn]
  have := key [] n hn q before
  rwa [List.append_nil] at this

/-- A scan that a blank, a word and a rest let end, ends there also when something
follows the rest. -/
theorem extentFrom_run_append {w r u : Text} {sep : Char} (hsep : isAsciiBlank sep = true)
    (hw : IsRun w) (hr : r.head?.any isIdentChar = false)
    (hru : (r ++ u).head?.any isIdentChar = false)
    (hopen : ∀ q before, opensConstruct w ⟨q, before, r ++ u⟩ = opensConstruct w ⟨q, before, r⟩)
    {parens n : Nat}
    (hrest : ∀ {s position before}, extentFrom parens s 0 position before r = some n →
      extentFrom parens s 0 position before (r ++ u) = some n)
    {s : Nesting} {position : Nat} {before : Option Char}
    (h : extentFrom parens s 0 position before (sep :: (w ++ r)) = some n) :
    extentFrom parens s 0 position before (sep :: (w ++ (r ++ u))) = some n := by
  have hne : ∀ d, isAsciiBlank d = false → sep ≠ d := by
    rintro d hd rfl
    rw [hsep] at hd
    cases hd
  have hident : isIdentChar sep = false := by
    rw [Bool.eq_false_iff]
    intro hident
    simp only [isAsciiBlank, Bool.or_eq_true, beq_iff_eq] at hsep
    rcases hsep with (((rfl | rfl) | rfl) | rfl) | rfl <;> revert hident <;> decide
  have hpass : ∀ x, extentFrom parens s 0 position before (sep :: x)
      = extentFrom parens s 0 (position + 1) (some sep) x := fun x =>
    extentFrom_code
      (at_code (hne '"' (by decide)) (fun h => absurd h (hne '\'' (by decide)))
        (fun h => absurd h (hne '-' (by decide))))
      (by simp [hident]) (hne '(' (by decide)) (hne ')' (by decide)) (by simp [hne ';' (by decide)])
  rw [hpass] at h ⊢
  cases parens with
  | zero =>
    rw [extentFrom_word hw (by simpa using hident) hr] at h
    rw [extentFrom_word hw (by simpa using hident) hru]
    obtain ⟨next, hnext, h⟩ := Option.bind_eq_some_iff.1 h
    have hword : s.word w ⟨position + 1 + w.length, lastOr (some sep) w, r ++ u⟩ = some next := by
      rw [← hnext]
      simp only [Nesting.word, hopen]
    rw [hword]
    exact hrest h
  | succ parens =>
    rw [extentFrom_word_inner hw (by simpa using hident) hr] at h
    rw [extentFrom_word_inner hw (by simpa using hident) hru]
    exact hrest h

/-- A closing clause that ends a text ends it also when something follows. -/
theorem extentFrom_clauseEnd (u : Text) {ws : List Text} (hws : ∀ w ∈ ws, IsRun w)
    (hopen : ∀ pre w post, ws = pre ++ w :: post → ∀ q before,
      opensConstruct w ⟨q, before, clauseEnd post ++ u⟩
        = opensConstruct w ⟨q, before, clauseEnd post⟩)
    {parens n : Nat} {s : Nesting} {position : Nat} {before : Option Char}
    (h : extentFrom parens s 0 position before (clauseEnd ws) = some n) :
    extentFrom parens s 0 position before (clauseEnd ws ++ u) = some n := by
  induction ws generalizing s position before with
  | nil =>
    have hcode : ∀ r, Lexeme.at before (';' :: r) = .code := fun r =>
      at_code (by decide) (fun h => absurd h (by decide)) (fun h => absurd h (by decide))
    have hident : isIdentChar ';' = false := by decide
    simp only [clauseEnd, List.flatMap_nil, List.nil_append, List.singleton_append, extentFrom,
      hcode, hident, Bool.false_and, Bool.false_eq_true, if_false, Char.reduceBEq, Bool.true_and]
      at h ⊢
    by_cases hp : (parens == 0) = true
    · rw [if_pos hp] at h ⊢
      by_cases hd : (s.depth == 0) = true
      · rw [if_pos hd] at h ⊢
        exact h
      · rw [if_neg hd] at h
        cases h
    · rw [if_neg hp] at h
      cases h
  | cons w ws ih =>
    have hrest := @ih (fun v hv => hws v (List.mem_cons_of_mem w hv)) fun pre v post hsplit =>
      hopen (w :: pre) v post (by rw [hsplit, List.cons_append])
    have hend := head_clauseEnd ws []
    rw [List.append_nil] at hend
    rw [clauseEnd_cons] at h
    rw [clauseEnd_cons, List.cons_append, List.append_assoc]
    exact extentFrom_run_append (by decide) (hws w List.mem_cons_self) hend (head_clauseEnd ws u)
      (hopen [] w ws rfl) hrest h

/-- Words, blanks and line ends before a semicolon hide no parenthesis. -/
theorem findPointFrom_plain (htest : IsOuterTest test) {u : Text} (hu : Follows u) {x : Text}
    (hx : ∀ c ∈ x, isIdentChar c = true ∨ isAsciiBlank c = true) (position depth : Nat)
    (before : Option Char) :
    (findPointFrom test 0 position depth before (x ++ [';'])).map (·.char)
      = (findPointFrom test 0 position depth before (x ++ [';'] ++ u)).map (·.char) := by
  have hcode : ∀ c, isIdentChar c = true ∨ isAsciiBlank c = true ∨ c = ';' →
      c ≠ '(' ∧ c ≠ ')' ∧ ∀ before r, Lexeme.at before (c :: r) = .code := by
    intro c hc
    have hne : ∀ d, isIdentChar d = false → isAsciiBlank d = false → d ≠ ';' → c ≠ d := by
      rintro d hd hd' hsemi rfl
      rw [hd, hd'] at hc
      simp [hsemi] at hc
    refine ⟨hne '(' (by decide) (by decide) (by decide), hne ')' (by decide) (by decide) (by decide),
      fun before r => at_code (hne '"' (by decide) (by decide) (by decide))
        (fun h => absurd h (hne '\'' (by decide) (by decide) (by decide)))
        (fun h => absurd h (hne '-' (by decide) (by decide) (by decide)))⟩
  have hstep : ∀ c r position depth before,
      isIdentChar c = true ∨ isAsciiBlank c = true ∨ c = ';' →
      findPointFrom test 0 position depth before (c :: r)
        = if test ⟨position, before, c, r, depth⟩ then some ⟨position, before, c, r, depth⟩
          else findPointFrom test 0 (position + 1) depth (some c) r := by
    intro c r position depth before hc
    obtain ⟨ho, hclose, hat⟩ := hcode c hc
    simp [findPointFrom, hat, ho, hclose]
  induction x generalizing position depth before with
  | nil =>
    simp only [List.nil_append, List.singleton_append]
    rw [hstep _ _ _ _ _ (.inr (.inr rfl)), hstep _ _ _ _ _ (.inr (.inr rfl)),
      ← List.nil_append u, htest.append _ _ _ _ _ _ hu.atLineEnd.ident, List.nil_append]
    cases depth with
    | zero => simp [htest.semicolon ⟨position, before, ';', [], 0⟩ rfl rfl]
    | succ depth =>
      split
      · rfl
      · rw [hu.inside test htest]
        rfl
  | cons c x ih =>
    have hc : isIdentChar c = true ∨ isAsciiBlank c = true ∨ c = ';' :=
      (hx c List.mem_cons_self).imp_right Or.inl
    rw [List.cons_append, List.cons_append, hstep _ _ _ _ _ hc, hstep _ _ _ _ _ hc,
      htest.append _ _ _ _ _ _ hu.atLineEnd.ident]
    split
    · rfl
    · exact ih (fun d hd => hx d (List.mem_cons_of_mem c hd)) _ _ _

/-- The closing clause of a unit: its kind, perhaps in two words, and its name. -/
def kindWords : List (List Text) :=
  [["entity"], ["architecture"], ["package"], ["package", "body"]].map (·.map String.toList)

theorem isRun_kindWords : ∀ kind ∈ kindWords, ∀ w ∈ kind, IsRun w := by
  have key : ∀ kind ∈ kindWords, ∀ w ∈ kind, w ≠ [] ∧ w.all isIdentChar = true := by decide
  exact fun kind hkind w hw => ⟨(key kind hkind w hw).1, (key kind hkind w hw).2⟩

theorem isRun_closing {kind : List Text} (hkind : kind ∈ kindWords) (name : Ident) :
    ∀ w ∈ kind ++ [name.text], IsRun w := by
  intro w hw
  rcases List.mem_append.1 hw with hw | hw
  · exact isRun_kindWords kind hkind w hw
  · rw [List.mem_singleton.1 hw]
    exact name.isRun

/-- The words of a closing clause that look ahead. -/
theorem closing_cases {kind : List Text} (hkind : kind ∈ kindWords) (name : Ident)
    {pre post : List Text} {w : Text} (hsplit : kind ++ [name.text] = pre ++ w :: post) :
    lookingWords.contains (fold w) = false ∨
      w = "entity".toList ∧ post = [name.text] ∨
      w = "package".toList ∧ (post = [name.text] ∨ post = ["body".toList, name.text]) := by
  have hname : lookingWords.contains (fold name.text) = false :=
    lookingWords_of_structureWords name.not_mem_structureWords
  have harchitecture : lookingWords.contains (fold "architecture".toList) = false := by decide
  have hbody : lookingWords.contains (fold "body".toList) = false := by decide
  obtain rfl | rfl | rfl | rfl : kind = ["entity".toList] ∨ kind = ["architecture".toList] ∨
      kind = ["package".toList] ∨ kind = ["package".toList, "body".toList] := by
    simpa [kindWords] using hkind
  all_goals
    obtain _ | ⟨a, _ | ⟨b, _ | ⟨c, pre⟩⟩⟩ := pre <;>
      simp only [List.cons_append, List.nil_append, List.cons.injEq, List.nil_eq, reduceCtorEq,
        List.append_eq_nil_iff, and_false] at hsplit
  · obtain ⟨rfl, rfl⟩ := hsplit
    exact .inr (.inl ⟨rfl, rfl⟩)
  · obtain ⟨-, rfl, -⟩ := hsplit
    exact .inl hname
  · obtain ⟨rfl, -⟩ := hsplit
    exact .inl harchitecture
  · obtain ⟨-, rfl, -⟩ := hsplit
    exact .inl hname
  · obtain ⟨rfl, rfl⟩ := hsplit
    exact .inr (.inr ⟨rfl, .inl rfl⟩)
  · obtain ⟨-, rfl, -⟩ := hsplit
    exact .inl hname
  · obtain ⟨rfl, rfl⟩ := hsplit
    exact .inr (.inr ⟨rfl, .inr rfl⟩)
  · obtain ⟨-, rfl, -⟩ := hsplit
    exact .inl hbody
  · obtain ⟨-, -, rfl, -⟩ := hsplit
    exact .inl hname

/-- No word of a closing clause looks over its end. -/
theorem opensConstruct_closing {kind : List Text} (hkind : kind ∈ kindWords) (name : Ident) (u : Text)
    {pre post : List Text} {w : Text} (hsplit : kind ++ [name.text] = pre ++ w :: post) (q : Nat)
    (before : Option Char) :
    opensConstruct w ⟨q, before, clauseEnd post ++ u⟩
      = opensConstruct w ⟨q, before, clauseEnd post⟩ := by
  have hpost : ∀ v ∈ post, IsRun v := fun v hv =>
    isRun_closing hkind name v (hsplit ▸ List.mem_append_right _ (List.mem_cons_of_mem w hv))
  have htokens : ∀ n ≤ post.length + 1, nextTokens n ⟨q, before, clauseEnd post ++ u⟩
      = nextTokens n ⟨q, before, clauseEnd post⟩ := by
    intro n hn
    have := nextTokens_clauseEnd_of_le hpost [] hn q before
    rw [List.append_nil] at this
    rw [nextTokens_clauseEnd_of_le hpost u hn, this]
  have hentity : ∀ p, opensConstruct "entity".toList p
      = headed ["is"] ((nextTokens 2 p).drop 1) := fun _ => rfl
  have hpackage : ∀ p, opensConstruct "package".toList p
      = if headed ["body"] (nextTokens 3 p) then headed ["is"] ((nextTokens 3 p).drop 2)
        else headed ["is"] ((nextTokens 3 p).drop 1) := fun _ => rfl
  obtain hlook | ⟨rfl, rfl⟩ | ⟨rfl, rfl | rfl⟩ := closing_cases hkind name hsplit
  · exact opensConstruct_place hlook _ _
  · rw [hentity, hentity, htokens 2 (Nat.le_refl 2)]
  · -- the third token is the first after the clause, but no word depends on it
    have hfalse : ∀ x, opensConstruct "package".toList ⟨q, before, clauseEnd [name.text] ++ x⟩
        = false := by
      intro x
      obtain ⟨q', before', h⟩ := nextTokens_clauseEnd hpost x q before
      have hthree : nextTokens 3 ⟨q, before, clauseEnd [name.text] ++ x⟩
          = name.text :: [';'] :: nextTokens 1 ⟨q', before', x⟩ := h 1
      have hbody : sameWord "body".toList name.text = false := by
        rw [sameWord_comm]
        exact name.sameWord_eq_false (by decide)
      rw [hpackage, hthree]
      simp only [headed, List.zip_cons_cons, List.all_cons, hbody, Bool.false_and, Bool.and_false,
        Bool.false_eq_true, if_false, List.drop_succ_cons, List.drop_zero]
      rw [show sameWord "is".toList [';'] = false by decide]
      simp
    have hnil := hfalse []
    rw [List.append_nil] at hnil
    rw [hfalse u, hnil]
  · rw [hpackage, hpackage, htokens 3 (Nat.le_refl 3)]

/-- A construct with the closing clause of a unit ends there, whatever follows. -/
theorem extent?_closing {kind : List Text} (hkind : kind ∈ kindWords) (name : Ident) {b u : Text}
    (hu : Follows u)
    (h : isConstruct (b ++ '\n' :: ("end".toList ++ clauseEnd (kind ++ [name.text]))) = true) :
    extent? (b ++ '\n' :: ("end".toList ++ clauseEnd (kind ++ [name.text])) ++ u)
      = some (b ++ '\n' :: ("end".toList ++ clauseEnd (kind ++ [name.text]))).length := by
  have hrun := isRun_closing hkind name
  have hlen : 2 ≤ (kind ++ [name.text]).length := by
    have key : ∀ kind ∈ kindWords, kind ≠ [] := by decide
    have := List.length_pos_iff.2 (key kind hkind)
    rw [List.length_append, List.length_singleton]
    omega
  have hopen : ∀ q before, opensConstruct "end".toList
      ⟨q, before, clauseEnd (kind ++ [name.text]) ++ u⟩
        = opensConstruct "end".toList ⟨q, before, clauseEnd (kind ++ [name.text])⟩ := fun q before =>
    opensConstruct_place (by decide) _ _
  have hhead := head_clauseEnd (kind ++ [name.text]) []
  rw [List.append_nil] at hhead
  have hend : ∀ parens s position before n,
      extentFrom parens s 0 position before
        ('\n' :: ("end".toList ++ clauseEnd (kind ++ [name.text]))) = some n →
      extentFrom parens s 0 position before
        ('\n' :: ("end".toList ++ (clauseEnd (kind ++ [name.text]) ++ u))) = some n :=
    fun parens s position before n =>
      extentFrom_run_append (by decide) isRun_endWord hhead (head_clauseEnd _ u) hopen
        (extentFrom_clauseEnd u hrun fun pre w post hsplit q before =>
          opensConstruct_closing hkind name u hsplit q before)
  have hplain : ∀ c ∈ '\n' :: ("end".toList ++ (kind ++ [name.text]).flatMap (' ' :: ·)),
      isIdentChar c = true ∨ isAsciiBlank c = true := by
    intro c hc
    rcases List.mem_cons.1 hc with rfl | hc
    · exact .inr (by decide)
    rcases List.mem_append.1 hc with hc | hc
    · exact .inl (List.all_eq_true.1 isRun_endWord.ident c hc)
    obtain ⟨w, hw, hc⟩ := List.mem_flatMap.1 hc
    rcases List.mem_cons.1 hc with rfl | hc
    · exact .inr (by decide)
    · exact .inl (List.all_eq_true.1 (hrun w hw).ident c hc)
  have hpoint : ∀ test, IsOuterTest test → ∀ position depth before,
      (findPointFrom test 0 position depth before
        ('\n' :: ("end".toList ++ clauseEnd (kind ++ [name.text])))).map (·.char)
      = (findPointFrom test 0 position depth before
        ('\n' :: ("end".toList ++ (clauseEnd (kind ++ [name.text]) ++ u)))).map (·.char) := by
    intro test htest position depth before
    have := findPointFrom_plain htest hu hplain position depth before
    simpa only [clauseEnd, List.cons_append, List.append_assoc] using this
  have key := extentFrom_rel (R := fun x y => ∀ n, x = some n → y = some n) (fun _ _ h => h)
    (atLineEnd_newline _) (atLineEnd_newline _) hend (readAlike_closing hrun hlen u)
    (isBeforeSemicolon_congr (atLineEnd_newline _) (atLineEnd_newline _) hpoint)
    b.length b (Nat.le_refl _) 0 .start 0 none
  rw [List.append_assoc, List.cons_append, List.append_assoc]
  exact key _ (beq_iff_eq.1 h)

/-- Words without a part in the structure, after blanks or points, change nothing. -/
theorem extentFrom_runs {s : Nesting} (hs : s.afterEnd = false) {u : Text}
    (hu : u.head?.any isIdentChar = false) :
    ∀ (runs : List (Char × Text)) (position : Nat) (before : Option Char),
      (∀ p ∈ runs, p.1 = ' ' ∨ p.1 = '.') →
      (∀ p ∈ runs, IsRun p.2 ∧ structureWords.contains (fold p.2) = false) →
      ∃ before', extentFrom 0 s 0 position before (runs.flatMap (fun p => p.1 :: p.2) ++ u)
        = extentFrom 0 s 0 (position + (runs.flatMap fun p => p.1 :: p.2).length) before' u
  | [], position, before, _, _ => ⟨before, rfl⟩
  | (c, w) :: runs, position, before, hsep, hwords => by
    have hc := hsep (c, w) List.mem_cons_self
    obtain ⟨hw, hplain⟩ := hwords (c, w) List.mem_cons_self
    have hsep' : ∀ p ∈ runs, p.1 = ' ' ∨ p.1 = '.' := fun p hp => hsep p (List.mem_cons_of_mem _ hp)
    obtain ⟨before', hrest⟩ := extentFrom_runs hs hu runs (position + 1 + w.length)
      (lastOr (some c) w) hsep' fun p hp => hwords p (List.mem_cons_of_mem _ hp)
    have hhead : (runs.flatMap (fun p => p.1 :: p.2) ++ u).head?.any isIdentChar = false := by
      cases runs with
      | nil => exact hu
      | cons p runs =>
        have hp := hsep' p List.mem_cons_self
        rcases hp with hp | hp <;> simp [hp] <;> decide
    have hcode : ∀ r, extentFrom 0 s 0 position before (c :: r)
        = extentFrom 0 s 0 (position + 1) (some c) r := by
      intro r
      rcases hc with rfl | rfl <;>
        exact extentFrom_code
          (at_code (by decide) (fun h => absurd h (by decide)) (fun h => absurd h (by decide)))
          (by simp [isIdentChar]) (by decide) (by decide) (by simp)
    have hb : (some c).any isIdentChar = false := by rcases hc with rfl | rfl <;> decide
    refine ⟨before', ?_⟩
    rw [List.flatMap_cons, List.cons_append, List.cons_append, List.append_assoc, hcode,
      extentFrom_word hw hb hhead, Nesting.word_eq_self hplain hs, Option.bind_some, hrest,
      List.length_cons, List.length_append]
    congr 1
    change position + 1 + w.length + _ = position + (w.length + _ + 1)
    omega

end Text
end CanonicalVhdl
