import CanonicalVhdl.Command.Format
import CanonicalVhdl.Proofs.Text.Continuation
import CanonicalVhdl.Proofs.Text.Layout
import Mathlib.Data.List.TakeWhile

/-!
# A line end after a file

The canonical text of a file is checked before a line end is put after it.  The
line end changes neither where the units of the file end nor what they read as, so
the checked text and the written one read alike as long as both fit.

## Main statements

* `Text.extent?_newline` — a final line end leaves every extent as it is.
* `DesignFile.read_newline` — a file reads the same with a final line end.
* `SourceFile.read_formatted_iff` — when a verified text reads back.
-/

namespace CanonicalVhdl

open Text Token

/-! ## Comments -/

namespace Text

theorem quotedLength_blank {c : Char} (hc : c ≠ '"') (n : Nat) (t : Text) :
    Lexeme.quotedLength n (t ++ [c]) = Lexeme.quotedLength n t ∨
      Lexeme.quotedLength n t = n + t.length ∧
        Lexeme.quotedLength n (t ++ [c]) = n + t.length + 1 := by
  fun_induction Lexeme.quotedLength n t with
  | case1 n rest ih =>
    simp only [List.cons_append, Lexeme.quotedLength, List.length_cons]
    obtain h | ⟨h, h'⟩ := ih
    · exact .inl h
    · exact .inr ⟨by omega, by omega⟩
  | case2 n rest hrest =>
    left
    rw [List.cons_append, Lexeme.quotedLength]
    intro r hr
    cases rest with
    | nil => exact hc (List.cons.inj hr).1
    | cons d rest => exact hrest rest (by rw [(List.cons.inj hr).1])
  | case3 n rest => exact .inl (by simp [Lexeme.quotedLength])
  | case4 n d rest h1 h2 h3 ih =>
    have hstep : Lexeme.quotedLength n (d :: rest ++ [c]) = Lexeme.quotedLength (n + 1) (rest ++ [c]) := by
      rw [List.cons_append, Lexeme.quotedLength]
      · intro r hd
        exact absurd hd h2
      · exact h2
      · exact h3
    rw [hstep, List.length_cons]
    obtain h | ⟨h, h'⟩ := ih
    · exact .inl h
    · exact .inr ⟨by omega, by omega⟩
  | case5 n =>
    by_cases hn : c = '\n'
    · subst hn
      exact .inl rfl
    · refine .inr ⟨rfl, ?_⟩
      rw [List.nil_append, Lexeme.quotedLength]
      · rfl
      · intro r h
        exact absurd h hc
      · exact hc
      · exact hn

/-- A blank after a text changes the lexeme at its head only if that runs on to the end. -/
theorem at_blank {c : Char} (hc : isBlank c = true) (before : Option Char) (d : Char) (t : Text) :
    Lexeme.at before (d :: (t ++ [c])) = Lexeme.at before (d :: t) ∨
      Lexeme.at before (d :: t) = .literal (t.length + 1) ∧
        Lexeme.at before (d :: (t ++ [c])) = .literal (t.length + 2) ∨
      ∃ m n, Lexeme.at before (d :: t) = .comment m
        ∧ Lexeme.at before (d :: (t ++ [c])) = .comment n := by
  have hne : ∀ e, isBlank e = false → c ≠ e := by
    rintro e he rfl
    rw [hc] at he
    cases he
  have hquote := hne '"' (by decide)
  have htick := hne '\'' (by decide)
  have hdash := hne '-' (by decide)
  by_cases hd : d = '-'
  · subst hd
    cases t with
    | nil =>
      left
      simp [Lexeme.at, hdash]
    | cons e t =>
      by_cases he : e = '-'
      · subst he
        exact .inr (.inr ⟨_, _, rfl, rfl⟩)
      · left
        simp [Lexeme.at, he]
  by_cases hq : d = '"'
  · subst hq
    simp only [Lexeme.at]
    obtain h | ⟨h, h'⟩ := quotedLength_blank hquote 1 t
    · exact .inl (by rw [h])
    · exact .inr (.inl ⟨by rw [h, Nat.add_comm], by rw [h']; congr 1; omega⟩)
  by_cases ht : d = '\''
  · subst ht
    left
    rcases t with _ | ⟨e, _ | ⟨f, t⟩⟩
    · simp [Lexeme.at]
    · simp [Lexeme.at, htick]
    · by_cases hf : f = '\'' <;> simp [Lexeme.at, hf]
  · left
    simp [Lexeme.at, hd, hq, ht]

theorem commentFrom?_skip_all (t : Text) (skip position : Nat) (before : Option Char)
    (h : t.length ≤ skip) : commentFrom? skip position before t = none := by
  induction t generalizing skip position before with
  | nil => rfl
  | cons c t ih =>
    cases skip with
    | zero => cases h
    | succ skip => exact ih _ _ _ (Nat.le_of_succ_le_succ h)

theorem commentFrom?_blank {c : Char} (hc : isBlank c = true) (t : Text) (skip position : Nat)
    (before : Option Char) (hskip : skip ≤ t.length) :
    commentFrom? skip position before (t ++ [c]) = commentFrom? skip position before t := by
  induction t generalizing skip position before with
  | nil =>
    rw [Nat.le_zero.1 hskip, List.nil_append]
    have hcode : Lexeme.at before [c] = .code := by
      refine at_code ?_ ?_ ?_
      · rintro rfl
        cases hc
      · rintro rfl
        cases hc
      · rintro rfl
        cases hc
    simp [commentFrom?, hcode]
  | cons d t ih =>
    cases skip with
    | succ skip => exact ih _ _ _ (Nat.le_of_succ_le_succ hskip)
    | zero =>
      rw [List.cons_append, commentFrom?, commentFrom?]
      obtain h | ⟨h, h'⟩ | ⟨m, n, h, h'⟩ := at_blank hc before d t
      · rw [h]
        obtain hat | ⟨x, r, rfl, hat | hat⟩ := at_split before d t <;>
          simp only [hat]
        · exact ih _ _ _ (Nat.zero_le _)
        · exact ih _ _ _ (by simp)
      · simp only [h, h', Nat.add_sub_cancel]
        rw [commentFrom?_skip_all t _ _ _ (Nat.le_refl _),
          commentFrom?_skip_all _ _ _ _ (by simp)]
      · simp only [h, h']

theorem commentStart?_blank {c : Char} (hc : isBlank c = true) (t : Text) :
    commentStart? (t ++ [c]) = commentStart? t :=
  commentFrom?_blank hc t 0 0 none (Nat.zero_le _)

theorem commentFrom?_le {t : Text} {skip position i : Nat} {before : Option Char}
    (h : commentFrom? skip position before t = some i) : i < position + t.length := by
  induction t generalizing skip position before with
  | nil => cases h
  | cons c t ih =>
    rw [List.length_cons]
    cases skip with
    | succ skip =>
      have := ih h
      omega
    | zero =>
      rw [commentFrom?] at h
      split at h
      · cases h
        omega
      · have := ih h
        omega
      · have := ih h
        omega

/-- A blank at the end of a line is no part of its code. -/
theorem lineCode_blank {c : Char} (hc : isBlank c = true) (line : Text) :
    lineCode (line ++ [c]) = lineCode line := by
  rw [lineCode, lineCode, commentStart?_blank hc]
  cases h : commentStart? line with
  | none => exact trimEnd_append (by simpa using hc) line
  | some i =>
    have hi := commentFrom?_le h
    simp only [Option.elim_some]
    rw [List.take_append_of_le_length (by omega)]

theorem lineCode_withoutReturn (line : Text) : lineCode (withoutReturn line) = lineCode line := by
  by_cases h : line.getLast? = some '\r'
  · obtain ⟨l, rfl⟩ : ∃ l, line = l ++ ['\r'] := List.getLast?_eq_some_iff.1 h
    have hwithout : withoutReturn (l ++ ['\r']) = l := by simp [withoutReturn, dropFinal?]
    rw [hwithout, lineCode_blank (by decide)]
  · rw [withoutReturn_eq_self h]

theorem splitOnFrom_final (c : Char) (piece : Text) (pieces : List Text) (t : Text) :
    splitOnFrom c piece pieces (t ++ [c]) = splitOnFrom c piece pieces t ++ [[]] := by
  induction t generalizing piece pieces with
  | nil => simp [splitOnFrom]
  | cons d t ih =>
    simp only [List.cons_append, splitOnFrom]
    split
    · exact ih _ _
    · exact ih _ _

theorem stripComments_newline (t : Text) : stripComments (t ++ ['\n']) = stripComments t := by
  have hsplit : splitOn '\n' (t ++ ['\n']) = splitOn '\n' t ++ [[]] := splitOnFrom_final ..
  have hne : splitOn '\n' t ≠ [] := splitOnFrom_ne_nil _ _ _ _
  obtain ⟨ps, l, hps⟩ : ∃ ps l, splitOn '\n' t = ps ++ [l] :=
    ⟨_, _, (List.dropLast_append_getLast hne).symm⟩
  have hlast : ((if l.isEmpty then [] else [l]).map lineCode).filter (fun code => !code.isEmpty)
      = [lineCode (withoutReturn l)].filter (fun code => !code.isEmpty) := by
    rw [lineCode_withoutReturn]
    cases l with
    | nil => rfl
    | cons c l => rfl
  simp only [stripComments, lines, hsplit, hps, List.dropLast_concat, List.getLast?_concat,
    Option.getD_some, List.map_append, List.filter_append, hlast]
  simp

/-- A final line end is trimmed off the code of a text. -/
theorem trim_withoutComments_newline (t : Text) :
    trim (withoutComments (t ++ ['\n'])) = trim (withoutComments t) := by
  rw [withoutComments, withoutComments, commentStart?_blank (by decide), stripComments_newline]
  split
  · rfl
  · exact trim_pad (g := []) rfl (by decide) t

/-! ## Words -/

/-- A final line end is trimmed off, or stays where it is. -/
theorem trimStart_newline (t : Text) :
    trimStart t = [] ∧ trimStart (t ++ ['\n']) = [] ∨
      trimStart (t ++ ['\n']) = trimStart t ++ ['\n'] := by
  induction t with
  | nil => exact .inl ⟨rfl, rfl⟩
  | cons c t ih =>
    by_cases hc : isBlank c = true
    · simpa [trimStart, hc] using ih
    · right
      simp [trimStart, hc]

theorem afterWord?_newline {w : Text} (hw : IsRun w) (t : Text) :
    afterWord? w t = none ∧ afterWord? w (t ++ ['\n']) = none ∨
      ∃ r r', afterWord? w t = some r ∧ afterWord? w (t ++ ['\n']) = some r'
        ∧ (r' = r ∨ r' = r ++ ['\n']) := by
  obtain ⟨h, h'⟩ | h := trimStart_newline t
  · left
    have hnone : wholeWord? true w none [] = none := by
      cases w with
      | nil => rfl
      | cons a w => rfl
    simp [afterWord?, h, h', hnone]
  · have hwhole := wholeWord?_append hw.ident (atLineEnd_newline []).ident none (trimStart t)
    cases hword : wholeWord? true w none (trimStart t) with
    | none =>
      left
      simp [afterWord?, h, hwhole, hword]
    | some r =>
      right
      refine ⟨trimStart r, trimStart (r ++ ['\n']), by simp [afterWord?, hword],
        by simp [afterWord?, h, hwhole, hword], ?_⟩
      obtain ⟨hr, hr'⟩ | hr := trimStart_newline r
      · exact .inl (by rw [hr, hr'])
      · exact .inr hr

theorem startsWith_newline {w : Text} (hw : IsRun w) (t : Text) :
    startsWith w (t ++ ['\n']) = startsWith w t := by
  obtain ⟨h, h'⟩ | ⟨r, r', h, h', -⟩ := afterWord?_newline hw t <;> simp [startsWith, h, h']

end Text

/-! ## Units -/

theorem afterWords?_pair (v w t : Text) :
    afterWords? [v, w] t = (afterWord? v t).bind (afterWord? w) := by
  simp [afterWords?]

theorem UnitKind.ofText_newline (t : Text) : UnitKind.ofText (t ++ ['\n']) = UnitKind.ofText t := by
  have hdash : "--".toList.isPrefixOf (t ++ ['\n']) = "--".toList.isPrefixOf t := by
    match t with
    | [] => rfl
    | [c] => by_cases hc : c = '-' <;> simp [List.isPrefixOf, hc]
    | c :: d :: t => simp [List.isPrefixOf]
  have hrun : ∀ w ∈ ["library", "use", "entity", "architecture", "package", "body"],
      IsRun w.toList := by
    have key : ∀ w ∈ ["library", "use", "entity", "architecture", "package", "body"],
        w.toList ≠ [] ∧ w.toList.all isIdentChar = true := by decide
    exact fun w hw => ⟨(key w hw).1, (key w hw).2⟩
  have hbody : (afterWords? ["package".toList, "body".toList] (t ++ ['\n'])).isSome
      = (afterWords? ["package".toList, "body".toList] t).isSome := by
    rw [afterWords?_pair, afterWords?_pair]
    obtain ⟨h, h'⟩ | ⟨r, r', h, h', hr⟩ := afterWord?_newline (hrun "package" (by simp)) t
    · rw [h, h']
    · rw [h, h', Option.bind_some, Option.bind_some]
      have hsame : startsWith "body".toList r' = startsWith "body".toList r := by
        obtain rfl | rfl := hr
        · rfl
        · exact startsWith_newline (hrun "body" (by simp)) r
      exact hsame
  simp only [UnitKind.ofText, hdash, hbody, startsWith_newline (hrun "library" (by simp)),
    startsWith_newline (hrun "use" (by simp)), startsWith_newline (hrun "entity" (by simp)),
    startsWith_newline (hrun "architecture" (by simp)),
    startsWith_newline (hrun "package" (by simp))]

/-- A unit reads the same with a line end after it. -/
theorem DesignUnit.read_newline (room : Nat) (kind : UnitKind) (start start' : Nat) (t : Text) :
    DesignUnit.read room ⟨kind, start, t ++ ['\n']⟩ = DesignUnit.read room ⟨kind, start', t⟩ := by
  have htrim : trim (t ++ ['\n']) = trim t := trim_pad (g := []) rfl (by decide) t
  cases kind with
  | comment => simp only [DesignUnit.read, Comment.read, htrim]
  | context => simp only [DesignUnit.read, ContextClause.read, trim_withoutComments_newline]
  | entity => simp only [DesignUnit.read, Interface.readEntity, Interface.readAs, htrim]
  | architecture => simp only [DesignUnit.read, Architecture.read, htrim]
  | package => simp only [DesignUnit.read, Package.read, htrim]
  | packageBody => simp only [DesignUnit.read, PackageBody.read, htrim]
  | unknown => rfl

namespace Text

/-! ## Extents -/

theorem nextToken?_blank {c : Char} (hc : isAsciiBlank c = true) (passed : Nat)
    (before : Option Char) : nextToken? ⟨passed, before, [c]⟩ = none := by
  simp [nextToken?, skipTrivia, triviaEnd, hc]

theorem readAlike_newline : ReadAlike [] ['\n'] := by
  intro n _ q c
  cases n with
  | zero => rfl
  | succ n =>
    rw [nextTokens, nextTokens, nextToken?_blank (by decide)]
    rfl

/-- A final line end leaves every extent as it is. -/
theorem extent?_newline (t : Text) : extent? (t ++ ['\n']) = extent? t := by
  have hcode : ∀ before, Lexeme.at before ['\n'] = .code := fun before =>
    at_code (by decide) (fun h => absurd h (by decide)) (fun h => absurd h (by decide))
  have hend : ∀ parens s position before,
      extentFrom parens s 0 position before [] = extentFrom parens s 0 position before ['\n'] := by
    intro parens s position before
    rw [extentFrom_code (hcode before) (by simp [isIdentChar]) (by decide) (by decide) (by simp)]
    rfl
  have hpoint : ∀ test, IsOuterTest test → ∀ position depth before,
      (findPointFrom test 0 position depth before []).map (·.char)
        = (findPointFrom test 0 position depth before ['\n']).map (·.char) := by
    intro test htest position depth before
    simp [findPointFrom, hcode, htest.newline ⟨position, before, '\n', [], depth⟩ rfl]
  have key := extentFrom_rel (R := Eq) (fun _ => rfl) atLineEnd_nil (atLineEnd_newline []) hend
    readAlike_newline (isBeforeSemicolon_congr atLineEnd_nil (atLineEnd_newline []) hpoint)
    t.length t (Nat.le_refl _) 0 .start 0 none
  rw [List.append_nil] at key
  exact key.symm

/-- An extent is not empty and stays inside the text. -/
theorem extentFrom_bounds {t : Text} {parens : Nat} {s : Nesting} {skip position n : Nat}
    {before : Option Char} (h : extentFrom parens s skip position before t = some n) :
    position < n ∧ n ≤ position + t.length := by
  induction t generalizing parens s skip position before with
  | nil => cases h
  | cons c t ih =>
    have hlater : ∀ {parens s skip before},
        extentFrom parens s skip (position + 1) before t = some n →
        position < n ∧ n ≤ position + (t.length + 1) := by
      intro parens s skip before h
      have := ih h
      omega
    cases skip with
    | succ skip => exact hlater h
    | zero =>
      simp only [extentFrom] at h
      split at h
      · exact hlater h
      · exact hlater h
      split at h
      · split at h
        · split at h
          · cases h
          · exact hlater h
        · exact hlater h
      split at h
      · exact hlater h
      split at h
      · split at h
        · cases h
        · exact hlater h
      split at h
      · split at h
        · cases h
          rw [List.length_cons]
          omega
        · exact hlater h
      · exact hlater h

end Text

namespace SourceUnit

/-! ## Units of a text with a final line end -/

theorem lengthAt_pos (c : Char) (t : Text) : 0 < lengthAt (c :: t) := by
  have hextent : 0 < (extent? (c :: t)).getD (c :: t).length := by
    cases h : extent? (c :: t) with
    | none => simp
    | some n => exact (extentFrom_bounds h).1
  rw [lengthAt]
  obtain hat | ⟨x, r, rfl, hat | hat⟩ := at_split none c t <;>
    simp only [hat]
  · exact hextent
  · omega
  · exact hextent

/-- A unit ends before the final line end, or runs up to the end of the text. -/
theorem lengthAt_newline (c : Char) (t : Text) :
    lengthAt (c :: (t ++ ['\n'])) = lengthAt (c :: t) ∧ lengthAt (c :: t) ≤ t.length + 1 ∨
      lengthAt (c :: (t ++ ['\n'])) = t.length + 2 ∧ lengthAt (c :: t) = t.length + 1 := by
  have hextent := extent?_newline (c :: t)
  rw [List.cons_append] at hextent
  have hcases :
      (extent? (c :: (t ++ ['\n']))).getD (c :: (t ++ ['\n'])).length
          = (extent? (c :: t)).getD (c :: t).length
        ∧ (extent? (c :: t)).getD (c :: t).length ≤ t.length + 1 ∨
      (extent? (c :: (t ++ ['\n']))).getD (c :: (t ++ ['\n'])).length = t.length + 2
        ∧ (extent? (c :: t)).getD (c :: t).length = t.length + 1 := by
    rw [hextent]
    cases h : extent? (c :: t) with
    | none => exact .inr ⟨by simp, by simp⟩
    | some n =>
      have hle := (extentFrom_bounds h).2
      rw [List.length_cons] at hle
      exact .inl ⟨rfl, by simpa using hle⟩
  rw [lengthAt, lengthAt, at_append (atLineEnd_newline [])]
  obtain hat | ⟨x, r, rfl, hat | hat⟩ := at_split none c t <;>
    simp only [hat]
  · exact hcases
  · left
    simp
  · exact hcases

/-- What a file makes of a unit. -/
def outcome (room : Nat) (u : SourceUnit) : Bool × Option DesignUnit :=
  (u.isComment, DesignUnit.read room u)

theorem outcome_newline (room : Nat) (start : Nat) (t : Text) :
    outcome room ⟨UnitKind.ofText (t ++ ['\n']), start, t ++ ['\n']⟩
      = outcome room ⟨UnitKind.ofText t, start, t⟩ := by
  rw [UnitKind.ofText_newline]
  exact Prod.ext rfl (DesignUnit.read_newline room _ _ _ t)

theorem splitFrom_blank (found : List SourceUnit) (start fuel : Nat) {t : Text}
    (ht : t.dropWhile isAsciiBlank = []) : splitFrom found start fuel t = found.reverse := by
  cases fuel with
  | zero => rfl
  | succ fuel => simp [splitFrom, ht]

/-- The first unit of a text, at some place. -/
theorem splitFrom_unit (found : List SourceUnit) (start fuel : Nat) {t r : Text} {c : Char}
    (ht : t.dropWhile isAsciiBlank = c :: r) : ∃ here after,
      splitFrom found start (fuel + 1) t
        = splitFrom (⟨UnitKind.ofText ((c :: r).take (lengthAt (c :: r))), here,
            (c :: r).take (lengthAt (c :: r))⟩ :: found) after fuel
            ((c :: r).drop (lengthAt (c :: r))) := by
  simp only [splitFrom, ht, List.isEmpty_cons, Bool.false_eq_true, if_false]
  exact ⟨_, _, rfl⟩

/-- With a final line end the units of a file come out the same. -/
theorem splitFrom_newline (room : Nat) (n : Nat) :
    ∀ (t : Text) (found found' : List SourceUnit) (start start' fuel fuel' : Nat), t.length ≤ n →
      n < fuel → n + 1 < fuel' → found'.map (outcome room) = found.map (outcome room) →
      (splitFrom found' start' fuel' (t ++ ['\n'])).map (outcome room)
        = (splitFrom found start fuel t).map (outcome room) := by
  induction n with
  | zero =>
    intro t found found' start start' fuel fuel' ht _ _ hfound
    rw [List.eq_nil_of_length_eq_zero (Nat.le_zero.1 ht), List.nil_append,
      splitFrom_blank _ _ _ rfl, splitFrom_blank _ _ _ rfl, List.map_reverse, hfound,
      List.map_reverse]
  | succ n ih =>
    intro t found found' start start' fuel fuel' ht hfuel hfuel' hfound
    obtain ⟨fuel, rfl⟩ := Nat.exists_eq_add_one_of_ne_zero (Nat.ne_zero_of_lt hfuel)
    obtain ⟨fuel', rfl⟩ := Nat.exists_eq_add_one_of_ne_zero (Nat.ne_zero_of_lt hfuel')
    cases hrest : t.dropWhile isAsciiBlank with
    | nil =>
      have hrest' : (t ++ ['\n']).dropWhile isAsciiBlank = [] := by
        rw [List.dropWhile_append, hrest]
        rfl
      rw [splitFrom_blank _ _ _ hrest, splitFrom_blank _ _ _ hrest', List.map_reverse, hfound,
        List.map_reverse]
    | cons c r =>
      have hrest' : (t ++ ['\n']).dropWhile isAsciiBlank = c :: (r ++ ['\n']) := by
        rw [List.dropWhile_append, hrest]
        rfl
      have hshort : r.length + 1 ≤ n + 1 := by
        have := (List.dropWhile_sublist isAsciiBlank (l := t)).length_le
        rw [hrest, List.length_cons] at this
        omega
      have hpos := lengthAt_pos c r
      obtain ⟨here, after, heq⟩ := splitFrom_unit found start fuel hrest
      obtain ⟨here', after', heq'⟩ := splitFrom_unit found' start' fuel' hrest'
      rw [heq, heq']
      obtain ⟨hlen, hle⟩ | ⟨hlen', hlen⟩ := lengthAt_newline c r
      · -- the unit ends before the line end
        have htake : (c :: (r ++ ['\n'])).take (lengthAt (c :: r))
            = (c :: r).take (lengthAt (c :: r)) := by
          rw [← List.cons_append, List.take_append_of_le_length (by simpa using hle)]
        have hdrop : (c :: (r ++ ['\n'])).drop (lengthAt (c :: r))
            = (c :: r).drop (lengthAt (c :: r)) ++ ['\n'] := by
          rw [← List.cons_append, List.drop_append_of_le_length (by simpa using hle)]
        rw [hlen, htake, hdrop]
        refine ih _ _ _ _ _ _ _ ?_ (by omega) (by omega) ?_
        · rw [List.length_drop, List.length_cons]
          omega
        · rw [List.map_cons, List.map_cons, hfound]
          rfl
      · -- the unit takes up all the rest
        have htake : (c :: (r ++ ['\n'])).take (r.length + 2) = c :: r ++ ['\n'] :=
          List.take_of_length_le (by simp)
        have hdrop : (c :: (r ++ ['\n'])).drop (r.length + 2) = [] :=
          List.drop_of_length_le (by simp)
        have htake' : (c :: r).take (r.length + 1) = c :: r := List.take_of_length_le (by simp)
        have hdrop' : (c :: r).drop (r.length + 1) = [] := List.drop_of_length_le (by simp)
        rw [hlen, hlen', htake, hdrop, htake', hdrop', splitFrom_blank _ _ _ rfl,
          splitFrom_blank _ _ _ rfl, List.map_reverse, List.map_reverse, List.map_cons,
          List.map_cons, hfound]
        rw [show outcome room ⟨UnitKind.ofText (c :: r ++ ['\n']), here', c :: r ++ ['\n']⟩
          = outcome room ⟨UnitKind.ofText (c :: r), here, c :: r⟩ from outcome_newline room _ _]

/-- Of further units a file keeps the comment lines only if it has nothing but comment
lines before them. -/
theorem kept_append (units more : List SourceUnit) :
    kept (units ++ more)
      = kept units ++ if units.all isComment then kept more else more.filter (!·.isComment) := by
  cases hall : units.all isComment with
  | true =>
    have hhead : ∀ v ∈ units, v.isComment = true := List.all_eq_true.1 hall
    have htake : units.takeWhile isComment = units := List.takeWhile_eq_self_iff.2 hhead
    have hdrop : units.dropWhile isComment = [] := List.dropWhile_eq_nil_iff.2 hhead
    rw [if_pos rfl, kept, kept, kept, List.takeWhile_append_of_pos hhead,
      List.dropWhile_append_of_pos hhead, htake, hdrop, List.filter_nil, List.append_nil,
      List.append_assoc]
  | false =>
    have hdrop : units.dropWhile isComment ≠ [] := by
      intro h
      rw [List.all_eq_true.2 (List.dropWhile_eq_nil_iff.1 h)] at hall
      cases hall
    have htake : (units.takeWhile isComment).length ≠ units.length := by
      intro h
      have hlen := congrArg List.length (List.takeWhile_append_dropWhile (p := isComment) (l := units))
      rw [List.length_append, h, Nat.add_eq_left, List.length_eq_zero_iff] at hlen
      exact hdrop hlen
    rw [if_neg Bool.false_ne_true, kept, kept, List.takeWhile_append, if_neg htake,
      List.dropWhile_append, List.isEmpty_eq_false_iff.2 hdrop, if_neg Bool.false_ne_true,
      List.filter_append, List.append_assoc]

/-- The outcomes of the units that a file keeps. -/
theorem mapM_kept (room : Nat) (units : List SourceUnit) :
    (kept units).mapM (DesignUnit.read room)
      = (((units.map (outcome room)).takeWhile (·.1)
          ++ ((units.map (outcome room)).dropWhile (·.1)).filter (!·.1)).map (·.2)).mapM id := by
  rw [List.takeWhile_map, List.dropWhile_map, List.filter_map, ← List.map_append, List.map_map,
    List.mapM_map]
  rfl

end SourceUnit

namespace DesignFile

/-- **A file reads the same with a final line end**, as long as it fits with it. -/
theorem read_newline (room : Nat) {t : Text} (h : fits Limits.blockBytes (t ++ ['\n']) = true) :
    read room (t ++ ['\n']) = read room t := by
  have hfits : fits Limits.blockBytes t = true :=
    fits_of_isInfix h (List.prefix_append t _).isInfix
  have hunits := SourceUnit.splitFrom_newline room t.length t [] [] 0 0 (t.length + 1)
    ((t ++ ['\n']).length + 1) (Nat.le_refl _) (Nat.lt_succ_self _) (by simp) rfl
  rw [read, read, h, hfits]
  simp only [Bool.not_true, Bool.false_eq_true, if_false]
  rw [SourceUnit.mapM_kept, SourceUnit.mapM_kept, SourceUnit.split, SourceUnit.split, hunits]

end DesignFile

namespace SourceFile

/-- What a file is formatted as depends on its tree alone. -/
theorem formatted_eq_ok_iff {s : FormatSettings} {id : FileId} {f : SourceFile} {d : DesignFile}
    {out : Text} : formatted s id f d = .ok out ↔
      (s.verifyRoundTrip = true → readsBack d = true)
        ∧ (if s.finalNewline && !d.text.isEmpty then d.text ++ ['\n'] else d.text) = out := by
  rw [formatted]
  split
  · next h =>
    simp only [Bool.and_eq_true, Bool.not_eq_true'] at h
    simp [h]
  · next h =>
    simp only [Bool.and_eq_true, Bool.not_eq_true', not_and, Bool.not_eq_false] at h
    rw [Except.ok.injEq, and_iff_right h]

/-- A text with a final line end, if it is not too long, reads as the text. -/
theorem read_finalLine {s : FormatSettings} {d : DesignFile} {out : Text}
    (hout : (if s.finalNewline && !d.text.isEmpty then d.text ++ ['\n'] else d.text) = out)
    (hfits : fits Limits.blockBytes out = true) (room : Nat) :
    DesignFile.read room out = DesignFile.read room d.text := by
  subst hout
  split
  · next h =>
    rw [if_pos h] at hfits
    exact DesignFile.read_newline room hfits
  · rfl

/-- **A verified text reads back as the tree it was printed from exactly when it
fits.**  The check precedes the final line end, which may make the text too long. -/
theorem read_formatted_iff {s : FormatSettings} {id : FileId} {f : SourceFile} {d : DesignFile}
    {out : Text} (hverify : s.verifyRoundTrip = true) (h : formatted s id f d = .ok out) :
    (DesignFile.read Limits.depth out).any (·.same d) = true
      ↔ fits Limits.blockBytes out = true := by
  obtain ⟨hback, hout⟩ := formatted_eq_ok_iff.1 h
  constructor
  · intro hread
    by_contra hfits
    rw [Bool.not_eq_true] at hfits
    simp [DesignFile.read, hfits] at hread
  · intro hfits
    rw [read_finalLine hout hfits]
    exact hback hverify

end SourceFile
end CanonicalVhdl
