import CanonicalVhdl.Proofs.Room.Reach

/-!
# Where operators stand

The scan for operators goes through a text as every search does, except that it takes words and
numbers as a whole.  The operators that it finds stand at places that a search reaches outside
parentheses, and a word that is an operator stands there by itself.

## Main definitions

* `Operator.StandsIn before w r` — `w` is how an operator is written between `before` and `r`.

## Main statements

* `Operator.exists_of_scan` — an operator that a scan finds cuts the text at places that a search
  reaches.
-/

namespace CanonicalVhdl

open Text Token

namespace Operator

/-- An operator is written between a character and a text. -/
inductive StandsIn (before : Option Char) (w r : Text) : Prop
  /-- A word by itself. -/
  | word (hw : IsRun w) (hop : (BinaryOp.ofWord? w).isSome = true)
      (hbefore : before.any isIdentChar = false) (hrest : r.head?.any isIdentChar = false) :
      StandsIn before w r
  /-- A symbol that starts no arrow. -/
  | symbol {c : Char} (hc : c ∈ ['/', '<', '>', '=', '*', '&', '+', '-'])
      (hw : w = [c] ∨ w = [c, '=']) (harrow : "=>".toList.isPrefixOf (w ++ r) = false) :
      StandsIn before w r

/-- An operator stands in a text, outside parentheses. -/
def FoundIn (o : Operator) (position depth : Nat) (before : Option Char) (t : Text) : Prop :=
  ∃ l w r, t = l ++ (w ++ r) ∧ o.start = position + l.length ∧ o.stop = o.start + w.length
    ∧ Reaches before depth l (w ++ r) 0 ∧ Reaches (lastOr before l) 0 w r 0
    ∧ StandsIn (lastOr before l) w r

theorem FoundIn.append {o : Operator} {position depth d : Nat} {before : Option Char} {x t : Text}
    (hx : Reaches before depth x t d) (h : o.FoundIn (position + x.length) d (lastOr before x) t) :
    o.FoundIn position depth before (x ++ t) := by
  obtain ⟨l, w, r, rfl, hstart, hstop, hl, hw, hstands⟩ := h
  refine ⟨x ++ l, w, r, (List.append_assoc ..).symm, ?_, hstop, hx.append hl, ?_, ?_⟩
  · rw [hstart, List.length_append, Nat.add_assoc]
  · rwa [lastOr_append]
  · rwa [lastOr_append]

/-- A number is plain code, up to the sign of its exponent. -/
theorem numberLength_split (n : Nat) (mark : Bool) (t : Text) :
    ∃ x r, t = x ++ r ∧ numberLength n mark t = n + x.length
      ∧ (∀ before depth, Reaches before depth x r depth) ∧ r.head?.any isIdentChar = false := by
  induction t generalizing n mark with
  | nil => exact ⟨[], [], rfl, rfl, fun _ _ => .here, rfl⟩
  | cons c t ih =>
    rw [numberLength]
    split
    · next hc =>
      obtain ⟨x, r, rfl, hlen, hx, hr⟩ := ih (n + 1) (c == 'e' || c == 'E')
      refine ⟨c :: x, r, rfl, by rw [hlen, List.length_cons]; omega, fun before depth => ?_, hr⟩
      have hne : ∀ e, (isIdentChar e || e == '.') = false → c ≠ e := by
        rintro e he rfl
        rw [hc] at he
        cases he
      refine .code (at_code (hne _ (by decide)) (fun h => absurd h (hne _ (by decide)))
        fun h => absurd h (hne _ (by decide))) ?_
      rw [depthAfter_self (hne _ (by decide)) (hne _ (by decide))]
      exact hx _ _
    · split
      · next hsign =>
        obtain ⟨x, r, rfl, hlen, hx, hr⟩ := ih (n + 1) false
        refine ⟨c :: x, r, rfl, by rw [hlen, List.length_cons]; omega, fun before depth => ?_, hr⟩
        rw [Bool.and_eq_true, Bool.and_eq_true, Bool.or_eq_true, beq_iff_eq, beq_iff_eq] at hsign
        obtain ⟨⟨-, hc⟩, hdigit⟩ := hsign
        have hhyphen : (x ++ r).head? ≠ some '-' := by
          intro hhead
          rw [hhead] at hdigit
          exact absurd hdigit (by decide)
        rcases hc with rfl | rfl <;>
        · refine .code (at_code (by decide) (fun h => absurd h (by decide)) fun _ => hhyphen) ?_
          exact hx _ _
      · next hc _ =>
        rw [Bool.not_eq_true, Bool.or_eq_false_iff] at hc
        exact ⟨[], c :: t, rfl, rfl, fun _ _ => .here, by simpa using hc.1⟩

/-- A quoted literal ends with a quotation mark or with its line. -/
theorem exists_quotation (n : Nat) (t : Text) :
    ∃ x r, t = x ++ r ∧ Lexeme.quotedLength n t = n + x.length
      ∧ (x.getLast? = some '"' ∨ AtLineEnd r) := by
  fun_induction Lexeme.quotedLength n t with
  | case1 n rest ih =>
    obtain ⟨x, r, rfl, hlen, hend⟩ := ih
    refine ⟨'"' :: '"' :: x, r, rfl, by rw [hlen]; simp only [List.length_cons]; omega, ?_⟩
    refine hend.imp_left fun hlast => ?_
    rw [List.getLast?_cons, List.getLast?_cons, hlast]
    rfl
  | case2 n rest hrest => exact ⟨['"'], rest, rfl, rfl, .inl rfl⟩
  | case3 n rest => exact ⟨[], '\n' :: rest, rfl, rfl, .inr (atLineEnd_newline _)⟩
  | case4 n c rest h1 h2 h3 ih =>
    obtain ⟨x, r, rfl, hlen, hend⟩ := ih
    refine ⟨c :: x, r, rfl, by rw [hlen]; simp only [List.length_cons]; omega, ?_⟩
    refine hend.imp_left fun hlast => ?_
    rw [List.getLast?_cons, hlast]
    rfl
  | case5 n => exact ⟨[], [], rfl, rfl, .inr atLineEnd_nil⟩

/-- The symbols of operators. -/
theorem exists_symbol {operand : Bool} {c : Char} {t : Text} {op : BinaryOp} {n : Nat}
    (h : symbol? operand (c :: t) = some (op, n)) :
    c ∈ ['/', '<', '>', '=', '*', '&', '+', '-']
      ∧ ∃ w r, c :: t = w ++ r ∧ w.length = n ∧ (w = [c] ∨ w = [c, '=']) := by
  have hn : c ∈ ['/', '<', '>', '=', '*', '&', '+', '-'] ∧ (n = 1 ∨ n = 2 ∧ t.head? = some '=') := by
    rw [symbol?_cons] at h
    split_ifs at h <;> simp_all
  obtain ⟨hc, rfl | ⟨rfl, ht⟩⟩ := hn
  · exact ⟨hc, [c], t, rfl, rfl, .inl rfl⟩
  · obtain ⟨r, rfl⟩ := List.head?_eq_some_iff.1 ht
    exact ⟨hc, [c, '='], r, rfl, rfl, .inr rfl⟩

/-- Behind a literal or a comment no word goes on. -/
theorem not_ident_behind {before : Option Char} {c : Char} {x r : Text}
    (hat : Lexeme.at before (c :: (x ++ r)) = .comment (x.length + 1)
      ∨ Lexeme.at before (c :: (x ++ r)) = .literal (x.length + 1)) :
    (lastOr (some c) x).any isIdentChar = true → r.head?.any isIdentChar = false := by
  rcases hat with hat | hat
  · obtain ⟨y, r', heq, hlen, -, hr⟩ := exists_comment hat
    obtain ⟨rfl, htail⟩ := List.cons.inj heq
    have hlength : x.length = ('-' :: y).length := by
      rw [List.length_cons]
      omega
    obtain ⟨rfl, rfl⟩ := List.append_inj (show x ++ r = ('-' :: y) ++ r' from htail) hlength
    exact fun _ => hr.ident
  · rw [Lexeme.at_cons] at hat
    split_ifs at hat with h1 h2 h3
    · obtain ⟨y, r', heq, hlen, hend⟩ := exists_quotation 1 (x ++ r)
      have := Lexeme.literal.inj hat
      obtain ⟨rfl, rfl⟩ := List.append_inj heq (by omega)
      rcases hend with hend | hend
      · intro hident
        rw [lastOr, hend] at hident
        cases hident
      · exact fun _ => hend.ident
    · have hlen := Lexeme.literal.inj hat
      rcases x with _ | ⟨a, _ | ⟨b, _ | ⟨e, x⟩⟩⟩
      · cases hlen
      · cases hlen
      · obtain rfl : b = '\'' := by simpa using h3.2.2.1
        intro hident
        cases hident
      · simp at hlen

/-- The operators of a scan stand in the text. -/
theorem foundIn_of_scanFrom (n : Nat) :
    ∀ (t : Text) (found : List Operator) (depth position : Nat) (operand : Bool)
      (before : Option Char) (ops : List Operator), t.length ≤ n →
      scanFrom found depth operand 0 position before t = some ops →
      (depth = 0 → before.any isIdentChar = true → t.head?.any isIdentChar = false) →
      ∀ o ∈ ops, o ∈ found ∨ o.FoundIn position depth before t := by
  induction n with
  | zero =>
    intro t found depth position operand before ops ht h _ o ho
    rw [List.eq_nil_of_length_eq_zero (Nat.le_zero.1 ht), scanFrom] at h
    split at h
    · obtain rfl := Option.some.inj h
      exact .inl (List.mem_reverse.1 ho)
    · cases h
  | succ n ih =>
    intro t found depth position operand before ops ht h hbefore o ho
    cases t with
    | nil =>
      rw [scanFrom] at h
      split at h
      · obtain rfl := Option.some.inj h
        exact .inl (List.mem_reverse.1 ho)
      · cases h
    | cons c t =>
      rw [List.length_cons] at ht
      -- the search goes on behind what the scan passes
      have later : ∀ {x r : Text} {d k : Nat} {operand' : Bool} {found' : List Operator},
          c :: t = x ++ r → x.length = k + 1 → Reaches before depth x r d →
          scanFrom found' d operand' k (position + 1) (some c) t = some ops →
          (d = 0 → (lastOr before x).any isIdentChar = true → r.head?.any isIdentChar = false) →
          o ∈ found' ∨ o.FoundIn position depth before (c :: t) := by
        intro x r d k operand' found' hsplit hk hreach h hend
        obtain ⟨x, rfl⟩ : ∃ x', x = c :: x' := by
          rcases x with _ | ⟨c', x⟩
          · cases hk
          · obtain ⟨rfl, -⟩ : c = c' ∧ t = x ++ r := by simpa using hsplit
            exact ⟨x, rfl⟩
        obtain rfl : t = x ++ r := by simpa using hsplit
        obtain rfl : x.length = k := Nat.succ.inj hk
        rw [List.length_append] at ht
        rw [scanFrom_skip] at h
        rw [lastOr_cons] at hend
        refine (ih r found' d _ operand' _ ops (by omega) h hend o ho).imp_right fun hfound => ?_
        rw [← List.cons_append]
        refine FoundIn.append hreach ?_
        rwa [lastOr_cons, List.length_cons, show position + (x.length + 1) = position + 1 + x.length by omega]
      have char : ∀ {d : Nat} {operand' : Bool}, Lexeme.at before (c :: t) = .code →
          depthAfter c depth = d → isIdentChar c = false ∨ d ≠ 0 →
          scanFrom found d operand' 0 (position + 1) (some c) t = some ops →
          o ∈ found ∨ o.FoundIn position depth before (c :: t) := by
        intro d operand' hat hd hc h
        refine later (x := [c]) rfl rfl (.code hat (hd ▸ .here)) h ?_
        intro hzero hident
        rcases hc with hc | hc
        · rw [show (lastOr before [c]).any isIdentChar = isIdentChar c from rfl, hc] at hident
          cases hident
        · exact absurd hzero hc
      obtain hat | ⟨x, r, rfl, hat⟩ := at_split before c t
      · simp only [scanFrom, hat] at h
        split at h
        · next hdepth =>
          rw [bne_iff_ne] at hdepth
          split at h
          · next hopen =>
            exact char hat (by simp [depthAfter, hopen]) (.inr (Nat.succ_ne_zero _)) h
          · next hopen =>
            split at h
            · next hclose =>
              rw [beq_iff_eq] at hclose
              exact char hat (by simp [depthAfter, hclose]) (.inl (by rw [hclose]; decide)) h
            · next hclose => exact char hat (by simp [depthAfter, hopen, hclose]) (.inr hdepth) h
        · next hdepth =>
          obtain rfl : depth = 0 := by simpa using hdepth
          split at h
          · next hopen =>
            exact char hat (by simp [depthAfter, hopen]) (.inr Nat.one_ne_zero) h
          next hopen =>
          split at h
          · cases h
          next hclose =>
          have hsame : depthAfter c 0 = 0 := by simp [depthAfter, hopen, hclose]
          split at h
          · next hdigit =>
            obtain ⟨x, r, hsplit, hlen, hx, hr⟩ := numberLength_split 0 false (c :: t)
            have hne : x ≠ [] := by
              rintro rfl
              rw [List.nil_append] at hsplit
              rw [← hsplit, List.head?_cons, Option.any_some, isIdentChar_of_isDigit hdigit] at hr
              cases hr
            have := List.length_pos_of_ne_nil hne
            exact later hsplit (by omega) (hx _ _) h fun _ _ => hr
          split at h
          · next hident =>
            have hrun : IsRun ((c :: t).takeWhile isIdentChar) :=
              ⟨by simp [hident], List.all_takeWhile⟩
            have hrest := any_head?_dropWhile isIdentChar (c :: t)
            have hsplit : c :: t = (c :: t).takeWhile isIdentChar ++ (c :: t).dropWhile isIdentChar :=
              List.takeWhile_append_dropWhile.symm
            have hpos := List.length_pos_of_ne_nil hrun.ne_nil
            split at h
            · next op hop =>
              have hlater := later hsplit (by omega) (reaches_run hrun.ident _) h fun _ _ => hrest
              rcases hlater with hmem | hfound
              · rcases List.mem_cons.1 hmem with rfl | hmem
                · refine .inr ⟨[], _, _, hsplit, rfl, rfl, .here, reaches_run hrun.ident _, ?_⟩
                  refine .word hrun (by rw [hop]; rfl) ?_ hrest
                  rw [lastOr_nil]
                  cases hb : before.any isIdentChar with
                  | false => rfl
                  | true =>
                    rw [show (c :: t).head?.any isIdentChar = isIdentChar c from rfl, hident] at hbefore
                    exact hbefore rfl hb
                · exact .inl hmem
              · exact .inr hfound
            · exact later hsplit (by omega) (reaches_run hrun.ident _) h fun _ _ => hrest
          next hident =>
          split at h
          · next harrow =>
            obtain ⟨e, r, rfl, he⟩ : ∃ e r, t = e :: r ∧ [c, e] ∈ ["=>".toList, ":=".toList] := by
              rcases Bool.or_eq_true_iff.1 harrow with harrow | harrow <;>
              · obtain ⟨r, hr⟩ := List.isPrefixOf_iff_prefix.1 harrow
                obtain ⟨rfl, rfl⟩ := List.cons.inj hr
                exact ⟨_, r, rfl, by decide⟩
            have hplain : ∀ w ∈ ["=>".toList, ":=".toList], w.all isPlain = true ∧ '(' ∉ w ∧ ')' ∉ w
                ∧ w.getLast?.any isIdentChar = false := by decide
            obtain ⟨hw, ho, hc, hlast⟩ := hplain _ he
            refine later (x := [c, e]) rfl rfl (reaches_plain hw ho hc r) h fun _ hident => ?_
            rw [show lastOr before [c, e] = [c, e].getLast? from rfl, hlast] at hident
            cases hident
          next harrow =>
          split at h
          · cases h
          split at h
          · next op k hsymbol =>
            rw [Bool.or_eq_true, not_or, Bool.not_eq_true, Bool.not_eq_true] at harrow
            obtain ⟨hc, w, r, hsplit, hlen, hw⟩ := exists_symbol hsymbol
            have hpass : Reaches before 0 w r 0 := by
              rcases hw with rfl | rfl
              · obtain rfl : t = r := by simpa using hsplit
                exact .code hat (by rw [hsame]; exact .here)
              · obtain rfl : t = '=' :: r := by simpa using hsplit
                refine .code hat ?_
                rw [hsame]
                exact reaches_plain (s := ['=']) (by decide) (by decide) (by decide) r
            have hlast : (lastOr before w).any isIdentChar = false := by
              rcases hw with rfl | rfl
              · simpa [lastOr] using hident
              · rfl
            have hpos : 0 < w.length := by rcases hw with rfl | rfl <;> exact Nat.succ_pos _
            have hlater := later hsplit (by omega) hpass h fun _ h => by
              rw [hlast] at h
              cases h
            rcases hlater with hmem | hfound
            · rcases List.mem_cons.1 hmem with rfl | hmem
              · refine .inr ⟨[], w, r, hsplit, rfl, by rw [hlen], .here, hpass, ?_⟩
                exact .symbol hc hw (hsplit ▸ harrow.1)
              · exact .inl hmem
            · exact .inr hfound
          · exact char hat hsame (.inl (by simpa using hident)) h
      · -- a comment or a literal ends with no character of a word
        have hreach : Reaches before depth (c :: (x ++ [])) r depth :=
          .lexeme (by rwa [List.nil_append, or_comm]) .here
        rw [List.append_nil] at hreach
        have hend : (lastOr before (c :: x)).any isIdentChar = true → r.head?.any isIdentChar = false := by
          rw [lastOr_cons]
          exact not_ident_behind hat
        rcases hat with hat | hat <;> simp only [scanFrom, hat, Nat.add_sub_cancel] at h
        · exact later rfl rfl hreach h fun _ => hend
        · exact later rfl rfl hreach h fun _ => hend

/-- **The operators of a scan** cut the text at places that a search reaches. -/
theorem exists_of_scan {t : Text} {ops : List Operator} (h : scan t = some ops) {o : Operator}
    (ho : o ∈ ops) : ∃ l w r, t = l ++ (w ++ r) ∧ t.take o.start = l ∧ t.drop o.stop = r
      ∧ Reaches none 0 l (w ++ r) 0 ∧ Reaches (lastOr none l) 0 w r 0
      ∧ StandsIn (lastOr none l) w r := by
  rcases foundIn_of_scanFrom t.length t [] 0 0 false none ops (Nat.le_refl _) h
    (fun _ h => by cases h) o ho with hmem | ⟨l, w, r, rfl, hstart, hstop, hl, hw, hstands⟩
  · cases hmem
  · rw [Nat.zero_add] at hstart
    refine ⟨l, w, r, rfl, by rw [hstart, List.take_left], ?_, hl, hw, hstands⟩
    rw [hstop, hstart, ← List.length_append, ← List.append_assoc, List.drop_left]

end Operator
end CanonicalVhdl
