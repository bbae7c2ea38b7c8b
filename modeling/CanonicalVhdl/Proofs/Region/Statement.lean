import CanonicalVhdl.Proofs.Text.Closing

/-!
# Statements that end where they should

A statement is cut out of the text that follows it by counting the words that open
and close constructs.  Whether it is cut at its own end depends on nothing but the
statement: not on how many constructs are open around it, nor on what follows.

## Main definitions

* `ended depth position u` — the scan after a statement inside `depth` constructs.
* `IsStatement free x` — `x` is one statement or construct, wherever it stands.

## Main statements

* `isStatement_render` — tokens that leave the nesting as it is, and a semicolon.
* `isStatement_construct` — a head that opens a construct, an interior that leaves the
  nesting as it is, and a closing clause.
-/

namespace CanonicalVhdl

open Text Token

/-! ## Steps of the scan -/

section Steps

variable {s : Nesting} {position : Nat} {before : Option Char}

/-- A semicolon outside parentheses. -/
theorem extentFrom_semicolon (u : Text) :
    extentFrom 0 s 0 position before (';' :: u)
      = if s.depth = 0 then some (position + 1)
        else extentFrom 0 s.semicolon 0 (position + 1) (some ';') u := by
  have hcode : Lexeme.at before (';' :: u) = .code :=
    at_code (by decide) (fun h => absurd h (by decide)) (fun h => absurd h (by decide))
  rw [extentFrom, hcode]
  simp [show isIdentChar ';' = false from by decide]

/-- Blanks and line ends are passed over. -/
theorem extentFrom_pad {parens : Nat} {g : Text} (hg : IsPad g) (u : Text) :
    extentFrom parens s 0 position before (g ++ u)
      = extentFrom parens s 0 (position + g.length) (lastOr before g) u := by
  refine extentFrom_pass g position before fun a c b hsplit => ?_
  rcases hg c (hsplit ▸ by simp) with rfl | rfl
  · exact ⟨at_code (by decide) (fun h => absurd h (by decide)) (fun h => absurd h (by decide)),
      by decide, by decide, by decide, fun h => absurd h (by decide)⟩
  · exact ⟨at_code (by decide) (fun h => absurd h (by decide)) (fun h => absurd h (by decide)),
      by decide, by decide, by decide, fun h => absurd h (by decide)⟩

end Steps

/-- No word ends where padding ends. -/
theorem Token.IsPad.lastOr_ident {g : Text} (hg : IsPad g) (hne : g ≠ []) (before : Option Char) :
    (lastOr before g).any isIdentChar = false := by
  rw [lastOr_of_ne_nil hne, List.getLast?_eq_some_getLast hne, Option.any_some]
  rcases hg _ (List.getLast_mem hne) with h | h <;> rw [h] <;> decide

/-! ## The end of a statement -/

/-- The scan after a statement that ends inside `depth` open constructs: outside of all
of them it stops. -/
def ended (depth position : Nat) (u : Text) : Option Nat :=
  if depth = 0 then some position else extentFrom 0 ⟨depth, false, false⟩ 0 position (some ';') u

/-- A semicolon ends a statement, whatever the header of the construct. -/
theorem extentFrom_semicolon_ended {depth position : Nat} {header : Bool} {before : Option Char}
    (u : Text) :
    extentFrom 0 ⟨depth, false, header⟩ 0 position before (';' :: u)
      = ended depth (position + 1) u := by
  rw [extentFrom_semicolon]
  rfl

/-- The closing clause of a construct: a word that names its kind, and perhaps more. -/
theorem extentFrom_closing {w : Text} {ws : List Text} (hw : IsRun w)
    (hws : ∀ v ∈ ws, IsRun v ∧ structureWords.contains (fold v) = false)
    {depth position : Nat} {header : Bool} {before : Option Char}
    (hbefore : before.any isIdentChar = false) (u : Text) :
    extentFrom 0 ⟨depth + 1, false, header⟩ 0 position before
        ("end".toList ++ (clauseEnd (w :: ws) ++ u))
      = ended depth (position + (3 + (clauseEnd (w :: ws)).length)) u := by
  have hend : (⟨depth + 1, false, header⟩ : Nesting).word "end".toList =
      fun _ => some ⟨depth, true, header⟩ := rfl
  have hkind : (⟨depth, true, header⟩ : Nesting).word w = fun _ => some ⟨depth, false, header⟩ := rfl
  have hblank : ∀ (s : Nesting) (position : Nat) (before : Option Char) (r : Text),
      extentFrom 0 s 0 position before (' ' :: r)
        = extentFrom 0 s 0 (position + 1) (some ' ') r :=
    fun s position before r => extentFrom_pad isPad_blank r
  obtain ⟨before', hruns⟩ := extentFrom_runs (s := ⟨depth, false, header⟩) rfl (u := ';' :: u) rfl
    (ws.map (' ', ·)) (position + "end".toList.length + 1 + w.length)
    (lastOr (some ' ') w) (by simp) (by simpa using hws)
  have hmap : (ws.map (' ', ·)).flatMap (fun p : Char × Text => p.1 :: p.2)
      = ws.flatMap (' ' :: ·) := List.flatMap_map ..
  rw [hmap] at hruns
  rw [extentFrom_word isRun_endWord hbefore (head_clauseEnd _ u),
    hend, Option.bind_some, clauseEnd_cons, List.cons_append, List.append_assoc, hblank,
    extentFrom_word hw (by decide) (head_clauseEnd ws u), hkind, Option.bind_some, clauseEnd,
    List.append_assoc, List.singleton_append, hruns, extentFrom_semicolon_ended]
  congr 1
  have hlen : "end".toList.length = 3 := rfl
  rw [hlen]
  simp only [List.length_append, List.length_cons, List.length_nil]
  omega

/-- The closing clause of a construct after padding. -/
theorem extentFrom_ending {g w : Text} {ws : List Text} (hg : IsPad g) (hne : g ≠ [])
    (hw : IsRun w) (hws : ∀ v ∈ ws, IsRun v ∧ structureWords.contains (fold v) = false)
    {depth position : Nat} {header : Bool} {before : Option Char} (u : Text) :
    extentFrom 0 ⟨depth + 1, false, header⟩ 0 position before
        (g ++ ("end".toList ++ (clauseEnd (w :: ws) ++ u)))
      = ended depth (position + (g.length + 3 + (clauseEnd (w :: ws)).length)) u := by
  rw [extentFrom_pad hg, extentFrom_closing hw hws (hg.lastOr_ident hne _), Nat.add_assoc,
    Nat.add_assoc]

/-! ## Statements -/

/-- The words that divide the parts of a construct from one another. -/
def dividingWords : List Text := ["elsif", "else", "when", "begin"].map String.toList

/-- A text that is one statement or construct with its semicolon, wherever it stands.
Unless it is `free`, it is not for a place where the words after `else` are read, where
`generate` opens nothing. -/
structure IsStatement (free : Bool) (x : Text) : Prop where
  /-- A word that divides nothing starts the text. -/
  first : ∃ w r, x = w ++ r ∧ IsName w ∧ r.head?.any isIdentChar = false
    ∧ dividingWords.contains (fold w) = false
  /-- A semicolon ends the text. -/
  last : x.getLast? = some ';'
  /-- The scan for its end stops at its last character. -/
  extent : ∀ {depth : Nat} {header : Bool} {position : Nat} {before : Option Char} (u : Text),
    (header = true → free = true) → Opens before →
      extentFrom 0 ⟨depth, false, header⟩ 0 position before (x ++ u)
        = ended depth (position + x.length) u

/-- The extent of a statement at the head of a text. -/
theorem IsStatement.extent? {free : Bool} {x : Text} (h : IsStatement free x) (u : Text) :
    extent? (x ++ u) = some x.length := by
  have : extentFrom 0 ⟨0, false, false⟩ 0 0 none (x ++ u) = ended 0 (0 + x.length) u :=
    h.extent u (fun h => absurd h (by decide)) rfl
  rw [Nat.zero_add] at this
  exact this

theorem IsStatement.isConstruct {free : Bool} {x : Text} (h : IsStatement free x) :
    isConstruct x = true := by
  have := h.extent? []
  rw [List.append_nil] at this
  simp [Text.isConstruct, this]

theorem IsStatement.exists_cons {free : Bool} {x : Text} (h : IsStatement free x) :
    ∃ c r, x = c :: r ∧ c.isAlpha = true := by
  obtain ⟨w, r, rfl, hw, -, -⟩ := h.first
  cases w with
  | nil => exact absurd rfl hw.isRun.ne_nil
  | cons c w => exact ⟨c, w ++ r, rfl, by simpa using hw.head⟩

theorem IsStatement.solid {free : Bool} {x : Text} (h : IsStatement free x) : Solid x := by
  obtain ⟨c, r, rfl, hc⟩ := h.exists_cons
  refine ⟨⟨?_, ?_⟩, List.cons_ne_nil c r⟩
  · simpa using isBlank_eq_false_of_isIdentChar (isIdentChar_of_isAlpha hc)
  · rw [h.last]
    decide

/-- The word that a sequence of tokens starts with. -/
theorem first_render {w : Text} {ts : List Token} {u : Text}
    (h : FitAll none (word w :: ts) u.head?) : (render ts ++ u).head?.any isIdentChar = false := by
  have hnext := h.1.2.2.1
  rwa [firstOr, ← List.head?_append] at hnext

/-- Tokens that leave the nesting as it is, and a semicolon. -/
theorem isStatement_render {w : Text} {ts : List Token} (hphrase : IsPhrase (word w :: ts))
    (hw : IsName w) (hdiv : dividingWords.contains (fold w) = false)
    (hafter : ∀ depth header, ∃ header',
      Nesting.after ⟨depth, false, header⟩ (word w :: ts) = some ⟨depth, false, header'⟩) :
    IsStatement true (render (word w :: ts) ++ [';']) := by
  have hfit : ∀ {before} (u : Text), Opens before → FitAll before (word w :: ts) (';' :: u).head? :=
    fun u hbefore => hphrase _ _ hbefore rfl
  refine ⟨⟨w, render ts ++ [';'], by simp, hw, first_render (hfit [] rfl), hdiv⟩, by simp, ?_⟩
  intro depth header position before u _ hbefore
  obtain ⟨header', hafter⟩ := hafter depth header
  rw [List.append_assoc, List.singleton_append, extentFrom_render (hfit u hbefore) hafter,
    extentFrom_semicolon_ended, List.length_append, List.length_singleton, Nat.add_assoc]

/-- Tokens without a part in the structure, and a semicolon. -/
theorem isStatement_inert {w : Text} {ts : List Token} (hphrase : IsPhrase (word w :: ts))
    (hw : IsName w) (hdiv : dividingWords.contains (fold w) = false)
    (hinert : ∀ t ∈ word w :: ts, Nesting.isInert t = true) :
    IsStatement true (render (word w :: ts) ++ [';']) :=
  isStatement_render hphrase hw hdiv fun _ header => ⟨header, Nesting.after_eq_self rfl hinert⟩

/-! ## Constructs -/

/-- A text inside a construct after which the same constructs are open as before it, if a
blank or a line end follows.  When it `endsLine`, with a comment, that is a line end. -/
structure IsInterior (free endsLine : Bool) (x : Text) : Prop where
  /-- The text starts on a new line. -/
  head : AtLineEnd x
  /-- The scan passes over the text. -/
  extent : ∀ (depth : Nat) (header : Bool) (position : Nat) (before : Option Char),
    (header = true → free = true) →
    ∃ header', (header' = true → free = true) ∧
      ∀ u, Closes u.head? → (endsLine = true → AtLineEnd u) →
        extentFrom 0 ⟨depth + 1, false, header⟩ 0 position before (x ++ u)
          = extentFrom 0 ⟨depth + 1, false, header'⟩ 0 (position + x.length) (lastOr before x) u

theorem isInterior_nil {free : Bool} : IsInterior free false [] :=
  ⟨atLineEnd_nil, fun _ header _ _ hheader => ⟨header, hheader, fun _ _ _ => rfl⟩⟩

/-- A text that needs nothing after it may be taken for one that needs a line end. -/
theorem IsInterior.mono {free endsLine endsLine' : Bool} {x : Text} (h : IsInterior free endsLine x)
    (hmono : endsLine = true → endsLine' = true) : IsInterior free endsLine' x := by
  refine ⟨h.head, fun depth header position before hheader => ?_⟩
  obtain ⟨header', hheader', hxu⟩ := h.extent depth header position before hheader
  exact ⟨header', hheader', fun u hclose hu => hxu u hclose fun h => hu (hmono h)⟩

/-- One interior after another. -/
theorem IsInterior.append {free endsLine endsLine' : Bool} {x y : Text}
    (hx : IsInterior free endsLine x) (hy : IsInterior free endsLine' y)
    (hnil : y = [] → endsLine = true → endsLine' = true) : IsInterior free endsLine' (x ++ y) := by
  obtain rfl | ⟨v, rfl⟩ := hy.head.cases
  · rw [List.append_nil]
    exact hx.mono (hnil rfl)
  refine ⟨hx.head.append hy.head, ?_⟩
  intro depth header position before hheader
  obtain ⟨header', hheader', hxu⟩ := hx.extent depth header position before hheader
  obtain ⟨header'', hheader'', hyu⟩ :=
    hy.extent depth header' (position + x.length) (lastOr before x) hheader'
  refine ⟨header'', hheader'', fun u hclose hu => ?_⟩
  have hx := hxu ('\n' :: v ++ u) (by rfl) fun _ => atLineEnd_newline _
  rw [List.append_assoc, hx, hyu u hclose hu, List.length_append, lastOr_append, Nat.add_assoc]

/-- Tokens on a new line, after which the same constructs are open as before them. -/
theorem isInterior_tokens {free endsLine : Bool} {g : Text} {ts : List Token} (hg : IsPad g)
    (hline : AtLineEnd g) (hne : g ≠ [])
    (hfit : ∀ before u, Opens before → Closes u.head? → (endsLine = true → AtLineEnd u) →
      FitAll before ts u.head?)
    (hafter : ∀ depth header, (header = true → free = true) → ∃ header',
      (header' = true → free = true) ∧
        Nesting.after ⟨depth + 1, false, header⟩ ts = some ⟨depth + 1, false, header'⟩) :
    IsInterior free endsLine (g ++ render ts) := by
  obtain hnil | ⟨v, rfl⟩ := hline.cases
  · exact absurd hnil hne
  refine ⟨atLineEnd_newline _, fun depth header position before hheader => ?_⟩
  obtain ⟨header', hheader', hafter⟩ := hafter depth header hheader
  refine ⟨header', hheader', fun u hclose hu => ?_⟩
  have hopens : Opens (lastOr before ('\n' :: v)) := by
    rw [lastOr_cons]
    exact IsPad.opens (fun c hc => hg c (List.mem_cons_of_mem _ hc)) (by rfl)
  rw [List.append_assoc, extentFrom_pad hg, extentFrom_render (hfit _ _ hopens hclose hu) hafter,
    List.length_append, lastOr_append, Nat.add_assoc]

theorem Token.IsPad.closes {g : Text} (hg : IsPad g) : Closes g.head? := by
  cases g with
  | nil => rfl
  | cons c g =>
    rcases hg c List.mem_cons_self with rfl | rfl <;> rfl

theorem Text.AtLineEnd.closes {x : Text} (hx : AtLineEnd x) {next : Option Char} (h : Closes next) :
    Closes (x.head?.or next) := by
  obtain rfl | ⟨v, rfl⟩ := hx.cases
  · exact h
  · rfl

/-- A head that opens a construct, an interior, and a closing clause. -/
theorem isStatement_construct {free free' endsLine : Bool} {w : Text} {ts : List Token}
    {inner g k : Text} {ws : List Text} (hphrase : IsPhrase (word w :: ts)) (hw : IsName w)
    (hdiv : dividingWords.contains (fold w) = false)
    (hafter : ∀ depth header, (header = true → free = true) →
      Nesting.after ⟨depth, false, header⟩ (word w :: ts) = some ⟨depth + 1, false, false⟩)
    (hinner : IsInterior free' endsLine inner)
    (hg : IsPad g) (hne : g ≠ []) (hline : endsLine = true → AtLineEnd g) (hk : IsRun k)
    (hws : ∀ v ∈ ws, IsRun v ∧ structureWords.contains (fold v) = false) :
    IsStatement free
      (render (word w :: ts) ++ (inner ++ (g ++ ("end".toList ++ clauseEnd (k :: ws))))) := by
  have hfit : ∀ {before} (u : Text), Opens before →
      FitAll before (word w :: ts) (inner ++ (g ++ u)).head? := by
    intro before u hbefore
    refine hphrase _ _ hbefore ?_
    obtain ⟨c, g, rfl⟩ := List.exists_cons_of_ne_nil hne
    rw [List.head?_append]
    exact hinner.head.closes hg.closes
  refine ⟨⟨w, _, List.append_assoc .., hw, ?_, hdiv⟩, ?_, ?_⟩
  · have := first_render (hfit ("end".toList ++ clauseEnd (k :: ws)) rfl)
    exact this
  · simp only [clauseEnd, ← List.append_assoc, List.getLast?_concat]
  · intro depth header position before u hheader hbefore
    obtain ⟨header', -, hextent⟩ := hinner.extent depth false
      (position + (render (word w :: ts)).length) (lastOr before (render (word w :: ts)))
      (fun h => absurd h (by decide))
    have hgline : ∀ u, endsLine = true → AtLineEnd (g ++ u) := by
      intro u h
      obtain hnil | ⟨v, rfl⟩ := (hline h).cases
      · exact absurd hnil hne
      · exact atLineEnd_newline _
    simp only [List.append_assoc]
    have hclose : ∀ u, Closes (g ++ u).head? := by
      intro u
      rw [List.head?_append_of_ne_nil _ hne]
      exact hg.closes
    rw [extentFrom_render (hfit _ hbefore) (hafter depth header hheader),
      hextent _ (hclose _) (hgline _), extentFrom_ending hg hne hk hws]
    congr 1
    have hlen : "end".toList.length = 3 := rfl
    simp only [List.length_append, hlen]
    omega

end CanonicalVhdl
