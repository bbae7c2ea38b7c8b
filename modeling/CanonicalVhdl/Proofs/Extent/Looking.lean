import CanonicalVhdl.Design.Interface
import CanonicalVhdl.Proofs.Extent.Parts
import CanonicalVhdl.Proofs.Settled.Extent

/-!
# Words that look ahead

Whether `component`, `entity` and `function` open a construct depends on what follows
them: the next words, or whether `is` comes before the end of the statement.

## Main statements

* `extentFrom_looking` — the scan at such a word and an inert text after it.
* `not_opens_semicolon`, `not_opens_map`, `opens_declared` — a component that is
  instantiated, and one that is declared.
* `not_opens_entity` — an entity that is instantiated.
* `not_opens_signature`, `opens_body` — a function that is declared, and one with a body.
-/

namespace CanonicalVhdl

open Text Token

/-! ## The scan -/

section Looking

variable {s s' : Nesting} {position : Nat} {before : Option Char} {w x u : Text}

/-- A word that looks ahead and an inert text after it. -/
theorem extentFrom_looking (hw : IsName w) (hx : IsInertText x) (hbefore : before.any isIdentChar = false)
    (hu : Closes u.head?) (hend : s'.afterEnd = false)
    (hword : ∀ position before, s.word w ⟨position, before, ' ' :: (x ++ u)⟩ = some s') :
    extentFrom 0 s 0 position before (w ++ ' ' :: (x ++ u))
      = extentFrom 0 s' 0 (position + (w ++ ' ' :: x).length) (lastOr before (w ++ ' ' :: x)) u := by
  obtain ⟨⟨ts, rfl, hts, hinert⟩, -, -⟩ := hx
  have hfit : FitAll (lastOr before w) (mark ' ' :: ts) u.head? := ⟨fits_blank, hts _ _ rfl hu⟩
  have hafter : s'.after (mark ' ' :: ts) = some s' :=
    Nesting.after_eq_self hend (List.forall_mem_cons.2 ⟨rfl, hinert⟩)
  have hrender : render (mark ' ' :: ts) = ' ' :: render ts := rfl
  rw [extentFrom_word hw.isRun hbefore rfl, hword, Option.bind_some, ← List.cons_append, ← hrender,
    extentFrom_render hfit hafter, List.length_append, lastOr_append, Nat.add_assoc]

/-- A label before the rest of a statement. -/
theorem extentFrom_label (i : Ident) (hend : s.afterEnd = false) (hbefore : Opens before) :
    extentFrom 0 s 0 position before (i.text ++ ':' :: ' ' :: u)
      = extentFrom 0 s 0 (position + (i.text ++ [':', ' ']).length) (some ' ') u := by
  have hcolon : ∀ before, (mark ':').Fits before (some ' ') := fun _ =>
    ⟨by decide, fun h => absurd h (by decide), fun _ => by decide, fun h => absurd h (by decide)⟩
  have hfit : FitAll before [word i.text, mark ':', mark ' '] u.head? :=
    ⟨i.isName.fits hbefore.ident rfl, hcolon _, fits_blank, trivial⟩
  have hinert : ∀ t ∈ [word i.text, mark ':', mark ' '], Nesting.isInert t = true := by
    have hname : Nesting.isInert (word i.text) = true := by
      simp only [Nesting.isInert, i.not_mem_structureWords]
      rfl
    exact List.forall_mem_cons.2 ⟨hname, by decide⟩
  have hrender : render [word i.text, mark ':', mark ' '] = i.text ++ [':', ' '] := rfl
  have hsplit : i.text ++ ':' :: ' ' :: u = i.text ++ [':', ' '] ++ u := by simp
  rw [hsplit, ← hrender, extentFrom_render hfit (Nesting.after_eq_self hend hinert), hrender,
    lastOr_append]
  rfl

end Looking

/-- A word that looks ahead opens a construct or has no part in the structure. -/
theorem Nesting.word_looking {w : Text} (hw : w ∈ lookingWords) {s : Nesting} (hs : s.afterEnd = false)
    (p : Place) :
    s.word w p = some (if opensConstruct w p then ⟨s.depth + 1, false, false⟩ else s) := by
  obtain ⟨depth, afterEnd, header⟩ := s
  cases hs
  have hword : (⟨depth, false, header⟩ : Nesting).word w p
      = if opensConstruct w p then some ⟨depth + 1, false, false⟩ else some ⟨depth, false, header⟩ := by
    simp only [lookingWords, List.map_cons, List.map_nil, List.mem_cons, List.not_mem_nil, or_false] at hw
    rcases hw with rfl | rfl | rfl | rfl | rfl <;> rfl
  rw [hword]
  split <;> rfl

/-! ## The next words -/

section Tokens

variable {w g r : Text} {n position : Nat} {before : Option Char}

/-- A word after padding is the next token. -/
theorem nextTokens_word (hg : IsPad g) (hw : IsRun w) (hr : r.head?.any isIdentChar = false)
    (n position : Nat) (before : Option Char) :
    ∃ position' before', nextTokens (n + 1) ⟨position, before, g ++ (w ++ r)⟩
      = w :: nextTokens n ⟨position', before', r⟩ := by
  rw [nextTokens, nextToken?_congr (skipTrivia_pad hg position before (w ++ r)), nextToken?_word hw hr]
  exact ⟨_, _, rfl⟩

/-- A mark is a token of its own. -/
theorem nextTokens_mark {c : Char} (hblank : isAsciiBlank c = false) (hident : isIdentChar c = false)
    (hat : Lexeme.at before (c :: r) = .code) :
    nextTokens (n + 1) ⟨position, before, c :: r⟩
      = [c] :: nextTokens n ⟨position + 1, some c, r⟩ := by
  rw [nextTokens, nextToken?_code hblank hident hat]

end Tokens

/-! ## Components and entities -/

section Components

variable {s : Nesting} {position : Nat} {before : Option Char} {name : Ident} {u : Text}

/-- What the words after a component's name say. -/
theorem opensConstruct_component (hu : u.head?.any isIdentChar = false) :
    ∃ position' before', opensConstruct "component".toList ⟨position, before, ' ' :: (name.text ++ u)⟩
      = opensComponent (if headed ["is"] (nextTokens 3 ⟨position', before', u⟩)
          then (nextTokens 3 ⟨position', before', u⟩).drop 1
          else nextTokens 3 ⟨position', before', u⟩) := by
  obtain ⟨position', before', h⟩ := nextTokens_word isPad_blank name.isRun hu 3 position before
  refine ⟨position', before', ?_⟩
  rw [List.singleton_append] at h
  have hplain : constructWords.any (sameWord "component".toList) = false := by decide
  have hword : sameWord "component".toList "component".toList = true := by decide
  simp only [opensConstruct, hplain, hword, h, Bool.false_eq_true, if_true, if_false]

variable {kw v g : Text}

/-- A component's name at the end of a statement opens nothing. -/
theorem not_opens_semicolon (position : Nat) (before : Option Char) (v : Text) :
    opensConstruct "component".toList ⟨position, before, ' ' :: (name.text ++ ';' :: v)⟩ = false := by
  obtain ⟨position', before', h⟩ := @opensConstruct_component position before name (';' :: v) rfl
  have htokens : nextTokens 3 ⟨position', before', ';' :: v⟩
      = [';'] :: nextTokens 2 ⟨position' + 1, some ';', v⟩ :=
    nextTokens_mark (by decide) (by decide) (at_code (by decide) (fun h => absurd h (by decide))
      fun h => absurd h (by decide))
  have his : sameWord "is".toList [';'] = false := by decide
  rw [h, htokens, headed_cons, his, if_neg (by decide), opensComponent_semicolon]

/-- A generic or port map on the next line makes an instance of a component. -/
theorem not_opens_map (hkw : kw = "generic".toList ∨ kw = "port".toList) (hg : IsPad g)
    (position : Nat) (before : Option Char) (v : Text) :
    opensConstruct "component".toList
      ⟨position, before, ' ' :: (name.text ++ '\n' :: (g ++ (kw ++ " map".toList ++ " (".toList ++ v)))⟩
      = false := by
  have hrun : IsRun kw := by rcases hkw with rfl | rfl <;> decide
  obtain ⟨position', before', h⟩ := @opensConstruct_component position before name
    ('\n' :: (g ++ (kw ++ " map".toList ++ " (".toList ++ v))) rfl
  have hpad : IsPad ('\n' :: g) := IsPad.append isPad_newline hg
  have hmap : " map".toList = ' ' :: "map".toList := rfl
  obtain ⟨position₁, before₁, h₁⟩ := nextTokens_word (r := ' ' :: ("map".toList ++ (" (".toList ++ v)))
    hpad hrun rfl 2 position' before'
  obtain ⟨position₂, before₂, h₂⟩ := nextTokens_word (r := " (".toList ++ v) isPad_blank
    (show IsRun "map".toList by decide) rfl 1 position₁ before₁
  have htokens : nextTokens 3 ⟨position', before', '\n' :: (g ++ (kw ++ " map".toList ++ " (".toList ++ v))⟩
      = kw :: "map".toList :: nextTokens 1 ⟨position₂, before₂, " (".toList ++ v⟩ := by
    have hsplit : '\n' :: (g ++ (kw ++ " map".toList ++ " (".toList ++ v))
        = '\n' :: g ++ (kw ++ ' ' :: ("map".toList ++ (" (".toList ++ v))) := by
      rw [hmap]
      simp only [List.append_assoc, List.cons_append]
    rw [hsplit, h₁]
    exact congrArg _ h₂
  have hend : headed ["end"] (kw :: "map".toList :: nextTokens 1 ⟨position₂, before₂, " (".toList ++ v⟩)
      = false := by
    rw [headed_cons]
    rcases hkw with rfl | rfl <;> decide
  have his : headed ["is"] (kw :: "map".toList :: nextTokens 1 ⟨position₂, before₂, " (".toList ++ v⟩)
      = false := by
    rw [headed_cons]
    rcases hkw with rfl | rfl <;> decide
  have hmapped : headed ["map"] ("map".toList :: nextTokens 1 ⟨position₂, before₂, " (".toList ++ v⟩)
      = true := headed_cons ..
  rw [h, htokens, his, if_neg (by decide), opensComponent, hend, List.drop_one, List.tail_cons, hmapped]
  simp

/-- A name with `is`, and a clause or the end on the next line, make a declaration. -/
theorem opens_declared {l : Text} (hg : IsPad g)
    (hl : (∃ kw, (kw = "generic".toList ∨ kw = "port".toList) ∧ l = kw ++ " (".toList)
      ∨ ∃ r, l = "end".toList ++ ' ' :: r) (position : Nat) (before : Option Char) (v : Text) :
    opensConstruct "component".toList
      ⟨position, before, ' ' :: (name.text ++ (" is".toList ++ '\n' :: (g ++ (l ++ v))))⟩ = true := by
  have hpad : IsPad ('\n' :: g) := IsPad.append isPad_newline hg
  obtain ⟨position', before', h⟩ := @opensConstruct_component position before name
    (" is".toList ++ '\n' :: (g ++ (l ++ v))) rfl
  obtain ⟨position₁, before₁, h₁⟩ := nextTokens_word (r := '\n' :: (g ++ (l ++ v))) isPad_blank
    (show IsRun "is".toList by decide) rfl 2 position' before'
  have hsplit : [' '] ++ ("is".toList ++ '\n' :: (g ++ (l ++ v)))
      = " is".toList ++ '\n' :: (g ++ (l ++ v)) := rfl
  have his : sameWord "is".toList "is".toList = true := by decide
  rw [hsplit] at h₁
  rw [h, h₁, headed_cons, his, if_pos rfl, List.drop_one, List.tail_cons]
  obtain ⟨kw, hkw, rfl⟩ | ⟨r, rfl⟩ := hl
  · have hrun : IsRun kw := by rcases hkw with rfl | rfl <;> decide
    obtain ⟨position₂, before₂, h₂⟩ := nextTokens_word (r := " (".toList ++ v) hpad hrun rfl 1
      position₁ before₁
    have hmark : nextTokens 1 ⟨position₂, before₂, " (".toList ++ v⟩ = [['(']] := by
      have hblank := nextToken?_congr (skipTrivia_pad isPad_blank position₂ before₂ ('(' :: v))
      have hparen : " (".toList ++ v = [' '] ++ '(' :: v := rfl
      rw [nextTokens, hparen, hblank, nextToken?_code (by decide) (by decide) (at_open v)]
      rfl
    rw [List.append_assoc, ← List.cons_append, h₂, hmark]
    rcases hkw with rfl | rfl <;> decide
  · obtain ⟨position₂, before₂, h₂⟩ := nextTokens_word (r := ' ' :: (r ++ v)) hpad isRun_endWord rfl 1
      position₁ before₁
    rw [List.append_assoc, List.cons_append, ← List.cons_append, h₂, opensComponent, headed_cons]
    have hend : sameWord "end".toList "end".toList = true := by decide
    rw [hend, Bool.true_or]

/-- An entity of a library opens nothing. -/
theorem not_opens_entity {library : Ident} (position : Nat) (before : Option Char) (v : Text) :
    opensConstruct "entity".toList ⟨position, before, ' ' :: (library.text ++ '.' :: v)⟩ = false := by
  obtain ⟨position', before', h⟩ := nextTokens_word (r := '.' :: v) isPad_blank library.isRun rfl 1
    position before
  have hpoint : nextTokens 1 ⟨position', before', '.' :: v⟩ = [['.']] := by
    rw [nextTokens, nextToken?_code (by decide) (by decide) (at_code (by decide)
      (fun h => absurd h (by decide)) fun h => absurd h (by decide))]
    rfl
  have hopens : ∀ p, opensConstruct "entity".toList p = headed ["is"] ((nextTokens 2 p).drop 1) :=
    fun p => rfl
  rw [List.singleton_append] at h
  rw [hopens, h, hpoint, List.drop_one, List.tail_cons, headed_cons]
  decide

end Components

/-! ## Entities and packages -/

/-- A name with `is` opens an entity or a package. -/
theorem opens_named {w : Text} (hw : w = "entity".toList ∨ w = "package".toList) (name : Ident)
    (position : Nat) (before : Option Char) {u : Text} (hu : u.head?.any isIdentChar = false) :
    opensConstruct w ⟨position, before, ' ' :: (name.text ++ (" is".toList ++ u))⟩ = true := by
  have htokens : ∀ n, ∃ tokens, nextTokens (n + 2) ⟨position, before, ' ' :: (name.text
      ++ (" is".toList ++ u))⟩ = name.text :: "is".toList :: tokens := by
    intro n
    obtain ⟨position', before', hname⟩ := nextTokens_word (r := " is".toList ++ u) isPad_blank name.isRun
      rfl (n + 1) position before
    obtain ⟨position'', before'', his⟩ := nextTokens_word (r := u) isPad_blank
      (show IsRun "is".toList by decide) hu n position' before'
    exact ⟨_, hname.trans (congrArg (name.text :: ·) his)⟩
  have hopen : ∀ tokens, headed ["is"] ("is".toList :: tokens) = true := fun tokens => headed_cons ..
  rcases hw with rfl | rfl
  · obtain ⟨tokens, h⟩ := htokens 0
    have hdef : ∀ p, opensConstruct "entity".toList p = headed ["is"] ((nextTokens 2 p).drop 1) :=
      fun p => rfl
    rw [hdef, h, List.drop_one, List.tail_cons, hopen]
  · obtain ⟨tokens, h⟩ := htokens 1
    have hbody : headed ["body"] (name.text :: "is".toList :: tokens) = false := by
      rw [headed_cons, sameWord_comm]
      exact name.sameWord_eq_false (by decide +kernel)
    have hdef : ∀ p, opensConstruct "package".toList p = if headed ["body"] (nextTokens 3 p) then
        headed ["is"] ((nextTokens 3 p).drop 2) else headed ["is"] ((nextTokens 3 p).drop 1) := fun p => rfl
    rw [hdef, h, hbody, if_neg (by decide), List.drop_one, List.tail_cons, hopen]

/-! ## Functions -/

section Functions

/-- What ends a signature: its semicolon, or the word `is` before its body. -/
def signatureEnds : List Text := [[';'], "is".toList]

theorem isPattern_signatureEnds : ∀ p ∈ signatureEnds, IsPattern p := by
  have hsemicolon : IsPattern [';'] := .inr (by decide)
  have his : IsPattern "is".toList := .inl ⟨by decide, by decide⟩
  exact List.forall_mem_cons.2 ⟨hsemicolon, List.forall_mem_singleton.2 his⟩

theorem firstHit?_signatureEnds (p : CodePoint) :
    firstHit? signatureEnds p.before p.rest
      = if p.char == ';' then some 0 else if matchesAt "is".toList p then some 1 else none := by
  have hsemicolon : standsAt [';'] p.before p.rest = (p.char == ';') := by
    rw [standsAt, if_neg (by decide), CodePoint.rest, List.isPrefixOf, List.isPrefixOf, Bool.and_true,
      Bool.eq_iff_iff, beq_iff_eq, beq_iff_eq, eq_comm]
  rw [firstHit?, signatureEnds, List.findIdx?_cons, hsemicolon, List.findIdx?_cons,
    ← matchesAt_eq_standsAt, List.findIdx?_nil]
  cases p.char == ';' <;> cases matchesAt "is".toList p <;> rfl

/-- A signature has a body when the second of its possible ends comes first. -/
theorem isBeforeSemicolon_eq_hitsFrom (t : Text) :
    isBeforeSemicolon t = (hitsFrom signatureEnds 0 0 none t).head?.any (·.2 == 1) := by
  rw [isBeforeSemicolon, findPoint?_eq_find?, codePoints, hitsFrom]
  induction codePointsFrom [] 0 0 0 none t with
  | nil => rfl
  | cons p ps ih =>
    rw [List.find?_cons, List.filterMap_cons, firstHit?_signatureEnds]
    cases hd : p.depth == 0 with
    | false => simpa using ih
    | true =>
      cases hc : p.char == ';' with
      | true => simpa using hc
      | false =>
        cases matchesAt "is".toList p with
        | false => simpa using ih
        | true => simpa using hc

/-- No inert token ends a signature. -/
theorem spells_inert {t : Token} {before next : Option Char} (hfit : t.Fits before next)
    (ht : Nesting.isInert t = true) : ∀ p ∈ signatureEnds, t.spells p = false := by
  cases t with
  | word w =>
    have his : sameWord "is".toList w = false := by
      rw [sameWord_comm]
      refine sameWord_eq_false_of_not_mem fold_structureWords ?_ (by decide)
      simpa [Nesting.isInert] using ht
    exact List.forall_mem_cons.2 ⟨rfl, List.forall_mem_singleton.2 (by
      rw [spells, his, Bool.and_false])⟩
  | symbol s =>
    have key : ∀ s ∈ symbols, ∀ p ∈ signatureEnds, (s == p) = false := by decide
    exact key s hfit.1
  | mark c =>
    have hc : c ≠ ';' := by simpa [Nesting.isInert] using ht
    refine List.forall_mem_cons.2 ⟨?_, List.forall_mem_singleton.2 ?_⟩
    · simpa [spells] using hc
    · rw [spells, beq_eq_false_iff_ne]
      exact fun h => absurd (congrArg List.length h) (by simp)
  | number | quoted | ticked | group => exact fun _ _ => rfl

/-- Inert tokens hold no word `is`. -/
theorem lacks_is {ts : List Token} {before next : Option Char} (hfit : FitAll before ts next)
    (hinert : ∀ t ∈ ts, Nesting.isInert t = true) : Lacks "is".toList ts := by
  induction ts generalizing before with
  | nil => exact fun _ h => absurd h List.not_mem_nil
  | cons t ts ih =>
    exact List.forall_mem_cons.2 ⟨spells_inert hfit.1 (hinert t List.mem_cons_self) _ (by decide),
      ih hfit.2 fun t ht => hinert t (List.mem_cons_of_mem _ ht)⟩

theorem hits_inert {ts : List Token} {before next : Option Char} (hfit : FitAll before ts next)
    (hinert : ∀ t ∈ ts, Nesting.isInert t = true) (position : Nat) :
    hits signatureEnds position ts = [] := by
  induction ts generalizing before position with
  | nil => rfl
  | cons t ts ih =>
    have hhit : t.hit? signatureEnds = none :=
      List.findIdx?_eq_none_iff.2 (spells_inert hfit.1 (hinert t List.mem_cons_self))
    rw [hits, hhit, ih hfit.2 fun t ht => hinert t (List.mem_cons_of_mem _ ht)]
    rfl

variable {x : Text}

/-- What ends an inert text after the word `function` says whether a body follows. -/
theorem isBeforeSemicolon_inert (hx : IsInertText x) {ts : List Token} {n : Nat} {u : Text}
    (hfit : FitAll (lastOr (some ' ') x) ts u.head?) (hclose : Closes (firstOr ts u.head?))
    (hhits : ∀ position, (hits signatureEnds position ts).head?.map (·.2) = some n) :
    isBeforeSemicolon (' ' :: (x ++ (render ts ++ u))) = (n == 1) := by
  obtain ⟨⟨us, rfl, hus, hinert⟩, -, -⟩ := hx
  have hinert' : ∀ t ∈ mark ' ' :: us, Nesting.isInert t = true :=
    List.forall_mem_cons.2 ⟨rfl, hinert⟩
  have hfit' : FitAll none (mark ' ' :: us) (firstOr ts u.head?) := ⟨fits_blank, hus _ _ rfl hclose⟩
  have hlast : lastOr none (render (mark ' ' :: us)) = lastOr (some ' ') (render us) := by
    rw [render_cons, lastOr_append]
    rfl
  have hall : FitAll none ((mark ' ' :: us) ++ ts) u.head? := fitAll_append.2 ⟨hfit', hlast ▸ hfit⟩
  have hrender : ' ' :: (render us ++ (render ts ++ u)) = render ((mark ' ' :: us) ++ ts) ++ u := by
    simp
  obtain ⟨hit, hhead, rfl⟩ := Option.map_eq_some_iff.1 (hhits (0 + (render (mark ' ' :: us)).length))
  obtain ⟨rest, hrest⟩ := List.head?_eq_some_iff.1 hhead
  rw [isBeforeSemicolon_eq_hitsFrom, hrender, hitsFrom_render isPattern_signatureEnds hall, hits_append,
    hits_inert hfit' hinert', hrest]
  rfl

/-- A signature with its semicolon opens nothing. -/
theorem not_opens_signature (hx : IsInertText x) (position : Nat) (before : Option Char) (u : Text) :
    opensConstruct "function".toList ⟨position, before, ' ' :: (x ++ ';' :: u)⟩ = false := by
  have hfit : FitAll (lastOr (some ' ') x) [mark ';'] u.head? :=
    ⟨fits_separator (by decide), trivial⟩
  exact isBeforeSemicolon_inert hx hfit rfl fun _ => rfl

/-- A signature with `is` after it opens a body. -/
theorem opens_body (hx : IsInertText x) (position : Nat) (before : Option Char) {u : Text}
    (hu : u.head?.any isIdentChar = false) :
    opensConstruct "function".toList ⟨position, before, ' ' :: (x ++ (" is".toList ++ u))⟩ = true := by
  have his : IsName "is".toList := by decide
  have hfit : FitAll (lastOr (some ' ') x) [mark ' ', word "is".toList] u.head? :=
    ⟨fits_blank, his.fits rfl hu, trivial⟩
  exact isBeforeSemicolon_inert hx hfit rfl fun _ => rfl

end Functions

end CanonicalVhdl
