import CanonicalVhdl.Proofs.Token.Search

/-!
# Cutting texts made of tokens

What the searches for separators, for groups and for comments find in a sequence
of tokens.  A cut at a token leaves the tokens before it and those after it.

## Main definitions

* `Token.Lacks` — no token of a sequence spells a pattern.

## Main statements

* `Token.outerMatch?_token`, `Token.cutOuter?_token`, `Token.splitOuter_render` — searching
  for a separator and cutting there.
* `Token.parenthesised?_group`, `Token.balancedSpan?_group` — the span of a group.
* `Token.withoutComments_render` — tokens hold no comment.
-/

namespace CanonicalVhdl

open Text

namespace Token

/-! ## Separators -/

section Separators

variable {pattern : Text} {before : Option Char} {ts us : List Token} {token : Token} {u : Text}

/-- Whether no token of a sequence spells a pattern. -/
def Lacks (pattern : Text) (tokens : List Token) : Prop :=
  ∀ token ∈ tokens, token.spells pattern = false

instance : Decidable (Lacks pattern ts) :=
  inferInstanceAs (Decidable (∀ token ∈ ts, token.spells pattern = false))

theorem lacks_append : Lacks pattern (ts ++ us) ↔ Lacks pattern ts ∧ Lacks pattern us := by
  simp [Lacks, or_imp, forall_and]

theorem patterns_single (hp : IsPattern pattern) : ∀ p ∈ [pattern], IsPattern p := by
  simpa using hp

theorem hits_eq_nil (h : Lacks pattern ts) (position : Nat) : hits [pattern] position ts = [] := by
  induction ts generalizing position with
  | nil => rfl
  | cons token ts ih =>
    have ht : token.spells pattern = false := h token (by simp)
    rw [hits, ih fun t hm => h t (by simp [hm])]
    simp [hit?, ht]

theorem hits_cons_of_spells (h : token.spells pattern = true) (position : Nat) :
    hits [pattern] position (token :: ts)
      = (position, 0) :: hits [pattern] (position + token.text.length) ts := by
  rw [hits]
  simp [hit?, h]

/-- A pattern that no token spells stands nowhere outside. -/
theorem outerMatches_eq_nil (hp : IsPattern pattern) (h : FitAll none ts none)
    (hl : Lacks pattern ts) : outerMatches pattern (render ts) = [] := by
  have := hitsFrom_render (u := []) (patterns_single hp) h 0
  rw [outerMatches_eq_hitsFrom, ← List.append_nil (render ts), this, hits_eq_nil hl]
  rfl

/-- A pattern that one token spells stands there alone. -/
theorem outerMatches_eq_singleton (hp : IsPattern pattern)
    (h : FitAll none (ts ++ token :: us) none) (hts : Lacks pattern ts)
    (ht : token.spells pattern = true) (hus : Lacks pattern us) :
    outerMatches pattern (render (ts ++ token :: us)) = [(render ts).length] := by
  have := hitsFrom_render (u := []) (patterns_single hp) h 0
  rw [outerMatches_eq_hitsFrom, ← List.append_nil (render (ts ++ token :: us)), this, hits_append,
    hits_eq_nil hts, hits_cons_of_spells ht, hits_eq_nil hus]
  simp [hitsFrom, codePointsFrom]

theorem cutOuter?_eq_none (hp : IsPattern pattern) (h : FitAll none ts none)
    (hl : Lacks pattern ts) : cutOuter? pattern (render ts) = none := by
  rw [cutOuter?, outerMatch?_eq_head?, outerMatches_eq_nil hp h hl]
  rfl

/-- A pattern stands first at the first token that spells it, whatever follows. -/
theorem outerMatch?_token (hp : IsPattern pattern) (h : FitAll none (ts ++ [token]) u.head?)
    (hts : Lacks pattern ts) (ht : token.spells pattern = true) :
    outerMatch? pattern (render ts ++ token.text ++ u) = some (render ts).length := by
  have := hitsFrom_render (patterns_single hp) h 0
  rw [render_append, hits_append, hits_eq_nil hts, hits_cons_of_spells ht, render_cons, render_nil,
    List.append_nil, List.nil_append] at this
  rw [outerMatch?_eq_hitsFrom, this, List.cons_append, List.head?_cons, Option.map_some, Nat.zero_add]

/-- A text is cut at the first token that spells the pattern, whatever follows. -/
theorem cutOuter?_token (hp : IsPattern pattern) (h : FitAll none (ts ++ [token]) u.head?)
    (hts : Lacks pattern ts) (ht : token.spells pattern = true)
    (hlen : token.text.length = pattern.length) :
    cutOuter? pattern (render ts ++ token.text ++ u) = some (render ts, u) := by
  rw [cutOuter?, outerMatch?_token hp h hts ht, Option.map_some]
  congr 2
  · rw [List.append_assoc, List.take_left]
  · exact List.drop_left' (by simp [hlen])

theorem le_of_mem_hits {patterns : List Text} {hit : Nat × Nat} {position : Nat}
    (h : hit ∈ hits patterns position ts) : position ≤ hit.1 := by
  induction ts generalizing position with
  | nil => cases h
  | cons token ts ih =>
    rcases List.mem_append.1 h with h | h
    · obtain ⟨k, -, rfl⟩ := Option.map_eq_some_iff.1 (Option.mem_toList.1 h)
      exact Nat.le_refl position
    · exact Nat.le_trans (Nat.le_add_right ..) (ih h)

/-- A pattern that tokens lack stands after them, if at all. -/
theorem le_outerMatch? (hp : IsPattern pattern) (h : FitAll none (ts ++ us) none)
    (hts : Lacks pattern ts) {i : Nat} (hi : outerMatch? pattern (render (ts ++ us)) = some i) :
    (render ts).length ≤ i := by
  have := hitsFrom_render (u := []) (patterns_single hp) h 0
  rw [List.append_nil, hits_append, hits_eq_nil hts, List.nil_append, Nat.zero_add] at this
  rw [outerMatch?_eq_hitsFrom, this] at hi
  obtain ⟨hit, hhit, rfl⟩ := Option.map_eq_some_iff.1 hi
  have hmem := List.mem_of_head? hhit
  rw [List.mem_append] at hmem
  rcases hmem with hmem | hmem
  · exact le_of_mem_hits hmem
  · simp [hitsFrom, codePointsFrom] at hmem

/-- The first cut of a text. -/
theorem piecesBetween_cut (position : Nat) (x : Text) (c : Char) (u : Text) (cuts : List Nat) :
    piecesBetween position (x ++ c :: u) ((position + x.length) :: cuts)
      = x :: piecesBetween (position + x.length + 1) u cuts := by
  have hlength : position + x.length + 1 - position = x.length + 1 := by omega
  rw [piecesBetween, Nat.add_sub_cancel_left, List.take_left, hlength]
  simp

/-- A text is cut into pieces at every token that is the separator. -/
theorem splitOuter_render {separator : Char} (hp : IsPattern [separator])
    (ha : separator.isAlpha = false) (ht : token.text = [separator])
    (hs : token.spells [separator] = true) {piece : List Token} {pieces : List (List Token)}
    (h : FitAll none (piece ++ pieces.flatMap (token :: ·)) none)
    (hl : ∀ p ∈ piece :: pieces, Lacks [separator] p) :
    splitOuter separator (render (piece ++ pieces.flatMap (token :: ·))) =
      render piece :: pieces.map render := by
  have key : ∀ start, piecesBetween start (render (piece ++ pieces.flatMap (token :: ·)))
      ((hits [[separator]] start (piece ++ pieces.flatMap (token :: ·))).map (·.1))
        = render piece :: pieces.map render := by
    clear h
    induction pieces generalizing piece with
    | nil => intro start; simp [hits_eq_nil (hl piece (by simp)), piecesBetween]
    | cons q qs ih =>
      intro start
      rw [List.flatMap_cons, hits_append, hits_eq_nil (hl piece (by simp)), List.nil_append,
        List.cons_append, hits_cons_of_spells hs, List.map_cons, ht, List.length_singleton,
        render_append, render_cons, ht, List.singleton_append, piecesBetween_cut,
        ih fun p hm => hl p (by simp at hm ⊢; exact .inr hm)]
      rfl
  have := hitsFrom_render (u := []) (patterns_single hp) h 0
  rw [splitOuter_eq_hitsFrom ha, ← List.append_nil (render _), this]
  simpa [hitsFrom, codePointsFrom] using key 0

end Separators

/-! ## Groups -/

section Groups

theorem closeGroup_other {opening closing : Char} (state : Option (Nat × Nat)) {p : CodePoint}
    (ps : List CodePoint) (ho : p.char ≠ opening) (hc : p.char ≠ closing) :
    closeGroup opening closing state (p :: ps) = closeGroup opening closing state ps := by
  cases state <;> simp only [closeGroup, beq_iff_eq, ho, hc, if_false]

/-- The search for the end of a group, over the code points of a text. -/
def closeFrom (state : Option (Nat × Nat)) (position depth : Nat) (before : Option Char)
    (t : Text) : Option (Option (Nat × Nat)) :=
  closeGroup '(' ')' state (codePointsFrom [] 0 position depth before t)

theorem closeFrom_code (state : Option (Nat × Nat)) (position depth : Nat) {before : Option Char}
    {c : Char} {u : Text} (h : Lexeme.at before (c :: u) = .code) (ho : c ≠ '(') (hc : c ≠ ')') :
    closeFrom state position depth before (c :: u)
      = closeFrom state (position + 1) depth (some c) u := by
  rw [closeFrom, codePointsFrom_code _ _ h, closeGroup_other state _ ho hc]
  simp only [beq_iff_eq, ho, hc, if_false]
  rfl

theorem closeFrom_literal (state : Option (Nat × Nat)) (position depth : Nat)
    {before : Option Char} {c : Char} {x u : Text}
    (h : Lexeme.at before (c :: (x ++ u)) = .literal (x.length + 1)) (ho : c ≠ '(') (hc : c ≠ ')') :
    closeFrom state position depth before (c :: (x ++ u))
      = closeFrom state (position + 1 + x.length) depth (lastOr (some c) x) u := by
  rw [closeFrom, codePointsFrom_literal _ _ h, closeGroup_other state _ ho hc]
  rfl

theorem closeFrom_pass {state : Option (Nat × Nat)} {depth : Nat} {u : Text} :
    ∀ (x : Text) (position : Nat) (before : Option Char),
      (∀ a c b, x = a ++ c :: b →
        Lexeme.at (lastOr before a) (c :: (b ++ u)) = .code ∧ c ≠ '(' ∧ c ≠ ')') →
      closeFrom state position depth before (x ++ u)
        = closeFrom state (position + x.length) depth (lastOr before x) u
  | [], _, _, _ => rfl
  | c :: x, position, before, h => by
    obtain ⟨hcode, ho, hc⟩ := h [] c x rfl
    rw [lastOr_nil] at hcode
    rw [List.cons_append, closeFrom_code _ _ _ hcode ho hc, closeFrom_pass x _ _ fun a d b hx => by
        have := h (c :: a) d b (by rw [hx]; rfl)
        rwa [lastOr_cons] at this, lastOr_cons, List.length_cons]
    congr 1; omega

/-- A token that is no group is passed over. -/
theorem closeFrom_flat {state : Option (Nat × Nat)} {before : Option Char} {token : Token}
    {u : Text} (h : token.Fits before u.head?) (hg : ∀ inner, token ≠ group inner)
    (position depth : Nat) :
    closeFrom state position depth before (token.text ++ u)
      = closeFrom state (position + token.text.length) depth (lastOr before token.text) u := by
  cases token with
  | group inner => exact absurd rfl (hg inner)
  | word w => exact closeFrom_pass _ _ _ fun a c b hx => h.code rfl (by simp) (by simp) (by simp) hx
  | number digits =>
    exact closeFrom_pass _ _ _ fun a c b hx => h.code rfl (by simp) (by simp) (by simp) hx
  | symbol s => exact closeFrom_pass _ _ _ fun a c b hx => h.code rfl (by simp) (by simp) (by simp) hx
  | mark c => exact closeFrom_pass _ _ _ fun a c b hx => h.code rfl (by simp) (by simp) (by simp) hx
  | quoted body =>
    have hat : Lexeme.at before ('"' :: ((body ++ ['"']) ++ u))
        = .literal ((body ++ ['"']).length + 1) := by simpa using at_quoted h rfl
    rw [text_quoted, List.cons_append, closeFrom_literal _ _ _ hat (by decide) (by decide),
      lastOr_cons, List.length_cons]
    congr 1; omega
  | ticked c =>
    have hat : Lexeme.at before ('\'' :: ([c, '\''] ++ u)) = .literal 3 := at_ticked u h
    rw [text_ticked, List.cons_append, closeFrom_literal _ _ _ hat (by decide) (by decide)]
    rfl

mutual

/-- Inside a group a token leaves the number of open groups as it is. -/
theorem closeFrom_inner :
    ∀ (token : Token) (u : Text) (start count position depth : Nat) (before : Option Char),
      token.Fits before u.head? →
      closeFrom (some (start, count + 1)) position depth before (token.text ++ u)
        = closeFrom (some (start, count + 1)) (position + token.text.length) depth
            (lastOr before token.text) u
  | .group inner, u, start, count, position, depth, before, h => by
    have hopen : closeFrom (some (start, count + 1)) position depth before
          ('(' :: (render inner ++ (')' :: u)))
        = closeFrom (some (start, count + 2)) (position + 1) (depth + 1) (some '(')
          (render inner ++ (')' :: u)) := by
      rw [closeFrom, codePointsFrom_code _ _ (at_open _)]; rfl
    have hclose : ∀ position before, closeFrom (some (start, count + 2)) position (depth + 1) before
          (')' :: u) = closeFrom (some (start, count + 1)) (position + 1) depth (some ')') u := by
      intro position before
      rw [closeFrom, codePointsFrom_code _ _ (at_close _)]; rfl
    rw [text_group, List.cons_append, List.append_assoc, List.singleton_append, hopen,
      closeFrom_innerAll inner _ _ _ _ _ _ (by exact h), hclose, lastOr_cons, lastOr_append,
      List.length_cons, List.length_append]
    congr 1; simp only [List.length_singleton]; omega
  | .word w, u, _, _, position, depth, before, h => closeFrom_flat h (by simp) _ _
  | .number digits, u, _, _, position, depth, before, h => closeFrom_flat h (by simp) _ _
  | .symbol s, u, _, _, position, depth, before, h => closeFrom_flat h (by simp) _ _
  | .mark c, u, _, _, position, depth, before, h => closeFrom_flat h (by simp) _ _
  | .quoted body, u, _, _, position, depth, before, h => closeFrom_flat h (by simp) _ _
  | .ticked c, u, _, _, position, depth, before, h => closeFrom_flat h (by simp) _ _

/-- Inside a group a sequence leaves the number of open groups as it is. -/
theorem closeFrom_innerAll :
    ∀ (tokens : List Token) (u : Text) (start count position depth : Nat) (before : Option Char),
      FitAll before tokens u.head? →
      closeFrom (some (start, count + 1)) position depth before (render tokens ++ u)
        = closeFrom (some (start, count + 1)) (position + (render tokens).length) depth
            (lastOr before (render tokens)) u
  | [], _, _, _, _, _, _, _ => rfl
  | token :: tokens, u, start, count, position, depth, before, h => by
    obtain ⟨ht, hts⟩ := h
    rw [firstOr, ← List.head?_append] at ht
    rw [render_cons, List.append_assoc, closeFrom_inner token _ _ _ _ _ _ ht,
      closeFrom_innerAll tokens _ _ _ _ _ _ hts, lastOr_append, List.length_append, Nat.add_assoc]

end

/-- The span of the first group of a sequence. -/
theorem balancedSpan?_group {ts inner : List Token} {u : Text}
    (h : FitAll none (ts ++ [group inner]) u.head?) (hg : ∀ t ∈ ts, ∀ i, t ≠ group i) :
    balancedSpan? '(' ')' (render ts ++ ((group inner).text ++ u))
      = some ((render ts).length, (render ts).length + (render inner).length + 2) := by
  have hpass : ∀ (ts : List Token) (position depth : Nat) (before : Option Char) (v : Text),
      FitAll before ts v.head? → (∀ t ∈ ts, ∀ i, t ≠ group i) →
      closeFrom none position depth before (render ts ++ v)
        = closeFrom none (position + (render ts).length) depth (lastOr before (render ts)) v := by
    intro ts
    induction ts with
    | nil => intros; rfl
    | cons t ts ih =>
      intro position depth before v h hg
      obtain ⟨ht, hts⟩ := h
      rw [firstOr, ← List.head?_append] at ht
      rw [render_cons, List.append_assoc, closeFrom_flat ht (hg t (by simp)),
        ih _ _ _ _ hts fun t hm => hg t (by simp [hm]), lastOr_append, List.length_append,
        Nat.add_assoc]
  obtain ⟨hts, hgroup, -⟩ := fitAll_append.1 h
  have hspan : closeFrom none 0 0 none (render ts ++ ((group inner).text ++ u))
      = some (some ((render ts).length, (render ts).length + (render inner).length + 2)) := by
    rw [hpass ts _ _ _ _ (by simpa [firstOr] using hts) hg, text_group, List.cons_append,
      List.append_assoc, List.singleton_append, closeFrom, codePointsFrom_code _ _ (at_open _)]
    show closeFrom (some (0 + (render ts).length, 1)) (0 + (render ts).length + 1) 1 (some '(')
      (render inner ++ (')' :: u)) = _
    rw [closeFrom_innerAll inner _ _ _ _ _ _ (by exact hgroup), closeFrom,
      codePointsFrom_code _ _ (at_close _)]
    simp only [closeGroup, Nat.zero_add]
    rw [show ∀ n m : Nat, n + 1 + m + 1 = n + m + 2 by omega]
    rfl
  rw [balancedSpan?, codePoints, ← closeFrom, hspan]
  rfl

/-- The interior of a group at the head of a text, whatever follows. -/
theorem parenthesised?_group {inner : List Token} {u : Text}
    (h : FitAll (some '(') inner (some ')')) :
    parenthesised? ((group inner).text ++ u) = some (render inner, u) := by
  have hspan := @balancedSpan?_group [] inner u ⟨by exact h, trivial⟩ (by simp)
  rw [render_nil, List.nil_append] at hspan
  rw [parenthesised?, hspan]
  simp only [text_group, List.cons_append, List.head?_cons, BEq.rfl, if_true, Option.map_some,
    List.length_nil, Nat.zero_add, List.append_assoc]
  congr 2
  · rw [show (render inner).length + 2 - 1 = (render inner).length + 1 by omega, List.take_succ_cons,
      List.take_left' rfl, List.drop_one, List.tail_cons]
  · rw [List.drop_succ_cons, show render inner ++ ')' :: ([] ++ u) = (render inner ++ [')']) ++ u by
      simp]
    exact List.drop_left' (by simp)

end Groups

/-! ## Comments -/

theorem commentFrom?_skip (x u : Text) (position : Nat) (before : Option Char) :
    commentFrom? x.length position before (x ++ u)
      = commentFrom? 0 (position + x.length) (lastOr before x) u := by
  induction x generalizing position before with
  | nil => rfl
  | cons c x ih =>
    simp only [List.cons_append, List.length_cons, commentFrom?, lastOr_cons]
    rw [ih]; congr 1; omega

theorem commentFrom?_pass {u : Text} :
    ∀ (x : Text) (position : Nat) (before : Option Char),
      (∀ a c b, x = a ++ c :: b → Lexeme.at (lastOr before a) (c :: (b ++ u)) = .code) →
      commentFrom? 0 position before (x ++ u)
        = commentFrom? 0 (position + x.length) (lastOr before x) u
  | [], _, _, _ => rfl
  | c :: x, position, before, h => by
    have hcode := h [] c x rfl
    rw [lastOr_nil] at hcode
    rw [List.cons_append, commentFrom?, hcode]
    simp only
    rw [commentFrom?_pass x _ _ fun a d b hx => by
      have := h (c :: a) d b (by rw [hx]; rfl)
      rwa [lastOr_cons] at this, lastOr_cons, List.length_cons]
    congr 1; omega

mutual

/-- A token holds no comment. -/
theorem commentFrom?_token :
    ∀ (token : Token) (u : Text) (position : Nat) (before : Option Char),
      token.Fits before u.head? →
      commentFrom? 0 position before (token.text ++ u)
        = commentFrom? 0 (position + token.text.length) (lastOr before token.text) u
  | .word w, u, position, before, h =>
    commentFrom?_pass _ _ _ fun a c b hx => (h.code rfl (by simp) (by simp) (by simp) hx).1
  | .number digits, u, position, before, h =>
    commentFrom?_pass _ _ _ fun a c b hx => (h.code rfl (by simp) (by simp) (by simp) hx).1
  | .symbol s, u, position, before, h =>
    commentFrom?_pass _ _ _ fun a c b hx => (h.code rfl (by simp) (by simp) (by simp) hx).1
  | .mark c, u, position, before, h =>
    commentFrom?_pass _ _ _ fun a c b hx => (h.code rfl (by simp) (by simp) (by simp) hx).1
  | .quoted body, u, position, before, h => by
    have hat : Lexeme.at before ('"' :: ((body ++ ['"']) ++ u))
        = .literal ((body ++ ['"']).length + 1) := by simpa using at_quoted h rfl
    rw [text_quoted, List.cons_append, commentFrom?, hat]
    simp only [Nat.add_sub_cancel]
    rw [commentFrom?_skip, lastOr_cons, List.length_cons]
    congr 1; omega
  | .ticked c, u, position, before, h => by
    have hat : Lexeme.at before ('\'' :: ([c, '\''] ++ u)) = .literal 3 := at_ticked u h
    rw [text_ticked, List.cons_append, commentFrom?, hat]
    rfl
  | .group inner, u, position, before, h => by
    rw [text_group, List.cons_append, List.append_assoc, List.singleton_append, commentFrom?,
      at_open]
    simp only
    rw [commentFrom?_tokens inner _ _ _ (by exact h), commentFrom?, at_close]
    simp only
    rw [lastOr_cons, lastOr_append, List.length_cons, List.length_append]
    congr 1; simp only [List.length_singleton]; omega

/-- A sequence of tokens holds no comment. -/
theorem commentFrom?_tokens :
    ∀ (tokens : List Token) (u : Text) (position : Nat) (before : Option Char),
      FitAll before tokens u.head? →
      commentFrom? 0 position before (render tokens ++ u)
        = commentFrom? 0 (position + (render tokens).length) (lastOr before (render tokens)) u
  | [], _, _, _, _ => rfl
  | token :: tokens, u, position, before, h => by
    obtain ⟨ht, hts⟩ := h
    rw [firstOr, ← List.head?_append] at ht
    rw [render_cons, List.append_assoc, commentFrom?_token token _ _ _ ht,
      commentFrom?_tokens tokens _ _ _ hts, lastOr_append, List.length_append, Nat.add_assoc]

end

theorem commentStart?_render {tokens : List Token} (h : FitAll none tokens none) :
    commentStart? (render tokens) = none := by
  have := commentFrom?_tokens tokens [] 0 none h
  rwa [List.append_nil] at this

/-- A text made of tokens stays as it is when comments are removed. -/
theorem withoutComments_render {tokens : List Token} (h : FitAll none tokens none) :
    withoutComments (render tokens) = render tokens := by
  rw [withoutComments, commentStart?_render h]
  rfl

end Token
end CanonicalVhdl
