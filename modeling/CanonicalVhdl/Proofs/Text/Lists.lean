import Mathlib.Data.List.Forall2

/-!
# Lists that are read element by element

## Main statements

* `mapM_eq_some_iff` — a list is read when each of its elements is.
* `forall_of_mapM`, `mem_mapM`, `length_of_mapM` — what was read from a list.
* `mapM_eq_self`, `exists_mapM_same` — lists whose elements read back.
* `mapM_eq_filterMap` — reading all that can be read.
-/

namespace CanonicalVhdl

variable {α β γ : Type}

/-- A list is read when each of its elements is. -/
theorem mapM_eq_some_iff {f : α → Option β} {as : List α} {bs : List β} :
    as.mapM f = some bs ↔ List.Forall₂ (fun a b => f a = some b) as bs := by
  induction as generalizing bs with
  | nil =>
    rw [List.forall₂_nil_left_iff]
    exact ⟨fun h => (Option.some.inj h).symm, fun h => by rw [h]; rfl⟩
  | cons a as ih =>
    simp only [List.mapM_cons, bind, Option.bind_eq_some_iff, pure, Option.some.injEq,
      List.forall₂_cons_left_iff, ih]
    constructor
    · rintro ⟨b, hb, bs, hbs, rfl⟩
      exact ⟨b, bs, hb, hbs, rfl⟩
    · rintro ⟨b, bs, hb, hbs, rfl⟩
      exact ⟨b, hb, bs, hbs, rfl⟩

theorem mapM_of_forall₂ {read : α → Option β} {as : List α} {bs : List β}
    (h : List.Forall₂ (fun a b => read a = some b) as bs) : as.mapM read = some bs :=
  mapM_eq_some_iff.2 h

theorem length_of_mapM {f : α → Option β} {as : List α} {bs : List β}
    (h : as.mapM f = some bs) : bs.length = as.length :=
  (mapM_eq_some_iff.1 h).length_eq.symm

theorem mem_mapM {f : α → Option β} {as : List α} {bs : List β} (h : as.mapM f = some bs) :
    (∀ a ∈ as, ∃ b, f a = some b) ∧ ∀ b ∈ bs, ∃ a ∈ as, f a = some b := by
  have hall := mapM_eq_some_iff.1 h
  clear h
  induction hall with
  | nil => exact ⟨fun a ha => absurd ha List.not_mem_nil, fun b hb => absurd hb List.not_mem_nil⟩
  | @cons a b as bs hb _ ih =>
    obtain ⟨hread, hmem⟩ := ih
    refine ⟨List.forall_mem_cons.2 ⟨⟨b, hb⟩, hread⟩, List.forall_mem_cons.2
      ⟨⟨a, List.mem_cons_self, hb⟩, fun c hc => ?_⟩⟩
    obtain ⟨a', ha', hc⟩ := hmem c hc
    exact ⟨a', List.mem_cons_of_mem _ ha', hc⟩

/-- What `mapM` collects comes from the members of the list. -/
theorem forall_of_mapM {read : α → Option β} {p : β → Prop} (h : ∀ a b, read a = some b → p b)
    (as : List α) (bs : List β) (hbs : as.mapM read = some bs) : ∀ b ∈ bs, p b := by
  intro b hb
  obtain ⟨a, -, ha⟩ := (mem_mapM hbs).2 b hb
  exact h a b ha

/-! ## Lists that read back -/

/-- Elements that read back one by one read back as a list. -/
theorem exists_mapM_same {read : α → Option α} {same : α → α → Bool}
    (sameAll : List α → List α → Bool) (hnil : sameAll [] [] = true)
    (hcons : ∀ a as b bs, sameAll (a :: as) (b :: bs) = (same a b && sameAll as bs)) {as : List α}
    (h : ∀ a ∈ as, (read a).any (same · a) = true) :
    ∃ bs, as.mapM read = some bs ∧ sameAll bs as = true := by
  induction as with
  | nil => exact ⟨[], rfl, hnil⟩
  | cons a as ih =>
    obtain ⟨bs, hbs, hsame⟩ := ih fun b hb => h b (List.mem_cons_of_mem a hb)
    obtain ⟨b, hb, hab⟩ := (Option.any_eq_true _ _).1 (h a List.mem_cons_self)
    refine ⟨b :: bs, ?_, by rw [hcons, hab, hsame]; rfl⟩
    rw [List.mapM_cons, hb, hbs]
    rfl

/-- Elements that read back exactly one by one read back as the same list. -/
theorem mapM_eq_self {read : α → Option α} {as : List α} (h : ∀ a ∈ as, read a = some a) :
    as.mapM read = some as :=
  mapM_of_forall₂ (List.forall₂_same.2 h)

/-- A list that is read element by element as parts of one kind. -/
theorem mapM_map_ctor {read : α → Option β} (ctor : β → γ) {as : List α} {bs : List β}
    (h : as.mapM read = some bs) :
    as.mapM (fun a => (read a).map ctor) = some (bs.map ctor) := by
  refine mapM_of_forall₂ (List.forall₂_map_right_iff.2 ((mapM_eq_some_iff.1 h).imp ?_))
  intro a b hb
  rw [hb]
  rfl

/-! ## Other readings of lists -/

/-- A reader that commutes with a map does so on every member of a list. -/
theorem mapM_map_of_comm {read : α → Option β} {f : α → α} {g : β → β}
    (h : ∀ a, read (f a) = (read a).map g) (as : List α) :
    (as.map f).mapM read = (as.mapM read).map (List.map g) := by
  induction as with
  | nil => rfl
  | cons a as ih =>
    rw [List.map_cons, List.mapM_cons, List.mapM_cons, h, ih]
    cases read a with
    | none => rfl
    | some b => cases as.mapM read <;> rfl

/-- Two readers that agree on the members of a list read the same from it. -/
theorem mapM_congr {f g : α → Option β} {as : List α} (h : ∀ a ∈ as, f a = g a) :
    as.mapM f = as.mapM g := by
  refine Option.ext fun bs => ?_
  rw [mapM_eq_some_iff, mapM_eq_some_iff, List.forall₂_iff_zip, List.forall₂_iff_zip]
  refine and_congr_right fun _ => forall_congr' fun a => forall_congr' fun b => ?_
  exact forall_congr' fun hab => by rw [h a (List.of_mem_zip hab).1]

/-- Reading every member of a list succeeds if reading none fails. -/
theorem mapM_eq_filterMap (f : α → Option β) (as : List α) :
    as.mapM f = if as.all (fun a => (f a).isSome) then some (as.filterMap f) else none := by
  induction as with
  | nil => rfl
  | cons a as ih =>
    rw [List.mapM_cons, ih]
    cases ha : f a with
    | none => simp [ha]
    | some b => cases h : as.all (fun a => (f a).isSome) <;> simp [ha, h]

end CanonicalVhdl
