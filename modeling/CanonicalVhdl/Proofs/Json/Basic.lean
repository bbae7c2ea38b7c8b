import Mathlib.Data.List.Basic
import CanonicalVhdl.Json.Basic
import CanonicalVhdl.Proofs.Text.Lists

/-!
# JSON values and their parts

What an encoder puts together its decoder takes apart again, and what a decoder takes apart
holds no string that the whole value did not hold.

## Main definitions

* `Json.strings j` — the strings inside a value; the names of fields do not count.
* `Json.Within S j` — every string inside a value is one of `S`.

## Main statements

* `Json.list_map`, `Json.optional_ofOption` — arrays and optional fields are decoded.
* `Json.lt_of_variant`, `Json.lt_of_record` — the parts of a value are nested less deeply.
* `Json.Within.of_variant?`, `Json.Within.of_record?` — the parts of a value hold its strings.
-/

namespace CanonicalVhdl.Json

/-! ## Decoding what was encoded -/

@[simp] theorem required_some {α : Type} (decode : Json → Option α) (j : Json) :
    required decode (some j) = decode j := rfl

theorem optional_of_ne_null {α : Type} {decode : Json → Option α} {j : Json} (h : j ≠ null) :
    optional decode (some j) = (decode j).map some := by
  cases j with
  | null => exact absurd rfl h
  | bool | integer | real | string | array | object => rfl

/-- A field that may be missing is decoded, if no value is encoded as `null`. -/
theorem optional_ofOption {α : Type} {encode : α → Json} {decode : Json → Option α} {o : Option α}
    (h : ∀ a ∈ o, decode (encode a) = some a) (hnull : ∀ a, encode a ≠ null) :
    optional decode (some (ofOption (o.map encode))) = some o := by
  cases o with
  | none => rfl
  | some a =>
    rw [Option.map_some, ofOption, optional_of_ne_null (hnull a), h a rfl]
    rfl

theorem list_cons {α : Type} {decode : Json → Option α} {j : Json} {js : List Json} {a : α}
    {as : List α} (ha : decode j = some a) (has : list decode (array js) = some as) :
    list decode (array (j :: js)) = some (a :: as) := by
  replace has : js.mapM decode = some as := has
  show (j :: js).mapM decode = some (a :: as)
  rw [List.mapM_cons, ha, has]
  rfl

/-- An array is decoded when its items are. -/
theorem list_map {α : Type} {encode : α → Json} {decode : Json → Option α} {as : List α}
    (h : ∀ a ∈ as, decode (encode a) = some a) :
    list decode (array (as.map encode)) = some as := by
  induction as with
  | nil => rfl
  | cons a as ih =>
    exact list_cons (h a List.mem_cons_self) (ih fun b hb => h b (List.mem_cons_of_mem a hb))

/-- The label of a variant is not that of another one without contents. -/
theorem label?_variant_ne {label : String} {other : Text} (h : label.toList ≠ other) (c : Json) :
    ((variant label c).label? == some other) = false := by
  rw [beq_eq_false_iff_ne]
  cases c with
  | null => exact fun heq => h (Option.some.inj heq)
  | bool | integer | real | string | array | object => exact fun heq => nomatch heq

theorem variant_ne_null (label : String) (c : Json) : variant label c ≠ null := fun h => nomatch h

theorem record_ne_null (fields : List (String × Json)) : record fields ≠ null := fun h => nomatch h

theorem string_ne_null (s : Text) : string s ≠ null := fun h => nomatch h

/-! ## Depth -/

/-- What a variant holds is nested less deeply. -/
theorem lt_of_variant {label : String} {c : Json} {n : Nat} (h : (variant label c).depth < n + 1) :
    c.depth < n := by
  simp only [variant, depth, depthFields, Nat.max_zero] at h
  omega

theorem depth_le_depthFields {fields : List (Text × Json)} {f : Text × Json} (h : f ∈ fields) :
    f.2.depth ≤ depthFields fields := by
  induction fields with
  | nil => cases h
  | cons g fields ih =>
    rw [depthFields]
    rcases List.mem_cons.1 h with rfl | h
    · exact Nat.le_max_left _ _
    · exact Nat.le_trans (ih h) (Nat.le_max_right _ _)

/-- The fields of a record are nested less deeply. -/
theorem lt_of_record {fields : List (String × Json)} {n : Nat}
    (h : (record fields).depth < n + 1) : fields.Forall (·.2.depth < n) := by
  rw [record, depth] at h
  refine List.forall_iff_forall_mem.2 fun f hf => Nat.lt_of_le_of_lt ?_ (Nat.lt_of_succ_lt_succ h)
  exact depth_le_depthFields (f := (f.1.toList, f.2)) (List.mem_map.2 ⟨f, hf, rfl⟩)

theorem depth_le_depthItems {items : List Json} {j : Json} (h : j ∈ items) :
    j.depth ≤ depthItems items := by
  induction items with
  | nil => cases h
  | cons k items ih =>
    rw [depthItems]
    rcases List.mem_cons.1 h with rfl | h
    · exact Nat.le_max_left _ _
    · exact Nat.le_trans (ih h) (Nat.le_max_right _ _)

/-- The items of an array are nested less deeply. -/
theorem lt_of_mem_array {items : List Json} {n : Nat} (h : (array items).depth < n + 1) :
    ∀ j ∈ items, j.depth < n := by
  intro j hj
  have := depth_le_depthItems hj
  rw [depth] at h
  omega

/-! ## Strings -/

mutual

/-- The strings inside a value, the names of fields aside. -/
def strings : Json → List Text
  | string s => [s]
  | array items => stringsItems items
  | object fields => stringsFields fields
  | _ => []

/-- The strings inside some items. -/
def stringsItems : List Json → List Text
  | [] => []
  | item :: items => item.strings ++ stringsItems items

/-- The strings inside the values of some fields. -/
def stringsFields : List (Text × Json) → List Text
  | [] => []
  | (_, value) :: fields => value.strings ++ stringsFields fields

end

/-- Every string inside a value is one of the given texts. -/
def Within (S : List Text) (j : Json) : Prop :=
  j.strings ⊆ S

theorem Within.of_mem_items {S : List Text} {items : List Json} (h : stringsItems items ⊆ S)
    {j : Json} (hj : j ∈ items) : Within S j := by
  induction items with
  | nil => cases hj
  | cons k items ih =>
    rw [stringsItems, List.append_subset] at h
    rcases List.mem_cons.1 hj with rfl | hj
    · exact h.1
    · exact ih h.2 hj

theorem Within.of_mem_fields {S : List Text} {fields : List (Text × Json)}
    (h : stringsFields fields ⊆ S) {f : Text × Json} (hf : f ∈ fields) : Within S f.2 := by
  induction fields with
  | nil => cases hf
  | cons g fields ih =>
    rw [stringsFields, List.append_subset] at h
    rcases List.mem_cons.1 hf with rfl | hf
    · exact h.1
    · exact ih h.2 hf

section Parts

variable {S : List Text} {j : Json}

theorem Within.of_string? (h : Within S j) {s : Text} (hs : j.string? = some s) : s ∈ S := by
  cases j with
  | string t =>
    obtain rfl := Option.some.inj hs
    exact h List.mem_cons_self
  | null | bool | integer | real | array | object => cases hs

/-- What a variant holds. -/
theorem Within.of_variant? (h : Within S j) {label : Text} {c : Json}
    (hc : j.variant? = some (label, some c)) : Within S c := by
  cases j with
  | object fields =>
    match fields, hc with
    | [(key, value)], hc =>
      obtain ⟨-, hc⟩ := Prod.mk.inj (Option.some.inj hc)
      obtain rfl := Option.some.inj hc
      exact Within.of_mem_fields h List.mem_cons_self
  | null | bool | integer | real | string | array => cases hc

/-- What a decoder of variants with contents looks at. -/
theorem Within.exists_contents {α : Type} {f : Text → Json → Option α} {a : α} (h : Within S j)
    (ha : (do
      let (label, some c) ← j.variant? | none
      f label c) = some a) :
    ∃ label c, Within S c ∧ f label c = some a := by
  obtain ⟨⟨label, c⟩, hv, ha⟩ := Option.bind_eq_some_iff.1 ha
  cases c with
  | none => cases ha
  | some c => exact ⟨label, c, h.of_variant? hv, ha⟩

theorem Within.of_field? {fields : List (Text × Json)} (h : Within S (object fields)) {key : String}
    {c : Json} (hc : field? fields key = some c) : Within S c := by
  obtain ⟨f, hf, rfl⟩ := Option.map_eq_some_iff.1 hc
  exact Within.of_mem_fields h (List.mem_of_find?_eq_some hf)

/-- The fields of a variant's record. -/
theorem Within.of_fields? (h : Within S j) {keys : List String} {parts : List (Option Json)}
    (hparts : j.fields? keys = some parts) : parts.Forall fun o => ∀ c ∈ o, Within S c := by
  cases j with
  | object fields =>
    obtain rfl := Option.some.inj hparts
    refine List.forall_iff_forall_mem.2 fun o ho c hc => ?_
    obtain ⟨key, -, rfl⟩ := List.mem_map.1 ho
    exact h.of_field? hc
  | null | bool | integer | real | string | array => cases hparts

/-- The fields of a record. -/
theorem Within.of_record? (h : Within S j) {keys : List String} {parts : List (Option Json)}
    (hparts : j.record? keys = some parts) : parts.Forall fun o => ∀ c ∈ o, Within S c := by
  cases j with
  | array items =>
    simp only [record?] at hparts
    split at hparts
    · obtain rfl := Option.some.inj hparts
      refine List.forall_iff_forall_mem.2 fun o ho c hc => ?_
      obtain ⟨item, hitem, rfl⟩ := List.mem_map.1 ho
      obtain rfl := Option.some.inj hc
      exact Within.of_mem_items h hitem
    · cases hparts
  | object fields => exact h.of_fields? hparts
  | null | bool | integer | real | string => cases hparts

/-- What is decoded from an array comes from its items. -/
theorem Within.of_list {α : Type} {decode : Json → Option α} {as : List α} {p : α → Prop}
    (h : Within S j) (hdecode : ∀ i a, Within S i → decode i = some a → p a)
    (has : list decode j = some as) : ∀ a ∈ as, p a := by
  cases j with
  | array items =>
    intro a ha
    have hitems : items.mapM decode = some as := has
    obtain ⟨i, hi, hia⟩ := (mem_mapM hitems).2 a ha
    exact hdecode i a (Within.of_mem_items h hi) hia
  | null | bool | integer | real | string | object => cases has

/-- What is decoded from a field that must be present. -/
theorem Within.of_required {α : Type} {decode : Json → Option α} {o : Option Json} {a : α}
    {p : α → Prop} (h : ∀ c ∈ o, Within S c) (hdecode : ∀ c, Within S c → decode c = some a → p a)
    (ha : required decode o = some a) : p a := by
  cases o with
  | none => cases ha
  | some c => exact hdecode c (h c rfl) ha

/-- What is decoded from a field that holds an array. -/
theorem Within.of_required_list {α : Type} {decode : Json → Option α} {o : Option Json}
    {as : List α} {p : α → Prop} (h : ∀ c ∈ o, Within S c)
    (hdecode : ∀ i a, Within S i → decode i = some a → p a)
    (has : required (list decode) o = some as) : ∀ a ∈ as, p a :=
  Within.of_required (p := fun as => ∀ a ∈ as, p a) h (fun _ hc => hc.of_list hdecode) has

/-- What is decoded from a field that may be missing. -/
theorem Within.of_optional {α : Type} {decode : Json → Option α} {o : Option Json} {a : Option α}
    {p : α → Prop} (h : ∀ c ∈ o, Within S c) (hdecode : ∀ c b, Within S c → decode c = some b → p b)
    (ha : optional decode o = some a) : ∀ b ∈ a, p b := by
  cases o with
  | none =>
    obtain rfl := Option.some.inj ha
    exact fun b hb => nomatch hb
  | some c =>
    by_cases hc : c = null
    · subst hc
      obtain rfl := Option.some.inj ha
      exact fun b hb => nomatch hb
    · rw [optional_of_ne_null hc] at ha
      obtain ⟨b, hb, rfl⟩ := Option.map_eq_some_iff.1 ha
      intro b' hb'
      obtain rfl := Option.some.inj hb'
      exact hdecode c b (h c rfl) hb

end Parts

end CanonicalVhdl.Json
