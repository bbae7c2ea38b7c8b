import CanonicalVhdl.Files.Path
import CanonicalVhdl.Files.Tree
import CanonicalVhdl.Proofs.Text.Layout
import Mathlib.Data.List.Infix

/-!
# Paths and trees of files and folders

## Main definitions

* `Path.isName` — whether a text can name an entry of a folder.
* `Path.lead` — the component that stands for the beginning of a path.
* `Tree.isProper` — whether all entries of a tree have names that an entry can have.
* `Tree.Relisted` — the same tree with the entries of its folders in another order.

## Main statements

* `Path.components_join_name` — the components of an entry of a folder.
* `Path.dropComponents?_eq_some_iff` — one path below another, as a prefix.
* `Path.compareComponents_eq` — the order is lexicographic, so that it is linear.
* `Tree.components_of_mem_filesIn` — the files of a folder lie below it.
* `Disk.isProper_find` — on a disk with proper names, proper trees stand everywhere.
-/

namespace CanonicalVhdl

open Text

/-! ## Paths and their components

What a path means is its list of components.  Entering a folder adds one component
at the end, and paths are in a linear order by their components. -/

namespace Path

/-! ## Entering a folder -/

/-- Whether a text can name an entry of a folder. -/
def isName (t : Text) : Bool :=
  !t.isEmpty && t != ['.'] && t != ['.', '.'] && !t.contains '/'

theorem isName_iff {t : Text} :
    isName t = true ↔ t ≠ [] ∧ t ≠ ['.'] ∧ t ≠ ['.', '.'] ∧ '/' ∉ t := by
  simp [isName, and_assoc]

/-- The parts of a name are the name itself. -/
theorem inside_name {name : Text} (h : isName name = true) :
    (splitOn '/' name).filterMap inner? = [.name name] := by
  obtain ⟨hne, hdot, hdots, hslash⟩ := isName_iff.1 h
  rw [splitOn_of_not_mem hslash]
  simp [inner?, hne, hdot, hdots]

/-- The component that stands for the beginning of a path. -/
def lead (p : Text) : List Component :=
  if isAbsolute p then [.root]
  else if (splitOn '/' p).head? == some ['.'] then [.current]
  else []

theorem components_eq (p : Text) :
    components p = lead p ++ (splitOn '/' p).filterMap inner? := by
  unfold components lead
  dsimp only
  split_ifs <;> rfl

/-- The beginning of a path stays when more follows after a slash. -/
theorem lead_slash {p : Text} (h : p ≠ []) (q : Text) : lead (p ++ '/' :: q) = lead p := by
  have habsolute : isAbsolute (p ++ '/' :: q) = isAbsolute p := by
    obtain ⟨c, p, rfl⟩ := List.exists_cons_of_ne_nil h
    rfl
  obtain ⟨part, parts, hparts⟩ := List.exists_cons_of_ne_nil (splitOn_ne_nil '/' p)
  simp only [lead, habsolute, splitOn_separator, hparts, List.cons_append, List.head?_cons]

/-- What stands after a slash adds the components of its parts. -/
theorem components_slash {p : Text} (h : p ≠ []) (q : Text) :
    components (p ++ '/' :: q) = components p ++ (splitOn '/' q).filterMap inner? := by
  rw [components_eq, components_eq, lead_slash h, splitOn_separator, List.filterMap_append,
    List.append_assoc]

/-- The path of an entry has one component more than that of its folder. -/
theorem components_join_name (folder : Text) {name : Text} (h : isName name = true) :
    components (join folder name) = components folder ++ [.name name] := by
  obtain ⟨hne, hdot, -, hslash⟩ := isName_iff.1 h
  have hrelative : isAbsolute name = false := by
    obtain ⟨c, name, rfl⟩ := List.exists_cons_of_ne_nil hne
    have hc : c ≠ '/' := fun hc => hslash (hc ▸ List.mem_cons_self)
    simpa [isAbsolute] using hc
  have hlead : lead name = [] := by
    simp [lead, hrelative, splitOn_of_not_mem hslash, hdot]
  have hempty : (splitOn '/' []).filterMap inner? = [] := by decide
  by_cases hfolder : folder = []
  · subst hfolder
    have hjoin : join [] name = name := by simp [join]
    rw [hjoin, components_eq, hlead, inside_name h]
    rfl
  · obtain ⟨p, c, rfl⟩ := (List.eq_nil_or_concat' folder).resolve_left hfolder
    by_cases hc : c = '/'
    · subst hc
      have hjoin : join (p ++ ['/']) name = p ++ '/' :: name := by simp [join, hrelative]
      rw [hjoin]
      by_cases hp : p = []
      · -- the root of the file system
        subst hp
        have hroot : splitOn '/' ('/' :: name) = [] :: splitOn '/' name :=
          splitOn_append List.not_mem_nil name
        simp [components_eq, lead, isAbsolute, hroot, inner?, inside_name h,
          show splitOn '/' ['/'] = [[], []] from rfl]
      · rw [components_slash hp, components_slash hp, inside_name h, hempty, List.append_nil]
    · have hjoin : join (p ++ [c]) name = (p ++ [c]) ++ '/' :: name := by
        simp [join, hrelative, hc]
      rw [hjoin, components_slash (by simp), inside_name h]

/-! ## One path below another -/

/-- The components of one path are dropped from another exactly when they stand at
its start. -/
theorem dropComponents?_eq_some_iff {base cs rest : List Component} :
    dropComponents? base cs = some rest ↔ cs = base ++ rest := by
  induction base generalizing cs with
  | nil => simp [dropComponents?]
  | cons b base ih =>
    cases cs with
    | nil => simp [dropComponents?]
    | cons c cs =>
      by_cases h : b = c
      · simp [dropComponents?, h, ih]
      · simp [dropComponents?, h, Ne.symm h]

theorem isSome_dropComponents? {base cs : List Component} :
    (dropComponents? base cs).isSome = true ↔ base <+: cs := by
  simp only [Option.isSome_iff_exists, dropComponents?_eq_some_iff, List.IsPrefix,
    eq_comm (a := cs)]

/-! ## The order of paths -/

/-- The characters of a component, if it is a name. -/
def letters : Component → List Nat
  | .name t => t.map Char.toNat
  | _ => []

/-- Components are compared by their kinds, then by the characters of the names. -/
theorem compare_component :
    Component.compare = compareLex (compareOn Component.rank) (compareOn letters) := by
  funext a b
  cases a <;> cases b <;> rfl

instance : Std.TransCmp Component.compare := by
  rw [compare_component]
  infer_instance

instance : Std.LawfulEqCmp Component.compare where
  compare_self := Std.ReflCmp.compare_self
  eq_of_compare {a b} h := by
    have hchars : Function.Injective Char.toNat := fun _ _ => Char.toNat_inj.1
    cases a <;> cases b <;>
      simp_all [Component.compare, Component.rank, (List.map_injective_iff.2 hchars).eq_iff]

/-- Paths are in order by their first components that differ. -/
theorem compareComponents_eq : compareComponents = List.compareLex Component.compare := by
  funext as bs
  induction as generalizing bs with
  | nil => cases bs <;> rfl
  | cons a as ih =>
    cases bs with
    | nil => rfl
    | cons b bs => rw [compareComponents, ih, List.compareLex_cons_cons]

instance : Std.TransCmp compareComponents := by
  rw [compareComponents_eq]
  infer_instance

instance : Std.LawfulEqCmp compareComponents := by
  rw [compareComponents_eq]
  infer_instance

end Path

namespace Tree

mutual

/-- Whether all entries of a tree have names that an entry can have. -/
def isProper : Tree → Bool
  | file _ => true
  | folder entries => areProper entries

/-- Whether some entries and all below them have names that an entry can have. -/
def areProper : List (Text × Tree) → Bool
  | [] => true
  | (name, t) :: entries => Path.isName name && t.isProper && areProper entries

end

mutual

/-- The same tree, with the entries of its folders listed in another order. -/
inductive Relisted : Tree → Tree → Prop where
  | file (contents : Except FileError Text) : Relisted (file contents) (file contents)
  | folder {es es' : List (Text × Tree)} :
    EntriesRelisted es es' → Relisted (folder es) (folder es')

/-- The same entries in another order, down to the last folder. -/
inductive EntriesRelisted : List (Text × Tree) → List (Text × Tree) → Prop where
  | nil : EntriesRelisted [] []
  | cons (name : Text) {t t' : Tree} {es es' : List (Text × Tree)} :
    Relisted t t' → EntriesRelisted es es' →
      EntriesRelisted ((name, t) :: es) ((name, t') :: es')
  | swap (e f : Text × Tree) (es : List (Text × Tree)) :
    EntriesRelisted (e :: f :: es) (f :: e :: es)
  | trans {es es' es'' : List (Text × Tree)} :
    EntriesRelisted es es' → EntriesRelisted es' es'' → EntriesRelisted es es''

end

/-! ## The files of a tree -/

mutual

/-- The files of an entry lie at its path or below it. -/
theorem components_of_mem_files {t : Tree} (ht : t.isProper = true) {path q : Text}
    (hq : q ∈ (t.files path).map (·.1)) :
    ∃ rest, Path.components q = Path.components path ++ rest := by
  match t with
  | .file contents =>
    rw [files, List.map_singleton, List.mem_singleton] at hq
    exact ⟨[], by rw [hq, List.append_nil]⟩
  | .folder entries => exact components_of_mem_filesIn ht hq

/-- The files of a folder lie below it. -/
theorem components_of_mem_filesIn {entries : List (Text × Tree)}
    (hentries : areProper entries = true) {folder q : Text}
    (hq : q ∈ (filesIn folder entries).map (·.1)) :
    ∃ rest, Path.components q = Path.components folder ++ rest := by
  match entries with
  | [] => simp [filesIn] at hq
  | (name, t) :: entries =>
    simp only [areProper, Bool.and_eq_true] at hentries
    obtain ⟨⟨hname, ht⟩, hentries⟩ := hentries
    rw [filesIn, List.map_append, List.mem_append] at hq
    rcases hq with hq | hq
    · obtain ⟨rest, hrest⟩ := components_of_mem_files ht hq
      exact ⟨.name name :: rest, by simp [hrest, Path.components_join_name folder hname]⟩
    · exact components_of_mem_filesIn hentries hq

end

/-! ## What paths lead to -/

mutual

theorem isProper_seenFrom {t : Tree} (h : t.isProper = true) (path : Text) :
    (t.seenFrom path).isProper = true := by
  match t with
  | .file _ => rfl
  | .folder entries =>
    rw [seenFrom]
    split_ifs
    · rfl
    · exact areProper_entriesSeenFrom h path

theorem areProper_entriesSeenFrom {entries : List (Text × Tree)}
    (h : areProper entries = true) (path : Text) :
    areProper (entriesSeenFrom path entries) = true := by
  match entries with
  | [] => rfl
  | (name, t) :: entries =>
    simp only [areProper, Bool.and_eq_true] at h
    simp only [entriesSeenFrom, areProper, Bool.and_eq_true]
    exact ⟨⟨h.1.1, isProper_seenFrom h.1.2 _⟩, areProper_entriesSeenFrom h.2 path⟩

end

theorem isProper_of_named {name : Text} {entries : List (Text × Tree)} {t : Tree}
    (hentries : areProper entries = true) (h : entry? name entries = some t) :
    t.isProper = true := by
  induction entries with
  | nil => simp [ entry?] at h
  | cons e entries ih =>
    simp only [areProper, Bool.and_eq_true] at hentries
    by_cases he : (e.1 == name) = true
    · simp only [ entry?, List.find?_cons, he, Option.map_some, Option.some.injEq] at h
      exact h ▸ hentries.1.2
    · refine ih hentries.2 ?_
      simpa only [ entry?, List.find?_cons, he] using h

/-- What the parts of a path lead to is proper when everything around it is. -/
theorem isProper_of_find {above : List Tree} {here : Tree} {parts : List Text} {t : Tree}
    (habove : ∀ u ∈ above, u.isProper = true) (hhere : here.isProper = true)
    (h : find above here parts = .ok t) : t.isProper = true := by
  fun_induction find above here parts with
  | case1 => exact Except.ok.inj h ▸ hhere
  | case2 | case6 | case7 => exact absurd h (by simp)
  | case3 _ _ _ _ _ ih => exact ih habove hhere h
  | case4 _ _ _ _ _ ih => exact ih habove hhere h
  | case5 _ _ _ _ _ u above ih =>
    -- one folder up
    obtain ⟨hu, habove⟩ := List.forall_mem_cons.1 habove
    exact ih habove hu h
  | case8 _ _ _ _ _ _ _ u hu ih =>
    exact ih (List.forall_mem_cons.2 ⟨hhere, habove⟩) (isProper_of_named hhere hu) h

end Tree

/-- On a disk with proper names, proper trees stand everywhere. -/
theorem Disk.isProper_find {d : Disk} (h : d.root.isProper = true) {p : Text} {t : Tree}
    (ht : d.find p = .ok t) : t.isProper = true := by
  unfold Disk.find at ht
  split_ifs at ht
  cases hfind : Tree.find [] d.root (splitOn '/' (Path.join d.home p)) with
  | error e => simp [hfind, Except.map] at ht
  | ok u =>
    rw [hfind] at ht
    cases ht
    exact Tree.isProper_seenFrom (Tree.isProper_of_find (by simp) h hfind) p

end CanonicalVhdl
