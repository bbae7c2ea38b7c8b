import CanonicalVhdl.Text.Basic

/-!
# Paths

A path is a text; what it means is the list of its components.  Repeated slashes
and single dots inside a path count for nothing, but a leading dot is a component.

## Main definitions

* `Path.components` — the components of a path.
* `Path.join`, `Path.parent?`, `Path.extension?` — the usual operations.
* `Path.below?` — the components after those of another path.
* `Path.compareComponents` — the order of paths.
-/

namespace CanonicalVhdl

open Text

/-- A component of a path. -/
inductive Component where
  /-- The root of the file system. -/
  | root
  /-- The current folder. -/
  | current
  /-- The folder above. -/
  | parent
  /-- A name. -/
  | name (t : Text)
deriving DecidableEq

namespace Component

/-- The place of a component's kind in the order of components. -/
def rank : Component → Nat
  | root => 0
  | current => 1
  | parent => 2
  | name _ => 3

/-- The order of components: by kind, then by the characters of the name. -/
def compare : Component → Component → Ordering
  | name a, name b => Ord.compare (a.map Char.toNat) (b.map Char.toNat)
  | a, b => Ord.compare a.rank b.rank

end Component

namespace Path

/-- The longest path that can be looked up, in bytes. -/
def maxBytes : Nat := 4095

/-- Whether a path is too long to be looked up. -/
def isTooLong (p : Text) : Bool := !fits maxBytes p

/-- Whether a path starts at the root. -/
def isAbsolute (p : Text) : Bool := p.head? == some '/'

/-- The component that a part between slashes stands for inside a path. -/
def inner? (part : Text) : Option Component :=
  if part.isEmpty || part == ['.'] then none
  else if part == ['.', '.'] then some .parent
  else some (.name part)

/-- The components of a path. -/
def components (p : Text) : List Component :=
  let parts := splitOn '/' p
  let inside := parts.filterMap inner?
  if isAbsolute p then .root :: inside
  else if parts.head? == some ['.'] then .current :: inside
  else inside

/-- The order of lists of components. -/
def compareComponents : List Component → List Component → Ordering
  | [], [] => .eq
  | [], _ :: _ => .lt
  | _ :: _, [] => .gt
  | a :: as, b :: bs => (a.compare b).then (compareComponents as bs)

/-- Whether a path comes before another or means the same. -/
def le (p q : Text) : Bool :=
  compareComponents (components p) (components q) != .gt

/-- Whether two paths have the same components. -/
def same (p q : Text) : Bool := components p == components q

/-- A path seen from another one; an absolute path stays as it is. -/
def join (p q : Text) : Text :=
  if isAbsolute q || p.isEmpty then q
  else if p.getLast? == some '/' then p ++ q
  else p ++ '/' :: q

/-- The components after those at the start, if they are all there. -/
def dropComponents? : List Component → List Component → Option (List Component)
  | [], cs => some cs
  | _ :: _, [] => none
  | b :: bs, c :: cs => if b == c then dropComponents? bs cs else none

/-- The components of a path below another one. -/
def below? (base p : Text) : Option (List Component) :=
  dropComponents? (components base) (components p)

/-- The part of a file name after its last dot.  A dot at the start of a name does
not count. -/
def nameExtension? (name : Text) : Option Text :=
  let rest := name.reverse.dropWhile (· != '.')
  if rest.length ≤ 1 then none else some (name.reverse.takeWhile (· != '.')).reverse

/-- The part after the last dot of the last component, if that is a name. -/
def extension? (cs : List Component) : Option Text :=
  match cs.getLast? with
  | some (.name n) => nameExtension? n
  | _ => none

/-! ## The folder that holds a path -/

/-- The number of characters before the body of a path: its root, or a leading dot. -/
def headLength (p : Text) : Nat :=
  if isAbsolute p || (splitOn '/' p).head? == some ['.'] then 1 else 0

/-- A reversed body without the parts at its end that count for nothing. -/
def dropEmptyParts : Text → Text
  | '/' :: rest => dropEmptyParts rest
  | '.' :: '/' :: rest => dropEmptyParts ('/' :: rest)
  | ['.'] => []
  | rest => rest

/-- The path without its last component; the root and the empty path have none. -/
def parent? (p : Text) : Option Text :=
  let head := p.take (headLength p)
  let body := dropEmptyParts (p.drop (headLength p)).reverse
  if !body.isEmpty then
    some (head ++ (dropEmptyParts (body.dropWhile (· != '/'))).reverse)
  else if head == ['.'] then some []
  else none

end Path
end CanonicalVhdl
