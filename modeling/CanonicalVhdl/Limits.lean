import CanonicalVhdl.Text.Blank

/-!
# Ceilings

Every reader refuses a text that is too long before it looks at it, and every
nested construct uses up one level of a fixed depth.  A reader is therefore given
the number of levels left, its *room*.

## Main definitions

* `Limits.literalBytes`, `Limits.expressionBytes`, `Limits.statementBytes`,
  `Limits.blockBytes` — the longest text of each kind.
* `Limits.depth` — the number of levels; `Limits.Held` counts those in use.
-/

namespace CanonicalVhdl.Limits

/-- The longest literal, in bytes. -/
def literalBytes : Nat := 4096

/-- The longest expression, in bytes. -/
def expressionBytes : Nat := 4096

/-- The longest simple statement, in bytes. -/
def statementBytes : Nat := 4096

/-- The longest region or design unit, in bytes. -/
def blockBytes : Nat := 1048576

/-- The number of nested levels a reader may use. -/
def depth : Nat := 128

/-- A number of levels in use, at most `depth`. -/
structure Held where
  /-- How many levels are in use. -/
  levels : Nat
  /-- No more levels are in use than there are. -/
  levels_le : levels ≤ depth

namespace Held

/-- No level in use. -/
def none : Held := ⟨0, Nat.zero_le _⟩

/-- The number of levels left. -/
def room (h : Held) : Nat := depth - h.levels

/-- Takes `n` more levels, or as many as are left. -/
def enter (n : Nat) (h : Held) : Held :=
  ⟨min (h.levels + n) depth, Nat.min_le_right _ _⟩

/-- Gives back `n` levels, or as many as are in use. -/
def leave (n : Nat) (h : Held) : Held :=
  ⟨h.levels - n, Nat.le_trans (Nat.sub_le _ _) h.levels_le⟩

end Held
end CanonicalVhdl.Limits
