import CanonicalVhdl.Text.Basic

/-!
# TOML values

A document is a table.  Tables are filled from headers, from dotted keys and from
inline tables, and how a table came about decides what may still be added to it.

## Main definitions

* `Toml` — values; numbers and dates are kept as written.
* `TableOrigin` — how a table came about.
* `Toml.openTable`, `Toml.openItem`, `Toml.insert` — the effect of the lines of a document.
-/

namespace CanonicalVhdl

/-- How a table came about. -/
inductive TableOrigin where
  /-- By a header, or as the item of an array of tables. -/
  | header
  /-- As a part of the path of a header. -/
  | passage
  /-- As a part of a dotted key. -/
  | dotted
  /-- As an inline table, to which nothing can be added. -/
  | inline
deriving DecidableEq, Repr

/-- A value. -/
inductive Toml where
  /-- A string. -/
  | string (s : Text)
  /-- A truth value. -/
  | boolean (b : Bool)
  /-- A number, date or time as written. -/
  | plain (t : Text)
  /-- An array of values. -/
  | array (items : List Toml)
  /-- An array of tables, made by headers. -/
  | tables (items : List Toml)
  /-- A table. -/
  | table (origin : TableOrigin) (entries : List (Text × Toml))

namespace Toml

/-- A table without entries. -/
def emptyTable (origin : TableOrigin) : Toml := table origin []

/-- The entries with that of a key replaced by what `f` makes of it, or added. -/
def alter (key : Text) (f : Option Toml → Option Toml) :
    List (Text × Toml) → Option (List (Text × Toml))
  | [] => (f none).map fun value => [(key, value)]
  | (k, value) :: entries =>
    if k == key then (f (some value)).map fun value => (k, value) :: entries
    else (alter key f entries).map fun entries => (k, value) :: entries

/-- Applies a function to the last item of a list. -/
def modifyLast (f : Toml → Option Toml) : List Toml → Option (List Toml)
  | [] => none
  | [item] => (f item).map fun item => [item]
  | item :: items => (modifyLast f items).map fun items => item :: items

/-- Applies a function to the table at a path; tables that the path lacks are made.
A dotted key passes only through tables that it could have made itself. -/
def modifyAt (viaDots : Bool) (f : Toml → Option Toml) : List Text → Toml → Option Toml
  | [], t => f t
  | key :: path, table origin entries =>
    let made := if viaDots then TableOrigin.dotted else .passage
    let step : Option Toml → Option Toml
      | none => modifyAt viaDots f path (emptyTable made)
      | some (table o es) =>
        if o == .inline || (viaDots && o == .header) then none
        else modifyAt viaDots f path (table o es)
      | some (tables items) => (modifyLast (modifyAt viaDots f path) items).map tables
      | some _ => none
    (alter key step entries).map (table origin)
  | _ :: _, _ => none

/-- Adds an entry to a table; its key must be new.  A dotted key adds only to a
table made by dotted keys, any other key to any other table. -/
def addEntry (viaDots : Bool) (key : Text) (value : Toml) : Toml → Option Toml
  | table origin entries =>
    if (origin == .dotted) != viaDots || entries.any (·.1 == key) then none
    else some (table origin (entries ++ [(key, value)]))
  | _ => none

/-- Adds an entry under a key, which may be dotted. -/
def insert (key : List Text) (value : Toml) (t : Toml) : Option Toml := do
  let last ← key.getLast?
  let path := key.dropLast
  modifyAt true (addEntry (!path.isEmpty) last value) path t

/-- The effect of a table header: the table at a path is open for entries.  It must
be new, or made as a part of the path of an earlier header. -/
def openTable (path : List Text) (t : Toml) : Option Toml := do
  let last ← path.getLast?
  let opened : Option Toml → Option Toml
    | none => some (emptyTable .header)
    | some (table .passage entries) => some (table .header entries)
    | some _ => none
  let atParent : Toml → Option Toml
    | table origin entries => (alter last opened entries).map (table origin)
    | _ => none
  modifyAt false atParent path.dropLast t

/-- The effect of a header of an array of tables: the array gets one more table. -/
def openItem (path : List Text) (t : Toml) : Option Toml := do
  let last ← path.getLast?
  let opened : Option Toml → Option Toml
    | none => some (tables [emptyTable .header])
    | some (tables items) => some (tables (items ++ [emptyTable .header]))
    | some _ => none
  let atParent : Toml → Option Toml
    | table origin entries => (alter last opened entries).map (table origin)
    | _ => none
  modifyAt false atParent path.dropLast t

end Toml
end CanonicalVhdl
