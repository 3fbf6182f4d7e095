/-!
# Tables of TOML documents

A table holds values under keys, each key once. What may still be added to a table
depends on how it came about: an inline table is complete, one that dotted keys made
takes more dotted keys, and one that a header only passes through can still get its
own header.

Results:
* `assign_eq_none_of_mem`: a key that has a value gets no second one.
-/
namespace McpCatalog.Toml

/-- How a table came about. -/
inductive Origin where
  | inline
  | dotted
  /-- A header of a table inside it was met. -/
  | implicit
  /-- Its own header was met. -/
  | header
  deriving DecidableEq

/-- A value of a document. Of lists only the empty one is kept apart. -/
inductive Value where
  | text (s : String)
  | number (n : Int)
  | emptyList
  | table (origin : Origin) (entries : List (String × Value))
  deriving Inhabited

/-- The entries of a table, in the order of their keys' first appearance. -/
abbrev Table := List (String × Value)

namespace Table

/-- Gives another value to a key. -/
def replace (key : String) (v : Value) (t : Table) : Table :=
  t.map fun e => if e.1 == key then (key, v) else e

/-- Gives a value to a key, which may lead through tables that dotted keys made. -/
def assign : (path : List String) → Value → Table → Option Table
  | [], _, _ => none
  | [key], v, t => if (t.lookup key).isSome then none else some (t ++ [(key, v)])
  | key :: path, v, t =>
    match t.lookup key with
    | none => (assign path v []).map fun inner => t ++ [(key, .table .dotted inner)]
    | some (.table .dotted inner) =>
      (assign path v inner).map fun inner => t.replace key (.table .dotted inner)
    | some _ => none

/-- Opens the table of a header. -/
def openHeader : (path : List String) → Table → Option Table
  | [], _ => none
  | [key], t =>
    match t.lookup key with
    | none => some (t ++ [(key, .table .header [])])
    | some (.table .implicit inner) => some (t.replace key (.table .header inner))
    | some _ => none
  | key :: path, t =>
    match t.lookup key with
    | none => (openHeader path []).map fun inner => t ++ [(key, .table .implicit inner)]
    | some (.table origin inner) =>
      if origin = .inline then none
      else (openHeader path inner).map fun inner => t.replace key (.table origin inner)
    | some _ => none

/-- Changes the table that the header's path leads to. -/
def within (change : Table → Option Table) : (path : List String) → Table → Option Table
  | [], t => change t
  | key :: path, t =>
    match t.lookup key with
    | some (.table origin inner) =>
      (within change path inner).map fun inner => t.replace key (.table origin inner)
    | _ => none

theorem assign_eq_none_of_mem {key : String} {v : Value} {t : Table}
    (h : (t.lookup key).isSome = true) : assign [key] v t = none := by
  simp [assign, h]

end Table
end McpCatalog.Toml
