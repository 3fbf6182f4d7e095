/-!
# Paths

The components of a path that is written with slashes. Repeated slashes count as one,
and a dot stands for nothing except in front of a relative path.

Results:
* `components_nil`, `stem?_nil`: the empty path has no component and no stem.
-/
namespace McpCatalog.Path

/-- A part of a path. -/
inductive Component where
  | root
  | current
  | parent
  | normal (name : List Char)
  deriving DecidableEq

/-- The component as it is written. -/
def Component.text : Component → List Char
  | root => ['/']
  | current => ['.']
  | parent => ['.', '.']
  | normal name => name

/-- The names between the slashes. -/
def names (path : List Char) : List (List Char) :=
  (path.splitOn '/').filter fun name => !name.isEmpty

/-- The component that a name stands for behind another one. -/
def inner? (name : List Char) : Option Component :=
  if name = ['.'] then none
  else if name = ['.', '.'] then some .parent
  else some (.normal name)

/-- The component that a name stands for in front of a relative path. -/
def first (name : List Char) : Component :=
  (inner? name).getD .current

def components (path : List Char) : List Component :=
  if path.head? = some '/' then .root :: (names path).filterMap inner?
  else
    match names path with
    | [] => []
    | name :: rest => first name :: rest.filterMap inner?

/-- The name without its extension: all before the last dot, unless nothing is. -/
def withoutExtension (name : List Char) : List Char :=
  match name.reverse.dropWhile (· != '.') with
  | _ :: before => if before.isEmpty then name else before.reverse
  | [] => name

/-- The last component without its extension, if it is a name. -/
def stem? (path : List Char) : Option (List Char) :=
  match (components path).getLast? with
  | some (.normal name) => some (withoutExtension name)
  | _ => none

theorem components_nil : components [] = [] := by decide

theorem stem?_nil : stem? [] = none := by decide

end McpCatalog.Path
