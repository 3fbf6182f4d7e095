import McpCatalog.Dict
/-!
# JSON values

Values with whole numbers only, which is all that a schema holds. The members of an
object are kept in the order in which they are written; `Json.object` puts them in
the order of their names.

Results:
* `ordered_members`: `Json.object` orders the members strictly by name.
* `lookup_members`: of members with one name the last one counts.
-/
namespace McpCatalog

/-- A JSON value. -/
inductive Json where
  | null
  | bool (b : Bool)
  | int (n : Int)
  | str (s : String)
  | arr (items : List Json)
  | obj (members : List (String × Json))
  deriving Inhabited, BEq

namespace Json

/-- Members in the order of their names, each name once. -/
def members (ms : List (String × Json)) : List (String × Json) :=
  (Dict.ofList ms).entries

/-- The object with the given members. -/
def object (ms : List (String × Json)) : Json :=
  .obj (members ms)

/-- The object with the entries of a dictionary as members. -/
def ofDict (d : Dict Json) : Json :=
  .obj d.entries

def strings (ss : List String) : Json :=
  .arr (ss.map .str)

/-- The member of an object with the given name. -/
def get? : Json → String → Option Json
  | .obj ms, name => ms.lookup name
  | _, _ => none

mutual

/-- The members of every object at every depth are strictly ordered by name. -/
def Ordered : Json → Prop
  | .arr items => OrderedItems items
  | .obj ms => Entries.Ordered ms ∧ OrderedMembers ms
  | _ => True

def OrderedItems : List Json → Prop
  | [] => True
  | v :: rest => v.Ordered ∧ OrderedItems rest

def OrderedMembers : List (String × Json) → Prop
  | [] => True
  | (_, v) :: rest => v.Ordered ∧ OrderedMembers rest

end

theorem ordered_members (ms : List (String × Json)) : Entries.Ordered (members ms) :=
  (Dict.ofList ms).ordered

theorem lookup_members (ms : List (String × Json)) (name : String) (v : Json) :
    (members (ms ++ [(name, v)])).lookup name = some v := by
  simp only [members, Dict.ofList, List.foldl_append, List.foldl_cons, List.foldl_nil]
  exact Dict.get?_insert_self _ name v

end Json
end McpCatalog
