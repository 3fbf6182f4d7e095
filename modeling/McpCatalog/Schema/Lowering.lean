import McpCatalog.Schema.Scalar
import McpCatalog.Schema.Shape
/-!
# The schema of a shape

Every shape stands for a JSON Schema. The fields of a message that belong to no
group of alternatives are properties. For each group there is one entry of `anyOf`,
whose `oneOf` has an alternative for each field of the group.

Results:
* `schema_message`: the schema of a message from the schemas of its members.
-/
namespace McpCatalog

namespace Schema

/-- What stands beside the alternatives of a group.
mirrors core/schema:49-50 -/
def groupComment : String :=
  "One oneOf group per protobuf oneof block in the message; each alternative sets one field."

/-- What stands at the place of a message that is being unfolded already.
mirrors core/schema:176 -/
def backComment (typeName : String) : String :=
  "recursive reference to " ++ typeName

/-- The schema of the objects that have the given field.
mirrors core/schema:198-205 -/
def alternative (name : String) (schema : Json) : Json :=
  .object [("properties", .object [(name, schema)]), ("required", .strings [name])]

/-- The members without a group. -/
def free {α : Type} (members : List (Head × α)) : List (Head × α) :=
  members.filter fun m => m.1.oneof.isNone

/-- The names of the groups in the order of their first members. -/
def groups {α : Type} (members : List (Head × α)) : List String :=
  (members.filterMap fun m => m.1.oneof).eraseDups

/-- The members of a group. -/
def group {α : Type} (name : String) (members : List (Head × α)) : List (Head × α) :=
  members.filter fun m => m.1.oneof == some name

/-- The entry of `anyOf` for a group. -/
def groupEntry (members : List (Head × Json)) (name : String) : Json :=
  .object [("$comment", .str groupComment),
    ("oneOf", .arr ((group name members).map fun m => alternative m.1.name m.2))]

/-- The schema of a message from the schemas of its members.
mirrors core/schema:94-128 -/
def ofMembers (members : List (Head × Json)) : Json :=
  .object ([("type", .str "object"),
    ("properties", .object ((free members).map fun m => (m.1.name, m.2))),
    ("required", .strings (((free members).filter fun m => m.1.required).map fun m => m.1.name))]
    ++ if (groups members).isEmpty then []
      else [("anyOf", .arr ((groups members).map (groupEntry members)))])

/-- mirrors core/schema:183-194 -/
def ofEnum : Option (List String) → Json
  | some names => .object [("type", .str "string"), ("enum", .strings names)]
  | none => .object [("type", .str "string")]

/-- mirrors core/schema:141-144 -/
def ofList (item : Json) : Json :=
  .object [("type", .str "array"), ("items", item)]

end Schema

namespace Shape

mutual

/-- The schema that the shape stands for. -/
def schema : Shape → Json
  | .scalar kind => Schema.ofScalar kind
  | .enum names => Schema.ofEnum names
  | .wellKnown w => w.schema
  | .back t => .object [("$comment", .str (Schema.backComment t))]
  | .unresolved => .object []
  | .message _ members => Schema.ofMembers (memberSchemas members)
  | .list item => Schema.ofList item.schema
  | .map key value => Schema.ofMap key value.schema

def memberSchemas : List (Head × Shape) → List (Head × Json)
  | [] => []
  | (h, s) :: rest => (h, s.schema) :: memberSchemas rest

end

theorem memberSchemas_eq_map (members : List (Head × Shape)) :
    memberSchemas members = members.map fun m => (m.1, m.2.schema) := by
  induction members with
  | nil => rfl
  | cons m rest ih => simp [memberSchemas, ih]

theorem schema_message (fullName : String) (members : List (Head × Shape)) :
    (Shape.message fullName members).schema
      = Schema.ofMembers (members.map fun m => (m.1, m.2.schema)) := by
  rw [schema, memberSchemas_eq_map]

end Shape
end McpCatalog
