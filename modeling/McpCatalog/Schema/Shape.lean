import McpCatalog.Proto.Pool
import McpCatalog.Schema.WellKnown
/-!
# Shapes of messages

A shape is what a message unfolds to: a tree whose leaves are scalars, enumerations
and well-known types, and whose inner nodes are messages, lists and maps. Messages
may refer to each other in circles, so a reference to a message that is being
unfolded already is cut and becomes a leaf. The path of a place in the tree holds
the names of the messages around it, innermost first; as a message is unfolded only
if it is in the pool and not on the path, the number of messages of the pool that
are not on the path bounds the depth.

Results:
* `reference_eq`: how a reference is resolved, one step at a time.
-/
namespace McpCatalog

/-- Which fields must be present.
mirrors core/descriptor:433-436 -/
abbrev Requirement := Field → Bool

/-- The fields whose full names are in the set. -/
def Requirement.ofNames (names : NameSet) : Requirement :=
  fun f => names.contains f.fullName

/-- What a member of an unfolded message keeps of its field. -/
structure Head where
  name : String
  required : Bool
  oneof : Option String
  deriving DecidableEq

/-- What a field or a message unfolds to. -/
inductive Shape where
  /-- A value of a kind that names no other type. -/
  | scalar (kind : FieldKind)
  /-- One of some names, or any string if the enumeration is not known. -/
  | enum (names : Option (List String))
  | wellKnown (type : WellKnown)
  /-- A message that is being unfolded already. -/
  | back (typeName : String)
  /-- A message that is not known. -/
  | unresolved
  | message (fullName : String) (members : List (Head × Shape))
  | list (item : Shape)
  | map (key : FieldKind) (value : Shape)
  deriving Inhabited

/-! ## Fields -/

namespace Field

/-- What the members of a message keep of the field. -/
def head (required : Requirement) (f : Field) : Head :=
  ⟨f.name, required f, f.declaredOneof⟩

/-- The shape of one value of the field, where references to messages are resolved by
`reference`.
mirrors core/schema:150-164 (`singular_schema`) -/
def itemShape (pool : Pool) (reference : String → Shape) (kind : FieldKind)
    (typeName : Option String) : Shape :=
  if kind.isMessage then
    match typeName with
    | some t => reference t
    | none => .unresolved
  else if kind = .enum then .enum ((typeName.bind pool.enum?).map (·.values))
  else .scalar kind

/-- The shape of the field, where references to messages are resolved by `reference`.
mirrors core/schema:132-147 (`field_schema`) -/
def shape (pool : Pool) (reference : String → Shape) : Field → Shape
  | ⟨_, _, _, .map key value, _, _⟩ => .map key (value.shape pool reference)
  | ⟨_, _, kind, .list, typeName, _⟩ => .list (itemShape pool reference kind typeName)
  | ⟨_, _, kind, .singular, typeName, _⟩ => itemShape pool reference kind typeName

end Field

/-! ## References -/

namespace Pool

/-- The shape of a reference to the message `t` from a place with the given path.
mirrors core/schema:167-180 (`message_reference`) -/
def reference (pool : Pool) (required : Requirement) (path : List String) (t : String) : Shape :=
  match WellKnown.ofName? t with
  | some w => .wellKnown w
  | none =>
    if _ht : t ∈ path then .back t
    else
      match _hm : pool.message? t with
      | none => .unresolved
      | some m => .message t (m.fields.map fun f =>
          (f.head required, f.shape pool fun t' => reference pool required (t :: path) t'))
termination_by pool.messages.unvisited path
decreasing_by exact Dict.unvisited_cons_lt _hm _ht

/-- The shape of a message whose place has the given path.
mirrors core/schema:87-129 (`message_schema`) -/
def messageShape (pool : Pool) (required : Requirement) (path : List String) (m : Message) :
    Shape :=
  .message m.fullName (m.fields.map fun f =>
    (f.head required, f.shape pool (pool.reference required (m.fullName :: path))))

theorem reference_eq (pool : Pool) (required : Requirement) (path : List String) (t : String) :
    pool.reference required path t =
      match WellKnown.ofName? t with
      | some w => .wellKnown w
      | none =>
        if t ∈ path then .back t
        else
          match pool.message? t with
          | none => .unresolved
          | some m => pool.messageShape required path m := by
  rw [reference]
  split
  · rfl
  · split
    · rfl
    · split
      · simp_all
      · next hm => simp [hm, messageShape, fullName_of_message? hm]

end Pool

/-! ## What was cut -/

namespace Shape

mutual

/-- The names at which the shape is cut, from left to right. -/
def cuts : Shape → List String
  | .back t => [t]
  | .message _ ms => cutsOfMembers ms
  | .list item => item.cuts
  | .map _ value => value.cuts
  | _ => []

def cutsOfMembers : List (Head × Shape) → List String
  | [] => []
  | (_, s) :: rest => s.cuts ++ cutsOfMembers rest

end

end Shape
end McpCatalog
