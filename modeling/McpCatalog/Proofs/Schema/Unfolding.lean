import McpCatalog.Schema.Builder
/-!
# How fields and messages unfold

The shape of a field for each cardinality and each kind, and what the shape of a
message is made of: its schema and its cuts come from those of its fields.

Results:
* `Field.values_induction`: induction on how deep the values of a map are.
* `shape_map`, `shape_list`, `shape_singular`: the shape of a field.
* `itemShape_message`, `itemShape_enum`, `itemShape_scalar`: the shape of one value.
* `schema_messageShape`, `cuts_messageShape`: the schema and the cuts of a message.
-/
namespace McpCatalog

/-- The field with one value. -/
def Field.item (f : Field) : Field :=
  { f with cardinality := .singular }

/-- The values of a map are described by a field, one that is smaller. -/
theorem Field.sizeOf_value_lt {f : Field} {key : FieldKind} {value : Field}
    (hc : f.cardinality = .map key value) : sizeOf value < sizeOf f := by
  cases f
  obtain rfl := hc
  simp
  omega

/-- What holds of a map if it holds of the values, and holds of all other fields. -/
@[elab_as_elim]
theorem Field.values_induction {motive : Field → Prop}
    (map : ∀ f key value, f.cardinality = .map key value → motive value → motive f)
    (list : ∀ f, f.cardinality = .list → motive f)
    (singular : ∀ f, f.cardinality = .singular → motive f) (f : Field) : motive f := by
  induction hsize : sizeOf f using Nat.strongRecOn generalizing f with
  | ind n ih =>
    subst hsize
    cases hc : f.cardinality with
    | map key value => exact map f key value hc (ih _ (sizeOf_value_lt hc) value rfl)
    | list => exact list f hc
    | singular => exact singular f hc

section
variable {pool : Pool} {required : Requirement} {reference : String → Shape}

theorem shape_map {f : Field} {key : FieldKind} {value : Field}
    (hc : f.cardinality = .map key value) :
    f.shape pool reference = .map key (value.shape pool reference) := by
  cases f
  obtain rfl := hc
  rw [Field.shape]

theorem shape_list {f : Field} (hc : f.cardinality = .list) :
    f.shape pool reference = .list (f.item.shape pool reference) := by
  cases f
  obtain rfl := hc
  rw [Field.shape, Field.item, Field.shape]

theorem shape_singular {f : Field} (hc : f.cardinality = .singular) :
    f.shape pool reference = Field.itemShape pool reference f.kind f.typeName := by
  cases f
  obtain rfl := hc
  rw [Field.shape]

theorem itemShape_untyped {kind : FieldKind} (hm : kind.isMessage = true) :
    Field.itemShape pool reference kind none = .unresolved := by
  simp [Field.itemShape, hm]

theorem itemShape_message {kind : FieldKind} (hm : kind.isMessage = true) (t : String) :
    Field.itemShape pool reference kind (some t) = reference t := by
  simp [Field.itemShape, hm]

theorem itemShape_enum (typeName : Option String) :
    Field.itemShape pool reference .enum typeName
      = .enum ((typeName.bind pool.enum?).map (·.values)) := by
  simp [Field.itemShape, FieldKind.isMessage]

theorem itemShape_scalar {kind : FieldKind} (hm : kind.isMessage = false) (he : kind ≠ .enum)
    (typeName : Option String) :
    Field.itemShape pool reference kind typeName = .scalar kind := by
  simp [Field.itemShape, hm, he]

/-- The schema of a message from the schemas of its fields. -/
theorem schema_messageShape (path : List String) (m : Message) :
    (pool.messageShape required path m).schema
      = Schema.ofMembers (m.fields.map fun f => (f.head required,
          (f.shape pool (pool.reference required (m.fullName :: path))).schema)) := by
  rw [Pool.messageShape, Shape.schema_message, List.map_map]
  rfl

/-- The cuts of a message are those of its fields. -/
theorem cutsOfMembers_eq (members : List (Head × Shape)) :
    Shape.cutsOfMembers members = members.flatMap fun x => x.2.cuts := by
  induction members with
  | nil => rfl
  | cons x rest ih => rw [Shape.cutsOfMembers, ih, List.flatMap_cons]

theorem cuts_messageShape (path : List String) (m : Message) :
    (pool.messageShape required path m).cuts = m.fields.flatMap fun f =>
      (f.shape pool (pool.reference required (m.fullName :: path))).cuts := by
  rw [Pool.messageShape, Shape.cuts, cutsOfMembers_eq, List.flatMap_map]

end
end McpCatalog
