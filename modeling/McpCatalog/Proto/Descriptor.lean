import McpCatalog.Proto.Kind
/-!
# Descriptors of messages and enumerations

Fields, messages and enumerations as the schemas see them. A field is built from its
name and its kind and then refined; the value of a map field is itself a field.
-/
namespace McpCatalog

/-- How often a field occurs; the value of a map is described by a `φ`.
mirrors core/descriptor:131-143 -/
inductive Cardinality (φ : Type) where
  | singular
  | list
  | map (key : FieldKind) (value : φ)

/-- The group of alternatives that a field belongs to. A group that was made up for
one optional field is synthetic.
mirrors core/descriptor:147-152 -/
structure Oneof where
  name : String
  synthetic : Bool
  deriving DecidableEq

/-- A field of a message.
mirrors core/descriptor:180-193 -/
structure Field where
  name : String
  fullName : String
  kind : FieldKind
  cardinality : Cardinality Field
  typeName : Option String
  oneof : Option Oneof

namespace Field

/-- A singular field, which is its own full name.
mirrors core/descriptor:198-208 -/
def ofKind (name : String) (kind : FieldKind) : Field :=
  ⟨name, name, kind, .singular, none, none⟩

def ofMessage (name typeName : String) : Field :=
  { ofKind name .message with typeName := some typeName }

def ofEnum (name typeName : String) : Field :=
  { ofKind name .enum with typeName := some typeName }

/-- mirrors core/descriptor:224-231 -/
def ofMap (name : String) (key : FieldKind) (value : Field) : Field :=
  { ofKind name .message with cardinality := .map key value }

def withFullName (f : Field) (fullName : String) : Field :=
  { f with fullName }

def withTypeName (f : Field) (typeName : String) : Field :=
  { f with typeName := some typeName }

def withOneof (f : Field) (oneof : Oneof) : Field :=
  { f with oneof := some oneof }

def repeated (f : Field) : Field :=
  { f with cardinality := .list }

/-- The name of the group that the field was declared in.
mirrors core/descriptor:263-265 -/
def declaredOneof (f : Field) : Option String :=
  match f.oneof with
  | some o => if o.synthetic then none else some o.name
  | none => none

end Field

/-- A message: its fields in the order in which they are declared.
mirrors core/descriptor:274-279 -/
structure Message where
  fullName : String
  fields : List Field

/-- An enumeration: the names of its values in the order in which they are declared.
mirrors core/descriptor:294-299 -/
structure EnumType where
  fullName : String
  values : List String
  deriving DecidableEq

end McpCatalog
