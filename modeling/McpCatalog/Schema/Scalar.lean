import McpCatalog.Json.Value
import McpCatalog.Proto.Kind
/-!
# Schemas of scalars and of map keys

The JSON type that stands for each kind of field in JSON Schema, and the constraint
on the names of the members of an object that stands for a map. Integers of 64 bits
are strings; map keys are always strings, which look like the key.
-/
namespace McpCatalog

/-- The types of JSON Schema that fields are given. -/
inductive JsonType where
  | boolean
  | integer
  | number
  | string
  deriving DecidableEq

def JsonType.name : JsonType → String
  | boolean => "boolean"
  | integer => "integer"
  | number => "number"
  | string => "string"

namespace FieldKind

/-- The type of the JSON values of a field.
mirrors core/type_map:28-49 (`kind_to_type`) -/
def jsonType : FieldKind → JsonType
  | bool => .boolean
  | int32 | sint32 | sfixed32 | uint32 | fixed32 => .integer
  | float | double => .number
  | _ => .string

end FieldKind

namespace Schema

/-- Decimal numerals without a sign and without leading zeros. -/
def unsignedKeyPattern : String := "^(0|[1-9]\\d*)$"

/-- Decimal numerals with or without a minus sign, without leading zeros. -/
def signedKeyPattern : String := "^-?(0|[1-9]\\d*)$"

/-- The schema of the names of the members that stand for the keys of a map.
mirrors core/map_key:27-37 -/
def keyConstraint (key : FieldKind) : Json :=
  if key = .bool then .object [("type", .str "string"), ("enum", .strings ["true", "false"])]
  else if key.isUnsigned then
    .object [("type", .str "string"), ("pattern", .str unsignedKeyPattern)]
  else if key.isSigned then
    .object [("type", .str "string"), ("pattern", .str signedKeyPattern)]
  else .object [("type", .str "string")]

/-- The schema of a map with the given kind of keys and schema of values.
mirrors core/map_key:41-47 (`map_schema`) -/
def ofMap (key : FieldKind) (value : Json) : Json :=
  .object [("type", .str "object"), ("propertyNames", keyConstraint key),
    ("additionalProperties", value)]

/-- The schema of a field of a kind that names no other type.
mirrors core/schema:157-163 -/
def ofScalar (kind : FieldKind) : Json :=
  .object (("type", .str kind.jsonType.name)
    :: if kind = .bytes then [("contentEncoding", .str "base64"), ("format", .str "byte")] else [])

end Schema
end McpCatalog
