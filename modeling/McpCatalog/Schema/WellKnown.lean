import McpCatalog.Json.Value
/-!
# Well-known types

The messages of `google.protobuf` whose JSON form is special, each with the schema
of that form. Their own fields are never looked at.

Results:
* `ofName?_name`: a well-known type is found under its name.
-/
namespace McpCatalog

/-- A message type with a JSON form of its own. -/
inductive WellKnown where
  | timestamp
  | duration
  | struct
  | value
  | listValue
  | fieldMask
  | any
  | doubleValue
  | floatValue
  | int32Value
  | uint32Value
  | int64Value
  | uint64Value
  | stringValue
  | boolValue
  | bytesValue
  deriving DecidableEq

namespace WellKnown

def all : List WellKnown :=
  [timestamp, duration, struct, value, listValue, fieldMask, any, doubleValue, floatValue,
   int32Value, uint32Value, int64Value, uint64Value, stringValue, boolValue, bytesValue]

/-- The full name of the message. -/
def name : WellKnown → String
  | timestamp => "google.protobuf.Timestamp"
  | duration => "google.protobuf.Duration"
  | struct => "google.protobuf.Struct"
  | value => "google.protobuf.Value"
  | listValue => "google.protobuf.ListValue"
  | fieldMask => "google.protobuf.FieldMask"
  | any => "google.protobuf.Any"
  | doubleValue => "google.protobuf.DoubleValue"
  | floatValue => "google.protobuf.FloatValue"
  | int32Value => "google.protobuf.Int32Value"
  | uint32Value => "google.protobuf.UInt32Value"
  | int64Value => "google.protobuf.Int64Value"
  | uint64Value => "google.protobuf.UInt64Value"
  | stringValue => "google.protobuf.StringValue"
  | boolValue => "google.protobuf.BoolValue"
  | bytesValue => "google.protobuf.BytesValue"

def ofName? (name : String) : Option WellKnown :=
  all.find? fun w => w.name == name

/-- Seconds with an optional fraction and the letter `s`. -/
def durationPattern : String := "^-?[0-9]+(\\.[0-9]+)?s$"

/-- A value of the given type or nothing. -/
def nullable (type : String) : Json :=
  .object [("type", .str type), ("nullable", .bool true)]

/-- The schema of the JSON form.
mirrors core/well_known:20-77 -/
def schema : WellKnown → Json
  | timestamp => .object [("type", .str "string"), ("format", .str "date-time")]
  | duration => .object [("type", .str "string"), ("pattern", .str durationPattern)]
  | struct => .object [("type", .str "object"), ("additionalProperties", .bool true)]
  | value => .object []
  | listValue => .object [("type", .str "array"), ("items", .object [])]
  | fieldMask => .object [("type", .str "string")]
  | any => .object [("type", .str "object"),
      ("properties", .object [("@type", .object [("type", .str "string")]), ("value", .object [])]),
      ("required", .strings ["@type"])]
  | doubleValue | floatValue | int32Value | uint32Value => nullable "number"
  | int64Value | uint64Value | stringValue => nullable "string"
  | boolValue => nullable "boolean"
  | bytesValue =>
    .object [("type", .str "string"), ("format", .str "byte"), ("nullable", .bool true)]

theorem ofName?_name (w : WellKnown) : ofName? w.name = some w := by
  cases w <;> decide

end WellKnown
end McpCatalog
