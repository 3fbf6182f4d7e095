/-!
# Kinds of fields

The declared type of a protobuf field, with the numbers that stand for the types in
a descriptor. A number without a type is kept, so that no field is lost.

Results:
* `number_ofNumber`: every number is the number of the kind that is read from it.
-/
namespace McpCatalog

/-- The declared type of a field.
mirrors core/descriptor:30-69 -/
inductive FieldKind where
  | double
  | float
  | int64
  | uint64
  | int32
  | fixed64
  | fixed32
  | bool
  | string
  | group
  | message
  | bytes
  | uint32
  | enum
  | sfixed32
  | sfixed64
  | sint32
  | sint64
  | unknown (number : Int)
  deriving DecidableEq, Inhabited

namespace FieldKind

/-- The kind with the given number in a descriptor.
mirrors core/descriptor:74-96 (`from_wire`) -/
def ofNumber (n : Int) : FieldKind :=
  match n with
  | 1 => .double
  | 2 => .float
  | 3 => .int64
  | 4 => .uint64
  | 5 => .int32
  | 6 => .fixed64
  | 7 => .fixed32
  | 8 => .bool
  | 9 => .string
  | 10 => .group
  | 11 => .message
  | 12 => .bytes
  | 13 => .uint32
  | 14 => .enum
  | 15 => .sfixed32
  | 16 => .sfixed64
  | 17 => .sint32
  | 18 => .sint64
  | n => .unknown n

def number : FieldKind → Int
  | double => 1
  | float => 2
  | int64 => 3
  | uint64 => 4
  | int32 => 5
  | fixed64 => 6
  | fixed32 => 7
  | bool => 8
  | string => 9
  | group => 10
  | message => 11
  | bytes => 12
  | uint32 => 13
  | enum => 14
  | sfixed32 => 15
  | sfixed64 => 16
  | sint32 => 17
  | sint64 => 18
  | unknown n => n

/-- A field of such a kind holds a message.
mirrors core/descriptor:100-102 -/
def isMessage : FieldKind → Bool
  | message | group => true
  | _ => false

/-- mirrors core/descriptor:106-116 -/
def isSigned : FieldKind → Bool
  | int32 | sint32 | sfixed32 | int64 | sint64 | sfixed64 => true
  | _ => false

/-- mirrors core/descriptor:120-122 -/
def isUnsigned : FieldKind → Bool
  | uint32 | fixed32 | uint64 | fixed64 => true
  | _ => false

theorem number_ofNumber (n : Int) : (ofNumber n).number = n := by
  unfold ofNumber
  split <;> rfl

end FieldKind
end McpCatalog
