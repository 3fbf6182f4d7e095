import McpCatalog.Request.Basic
import McpCatalog.Wire.Field
/-!
# Requests from bytes

Readers for the messages that a request is made of. Fields that are not listed here
are passed over. Messages can be nested as deep as the budget allows.
-/
namespace McpCatalog

/-- How deep the messages of a request can be nested. -/
def Request.maxNesting : Nat := 100

namespace NamedDecl

def numbers : List Nat := [1]

def decode? (budget : Nat) (bytes : Bytes) : Option NamedDecl := do
  let rs ← Record.readAll? budget numbers bytes
  return { name := ← Record.text? 1 rs }

end NamedDecl

namespace FieldOptions

/-- Behaviors are an extension, hence the large number. -/
def numbers : List Nat := [1052]

def ofRecords? (rs : List Record) : Option FieldOptions := do
  return { behaviors := ← Record.int32s? 1052 rs }

end FieldOptions

namespace FieldDecl

def numbers : List Nat := [1, 3, 4, 5, 6, 8, 9, 17]

def decode? (budget : Nat) (bytes : Bytes) : Option FieldDecl := do
  let rs ← Record.readAll? budget numbers bytes
  return {
    name := ← Record.text? 1 rs
    number := ← Record.int32? 3 rs
    label := ← Record.int32? 4 rs
    type := ← Record.int32? 5 rs
    typeName := ← Record.text? 6 rs
    options := ← Record.message? 8 budget FieldOptions.numbers FieldOptions.ofRecords? rs
    oneofIndex := ← Record.int32? 9 rs
    proto3Optional := ← Record.bool? 17 rs }

end FieldDecl

namespace EnumDecl

def numbers : List Nat := [1, 2]

def decode? (budget : Nat) (bytes : Bytes) : Option EnumDecl := do
  let rs ← Record.readAll? budget numbers bytes
  return {
    name := ← Record.text? 1 rs
    values := ← Record.messages? 2 (Record.inside budget NamedDecl.decode?) rs }

end EnumDecl

namespace MessageOptions

def numbers : List Nat := [7]

def ofRecords? (rs : List Record) : Option MessageOptions := do
  return { mapEntry := ← Record.bool? 7 rs }

end MessageOptions

namespace MessageDecl

def numbers : List Nat := [1, 2, 3, 4, 7, 8]

/-- The message that some records make up, where `nested?` reads the messages in it. -/
def ofRecords? (budget : Nat) (nested? : Bytes → Option MessageDecl) (rs : List Record) :
    Option MessageDecl := do
  return {
    name := ← Record.text? 1 rs
    fields := ← Record.messages? 2 (Record.inside budget FieldDecl.decode?) rs
    nested := ← Record.messages? 3 nested? rs
    enums := ← Record.messages? 4 (Record.inside budget EnumDecl.decode?) rs
    options := ← Record.message? 7 budget MessageOptions.numbers MessageOptions.ofRecords? rs
    oneofs := ← Record.messages? 8 (Record.inside budget NamedDecl.decode?) rs }

def decode? : (budget : Nat) → Bytes → Option MessageDecl
  | 0, bytes => do ofRecords? 0 (fun _ => none) (← Record.readAll? 0 numbers bytes)
  | budget + 1, bytes => do
    ofRecords? (budget + 1) (decode? budget) (← Record.readAll? (budget + 1) numbers bytes)

theorem decode?_eq (budget : Nat) (bytes : Bytes) :
    decode? budget bytes =
      (Record.readAll? budget numbers bytes).bind
        (ofRecords? budget (Record.inside budget decode?)) := by
  cases budget <;> rfl

end MessageDecl

namespace MethodDecl

def numbers : List Nat := [1, 2, 3, 5, 6]

def decode? (budget : Nat) (bytes : Bytes) : Option MethodDecl := do
  let rs ← Record.readAll? budget numbers bytes
  return {
    name := ← Record.text? 1 rs
    inputType := ← Record.text? 2 rs
    outputType := ← Record.text? 3 rs
    clientStreaming := ← Record.bool? 5 rs
    serverStreaming := ← Record.bool? 6 rs }

end MethodDecl

namespace ServiceDecl

def numbers : List Nat := [1, 2]

def decode? (budget : Nat) (bytes : Bytes) : Option ServiceDecl := do
  let rs ← Record.readAll? budget numbers bytes
  return {
    name := ← Record.text? 1 rs
    methods := ← Record.messages? 2 (Record.inside budget MethodDecl.decode?) rs }

end ServiceDecl

namespace Location

def numbers : List Nat := [1, 3]

def decode? (budget : Nat) (bytes : Bytes) : Option Location := do
  let rs ← Record.readAll? budget numbers bytes
  return { path := ← Record.int32s? 1 rs, leadingComments := ← Record.text? 3 rs }

end Location

namespace SourceInfo

def numbers : List Nat := [1]

def ofRecords? (budget : Nat) (rs : List Record) : Option SourceInfo := do
  return { locations := ← Record.messages? 1 (Record.inside budget Location.decode?) rs }

end SourceInfo

namespace FileDecl

def numbers : List Nat := [1, 2, 4, 5, 6, 9]

def decode? (budget : Nat) (bytes : Bytes) : Option FileDecl := do
  let rs ← Record.readAll? budget numbers bytes
  return {
    name := ← Record.text? 1 rs
    package := ← Record.text? 2 rs
    messages := ← Record.messages? 4 (Record.inside budget MessageDecl.decode?) rs
    enums := ← Record.messages? 5 (Record.inside budget EnumDecl.decode?) rs
    services := ← Record.messages? 6 (Record.inside budget ServiceDecl.decode?) rs
    sourceInfo :=
      ← Record.message? 9 budget SourceInfo.numbers (SourceInfo.ofRecords? (budget - 1)) rs }

end FileDecl

namespace Request

def numbers : List Nat := [1, 2, 15]

/-- The request that the bytes encode. -/
def decode? (bytes : Bytes) : Option Request := do
  let rs ← Record.readAll? maxNesting numbers bytes
  return {
    filesToGenerate := ← Record.texts? 1 rs
    parameter := ← Record.text? 2 rs
    files := ← Record.messages? 15 (Record.inside maxNesting FileDecl.decode?) rs }

end Request
end McpCatalog
