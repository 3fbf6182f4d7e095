import McpCatalog.Request.Basic
import McpCatalog.Wire.Field
/-!
# Requests to bytes

Writers for the messages that a request is made of, fields in the order of their
numbers. What is absent is not written; what is present is, whatever its value.
-/
namespace McpCatalog

open Wire

def NamedDecl.encode (d : NamedDecl) : Bytes :=
  optional (text 1) d.name

def FieldOptions.encode (o : FieldOptions) : Bytes :=
  int32s 1052 o.behaviors

def FieldDecl.encode (f : FieldDecl) : Bytes :=
  optional (text 1) f.name ++ optional (int32 3) f.number ++ optional (int32 4) f.label
    ++ optional (int32 5) f.type ++ optional (text 6) f.typeName
    ++ optional (fun o => chunk 8 (FieldOptions.encode o)) f.options
    ++ optional (int32 9) f.oneofIndex ++ optional (bool 17) f.proto3Optional

def EnumDecl.encode (e : EnumDecl) : Bytes :=
  optional (text 1) e.name ++ e.values.flatMap fun v => chunk 2 v.encode

def MessageOptions.encode (o : MessageOptions) : Bytes :=
  optional (bool 7) o.mapEntry

mutual

def MessageDecl.encode : MessageDecl → Bytes
  | ⟨name, fields, nested, enums, options, oneofs⟩ =>
    optional (text 1) name ++ (fields.flatMap fun f => chunk 2 f.encode)
      ++ MessageDecl.encodeNested nested ++ (enums.flatMap fun e => chunk 4 e.encode)
      ++ optional (fun o => chunk 7 (MessageOptions.encode o)) options
      ++ (oneofs.flatMap fun o => chunk 8 o.encode)

def MessageDecl.encodeNested : List MessageDecl → Bytes
  | [] => []
  | m :: rest => chunk 3 m.encode ++ MessageDecl.encodeNested rest

end

theorem MessageDecl.encodeNested_eq (ms : List MessageDecl) :
    encodeNested ms = ms.flatMap fun m => chunk 3 m.encode := by
  induction ms with
  | nil => rfl
  | cons m rest ih => rw [encodeNested, ih, List.flatMap_cons]

def MethodDecl.encode (m : MethodDecl) : Bytes :=
  optional (text 1) m.name ++ optional (text 2) m.inputType ++ optional (text 3) m.outputType
    ++ optional (bool 5) m.clientStreaming ++ optional (bool 6) m.serverStreaming

def ServiceDecl.encode (s : ServiceDecl) : Bytes :=
  optional (text 1) s.name ++ s.methods.flatMap fun m => chunk 2 m.encode

def Location.encode (l : Location) : Bytes :=
  int32s 1 l.path ++ optional (text 3) l.leadingComments

def SourceInfo.encode (i : SourceInfo) : Bytes :=
  i.locations.flatMap fun l => chunk 1 l.encode

def FileDecl.encode (f : FileDecl) : Bytes :=
  optional (text 1) f.name ++ optional (text 2) f.package
    ++ (f.messages.flatMap fun m => chunk 4 m.encode)
    ++ (f.enums.flatMap fun e => chunk 5 e.encode)
    ++ (f.services.flatMap fun s => chunk 6 s.encode)
    ++ optional (fun i => chunk 9 (SourceInfo.encode i)) f.sourceInfo

/-- The bytes of the request. -/
def Request.encode (r : Request) : Bytes :=
  r.filesToGenerate.flatMap (text 1) ++ optional (text 2) r.parameter
    ++ r.files.flatMap fun f => chunk 15 f.encode

end McpCatalog
