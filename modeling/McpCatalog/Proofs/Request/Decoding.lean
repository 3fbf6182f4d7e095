import McpCatalog.Proofs.Wire.Field
import McpCatalog.Request.Decoding
/-!
# Encodings of requests

A request has many encodings. Fields stand in any order, numbers and lengths are varints of
any form, lists of numbers are packed or not, and among the fields of every message there
can be others, which a request does not declare. A reader with a budget of nested messages
takes an encoding for the request that it encodes, if the other fields that are no groups
have a level to spare.

Results:
* `MessageDecl.decode?_of_encodes`: messages in messages, by induction on the budget.
* `Request.decode?_of_encodes`: every encoding of a request is read as the request.
-/
namespace McpCatalog

open Payload Record

/-! ## Declarations -/

namespace NamedDecl

/-- The records hold the declaration. -/
def HeldBy (d : NamedDecl) (rs : List Record) : Prop :=
  Hold 1 HoldsText d.name.toList rs

def Encodes (spare : Nat) : Nat → NamedDecl → Bytes → Prop :=
  EncodesBy spare numbers fun _ => HeldBy

theorem decode?_of_encodes {budget : Nat} {d : NamedDecl} {bytes : Bytes}
    (h : Encodes 1 budget d bytes) : decode? budget bytes = some d :=
  readAll?_bind_of_encodes h fun rs hrs => by
    rw [text?_of_hold hrs]
    rfl

end NamedDecl

namespace FieldOptions

def HeldBy (o : FieldOptions) (rs : List Record) : Prop :=
  HoldInt32s 1052 o.behaviors rs

def Encodes (spare : Nat) : Nat → FieldOptions → Bytes → Prop :=
  EncodesBy spare numbers fun _ => HeldBy

theorem ofRecords?_of_heldBy {o : FieldOptions} {rs : List Record} (h : o.HeldBy rs) :
    ofRecords? rs = some o := by
  rw [ofRecords?, int32s?_of_hold h]
  rfl

end FieldOptions

namespace FieldDecl

structure HeldBy (spare budget : Nat) (f : FieldDecl) (rs : List Record) : Prop where
  name : Hold 1 HoldsText f.name.toList rs
  number : Hold 3 HoldsInt32 f.number.toList rs
  label : Hold 4 HoldsInt32 f.label.toList rs
  type : Hold 5 HoldsInt32 f.type.toList rs
  typeName : Hold 6 HoldsText f.typeName.toList rs
  options : Hold 8 (HoldsChunk (Inside (FieldOptions.Encodes spare) budget)) f.options.toList rs
  oneofIndex : Hold 9 HoldsInt32 f.oneofIndex.toList rs
  proto3Optional : Hold 17 HoldsBool f.proto3Optional.toList rs

def Encodes (spare : Nat) : Nat → FieldDecl → Bytes → Prop :=
  EncodesBy spare numbers (HeldBy spare)

theorem decode?_of_encodes {budget : Nat} {f : FieldDecl} {bytes : Bytes}
    (h : Encodes 1 budget f bytes) : decode? budget bytes = some f :=
  readAll?_bind_of_encodes h fun rs hrs => by
    rw [text?_of_hold hrs.name, int32?_of_hold hrs.number, int32?_of_hold hrs.label,
      int32?_of_hold hrs.type, text?_of_hold hrs.typeName,
      message?_of_hold hrs.options fun _ _ => FieldOptions.ofRecords?_of_heldBy,
      int32?_of_hold hrs.oneofIndex, bool?_of_hold hrs.proto3Optional]
    rfl

end FieldDecl

namespace EnumDecl

structure HeldBy (spare budget : Nat) (e : EnumDecl) (rs : List Record) : Prop where
  name : Hold 1 HoldsText e.name.toList rs
  values : Hold 2 (HoldsChunk (Inside (NamedDecl.Encodes spare) budget)) e.values rs

def Encodes (spare : Nat) : Nat → EnumDecl → Bytes → Prop :=
  EncodesBy spare numbers (HeldBy spare)

theorem decode?_of_encodes {budget : Nat} {e : EnumDecl} {bytes : Bytes}
    (h : Encodes 1 budget e bytes) : decode? budget bytes = some e :=
  readAll?_bind_of_encodes h fun rs hrs => by
    rw [text?_of_hold hrs.name, messages?_of_hold hrs.values fun _ _ h =>
      inside_of_encodes h fun _ => NamedDecl.decode?_of_encodes]
    rfl

end EnumDecl

namespace MessageOptions

def HeldBy (o : MessageOptions) (rs : List Record) : Prop :=
  Hold 7 HoldsBool o.mapEntry.toList rs

def Encodes (spare : Nat) : Nat → MessageOptions → Bytes → Prop :=
  EncodesBy spare numbers fun _ => HeldBy

theorem ofRecords?_of_heldBy {o : MessageOptions} {rs : List Record} (h : o.HeldBy rs) :
    ofRecords? rs = some o := by
  rw [ofRecords?, bool?_of_hold h]
  rfl

end MessageOptions

namespace MessageDecl

/-- The records hold the declaration; `encodes` are the encodings of the messages in it. -/
structure HeldBy (spare : Nat) (encodes : MessageDecl → Bytes → Prop) (budget : Nat)
    (m : MessageDecl) (rs : List Record) : Prop where
  name : Hold 1 HoldsText m.name.toList rs
  fields : Hold 2 (HoldsChunk (Inside (FieldDecl.Encodes spare) budget)) m.fields rs
  nested : Hold 3 (HoldsChunk encodes) m.nested rs
  enums : Hold 4 (HoldsChunk (Inside (EnumDecl.Encodes spare) budget)) m.enums rs
  options : Hold 7 (HoldsChunk (Inside (MessageOptions.Encodes spare) budget)) m.options.toList rs
  oneofs : Hold 8 (HoldsChunk (Inside (NamedDecl.Encodes spare) budget)) m.oneofs rs

def Encodes (spare : Nat) : Nat → MessageDecl → Bytes → Prop
  | 0 => EncodesBy spare numbers (HeldBy spare fun _ _ => False) 0
  | budget + 1 => EncodesBy spare numbers (HeldBy spare (Encodes spare budget)) (budget + 1)

theorem encodes_eq (spare budget : Nat) :
    Encodes spare budget
      = EncodesBy spare numbers (HeldBy spare (Inside (Encodes spare) budget)) budget := by
  cases budget <;> rfl

theorem ofRecords?_of_heldBy {budget : Nat} {m : MessageDecl} {rs : List Record}
    (h : m.HeldBy 1 (Inside (Encodes 1) budget) budget rs)
    (hnested : ∀ b < budget, ∀ m bytes, Encodes 1 b m bytes → decode? b bytes = some m) :
    ofRecords? budget (inside budget decode?) rs = some m := by
  have hread (m : MessageDecl) (bytes : Bytes) (hm : Inside (Encodes 1) budget m bytes) :
      inside budget decode? bytes = some m := by
    cases budget with
    | zero => exact hm.elim
    | succ b => exact hnested b (Nat.lt_succ_self b) m bytes hm
  rw [ofRecords?, text?_of_hold h.name, messages?_of_hold h.fields fun _ _ h =>
      inside_of_encodes h fun _ => FieldDecl.decode?_of_encodes,
    messages?_of_hold h.nested hread, messages?_of_hold h.enums fun _ _ h =>
      inside_of_encodes h fun _ => EnumDecl.decode?_of_encodes,
    message?_of_hold h.options fun _ _ => MessageOptions.ofRecords?_of_heldBy,
    messages?_of_hold h.oneofs fun _ _ h =>
      inside_of_encodes h fun _ => NamedDecl.decode?_of_encodes]
  cases m
  rfl

theorem decode?_of_encodes {budget : Nat} {m : MessageDecl} {bytes : Bytes}
    (h : Encodes 1 budget m bytes) : decode? budget bytes = some m := by
  induction budget using Nat.strongRecOn generalizing m bytes with
  | ind budget ih =>
    rw [encodes_eq] at h
    rw [decode?_eq]
    exact readAll?_bind_of_encodes h fun rs hrs =>
      ofRecords?_of_heldBy hrs fun b hb m bytes => ih b hb

end MessageDecl

namespace MethodDecl

structure HeldBy (m : MethodDecl) (rs : List Record) : Prop where
  name : Hold 1 HoldsText m.name.toList rs
  inputType : Hold 2 HoldsText m.inputType.toList rs
  outputType : Hold 3 HoldsText m.outputType.toList rs
  clientStreaming : Hold 5 HoldsBool m.clientStreaming.toList rs
  serverStreaming : Hold 6 HoldsBool m.serverStreaming.toList rs

def Encodes (spare : Nat) : Nat → MethodDecl → Bytes → Prop :=
  EncodesBy spare numbers fun _ => HeldBy

theorem decode?_of_encodes {budget : Nat} {m : MethodDecl} {bytes : Bytes}
    (h : Encodes 1 budget m bytes) : decode? budget bytes = some m :=
  readAll?_bind_of_encodes h fun rs hrs => by
    rw [text?_of_hold hrs.name, text?_of_hold hrs.inputType, text?_of_hold hrs.outputType,
      bool?_of_hold hrs.clientStreaming, bool?_of_hold hrs.serverStreaming]
    rfl

end MethodDecl

namespace ServiceDecl

structure HeldBy (spare budget : Nat) (s : ServiceDecl) (rs : List Record) : Prop where
  name : Hold 1 HoldsText s.name.toList rs
  methods : Hold 2 (HoldsChunk (Inside (MethodDecl.Encodes spare) budget)) s.methods rs

def Encodes (spare : Nat) : Nat → ServiceDecl → Bytes → Prop :=
  EncodesBy spare numbers (HeldBy spare)

theorem decode?_of_encodes {budget : Nat} {s : ServiceDecl} {bytes : Bytes}
    (h : Encodes 1 budget s bytes) : decode? budget bytes = some s :=
  readAll?_bind_of_encodes h fun rs hrs => by
    rw [text?_of_hold hrs.name, messages?_of_hold hrs.methods fun _ _ h =>
      inside_of_encodes h fun _ => MethodDecl.decode?_of_encodes]
    rfl

end ServiceDecl

namespace Location

structure HeldBy (l : Location) (rs : List Record) : Prop where
  path : HoldInt32s 1 l.path rs
  leadingComments : Hold 3 HoldsText l.leadingComments.toList rs

def Encodes (spare : Nat) : Nat → Location → Bytes → Prop :=
  EncodesBy spare numbers fun _ => HeldBy

theorem decode?_of_encodes {budget : Nat} {l : Location} {bytes : Bytes}
    (h : Encodes 1 budget l bytes) : decode? budget bytes = some l :=
  readAll?_bind_of_encodes h fun rs hrs => by
    rw [int32s?_of_hold hrs.path, text?_of_hold hrs.leadingComments]
    rfl

end Location

namespace SourceInfo

def HeldBy (spare budget : Nat) (i : SourceInfo) (rs : List Record) : Prop :=
  Hold 1 (HoldsChunk (Inside (Location.Encodes spare) budget)) i.locations rs

def Encodes (spare : Nat) : Nat → SourceInfo → Bytes → Prop :=
  EncodesBy spare numbers (HeldBy spare)

theorem ofRecords?_of_heldBy {budget : Nat} {i : SourceInfo} {rs : List Record}
    (h : i.HeldBy 1 budget rs) : ofRecords? budget rs = some i := by
  rw [ofRecords?, messages?_of_hold h fun _ _ h =>
    inside_of_encodes h fun _ => Location.decode?_of_encodes]
  rfl

end SourceInfo

/-! ## Files and requests -/

namespace FileDecl

structure HeldBy (spare budget : Nat) (f : FileDecl) (rs : List Record) : Prop where
  name : Hold 1 HoldsText f.name.toList rs
  package : Hold 2 HoldsText f.package.toList rs
  messages : Hold 4 (HoldsChunk (Inside (MessageDecl.Encodes spare) budget)) f.messages rs
  enums : Hold 5 (HoldsChunk (Inside (EnumDecl.Encodes spare) budget)) f.enums rs
  services : Hold 6 (HoldsChunk (Inside (ServiceDecl.Encodes spare) budget)) f.services rs
  sourceInfo : Hold 9 (HoldsChunk (Inside (SourceInfo.Encodes spare) budget)) f.sourceInfo.toList rs

def Encodes (spare : Nat) : Nat → FileDecl → Bytes → Prop :=
  EncodesBy spare numbers (HeldBy spare)

theorem decode?_of_encodes {budget : Nat} {f : FileDecl} {bytes : Bytes}
    (h : Encodes 1 budget f bytes) : decode? budget bytes = some f :=
  readAll?_bind_of_encodes h fun rs hrs => by
    rw [text?_of_hold hrs.name, text?_of_hold hrs.package,
      messages?_of_hold hrs.messages fun _ _ h =>
        inside_of_encodes h fun _ => MessageDecl.decode?_of_encodes,
      messages?_of_hold hrs.enums fun _ _ h =>
        inside_of_encodes h fun _ => EnumDecl.decode?_of_encodes,
      messages?_of_hold hrs.services fun _ _ h =>
        inside_of_encodes h fun _ => ServiceDecl.decode?_of_encodes,
      message?_of_hold hrs.sourceInfo fun _ _ => SourceInfo.ofRecords?_of_heldBy]
    rfl

end FileDecl

namespace Request

structure HeldBy (spare budget : Nat) (r : Request) (rs : List Record) : Prop where
  filesToGenerate : Hold 1 HoldsText r.filesToGenerate rs
  parameter : Hold 2 HoldsText r.parameter.toList rs
  files : Hold 15 (HoldsChunk (Inside (FileDecl.Encodes spare) budget)) r.files rs

/-- The bytes are an encoding of the request, with messages nested no deeper than they can be. Other
fields that are no groups have `spare` levels left below them. -/
def Encodes (spare : Nat) : Request → Bytes → Prop :=
  EncodesBy spare numbers (HeldBy spare) maxNesting

theorem decode?_of_encodes {r : Request} {bytes : Bytes} (h : r.Encodes 1 bytes) :
    decode? bytes = some r :=
  readAll?_bind_of_encodes h fun rs hrs => by
    rw [texts?_of_hold hrs.filesToGenerate, text?_of_hold hrs.parameter,
      messages?_of_hold hrs.files fun _ _ h =>
        inside_of_encodes h fun _ => FileDecl.decode?_of_encodes]
    rfl

end Request
end McpCatalog
