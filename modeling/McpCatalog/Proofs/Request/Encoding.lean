import McpCatalog.Proofs.Request.Decoding
import McpCatalog.Proofs.Wire.Written
import McpCatalog.Request.Encoding
/-!
# Requests as they are written

What is written for a request is one of its encodings, if the numbers in it have 32 bits, its
messages are nested no deeper than they can be, and it is not too long.

Results:
* `MessageDecl.encodes_encode`: messages in messages, by induction on the budget.
* `Request.encodes_encode`, `Request.decode?_encode`: a request that fits is read back.
-/
namespace McpCatalog

open Payload Record Wire

section
variable {spare budget : Nat}

/-! ## Declarations -/

/-- Nothing in the declaration can be too large or too deep. -/
def NamedDecl.Fits (_budget : Nat) (_d : NamedDecl) : Prop :=
  True

theorem NamedDecl.encodes_encode {d : NamedDecl} (_h : d.Fits budget)
    (hlength : d.encode.length < UInt64.size) : Encodes spare budget d d.encode := by
  obtain ⟨_, hps, hfields⟩ := writes_text spare budget numbers 1 d.name (by decide) hlength
  exact ⟨_, hfields, by simpa [HeldBy, Hold]⟩

def FieldOptions.Fits (_budget : Nat) (o : FieldOptions) : Prop :=
  ∀ i ∈ o.behaviors, IsInt32 i

theorem FieldOptions.encodes_encode {o : FieldOptions} (h : o.Fits budget)
    (hlength : o.encode.length < UInt64.size) : Encodes spare budget o o.encode := by
  obtain ⟨parts, hparts, hbehaviors⟩ :=
    writes_int32s spare budget numbers 1052 o.behaviors (by decide)
  obtain ⟨_, hps, hfields⟩ := hbehaviors hlength
  exact ⟨_, hfields, h, parts, hparts, by simpa [Hold]⟩

structure FieldDecl.Fits (budget : Nat) (f : FieldDecl) : Prop where
  number : ∀ i ∈ f.number, IsInt32 i
  label : ∀ i ∈ f.label, IsInt32 i
  type : ∀ i ∈ f.type, IsInt32 i
  options : ∀ o ∈ f.options, FitsInside FieldOptions.Fits budget o
  oneofIndex : ∀ i ∈ f.oneofIndex, IsInt32 i

theorem FieldDecl.encodes_encode {f : FieldDecl} (h : f.Fits budget)
    (hlength : f.encode.length < UInt64.size) : Encodes spare budget f f.encode := by
  simp only [encode, List.length_append] at hlength
  obtain ⟨_, h1, f1⟩ := writes_text spare budget numbers 1 f.name (by decide) (by omega)
  obtain ⟨_, h3, f3⟩ := writes_int32 spare budget numbers 3 h.number (by decide) (by omega)
  obtain ⟨_, h4, f4⟩ := writes_int32 spare budget numbers 4 h.label (by decide) (by omega)
  obtain ⟨_, h5, f5⟩ := writes_int32 spare budget numbers 5 h.type (by decide) (by omega)
  obtain ⟨_, h6, f6⟩ := writes_text spare budget numbers 6 f.typeName (by decide) (by omega)
  obtain ⟨_, h8, f8⟩ := writes_message spare budget numbers 8 (FieldOptions.Encodes spare)
    FieldOptions.encode h.options (fun _ _ => FieldOptions.encodes_encode) (by decide) (by omega)
  obtain ⟨_, h9, f9⟩ := writes_int32 spare budget numbers 9 h.oneofIndex (by decide) (by omega)
  obtain ⟨_, h17, f17⟩ := writes_bool spare budget numbers 17 f.proto3Optional (by decide)
    (by omega)
  refine ⟨_, ((((((f1.append f3).append f4).append f5).append f6).append f8).append f9).append f17,
    ?_⟩
  constructor <;> simpa [Hold, payloads_map_of_ne]

def EnumDecl.Fits (budget : Nat) (e : EnumDecl) : Prop :=
  ∀ v ∈ e.values, FitsInside NamedDecl.Fits budget v

theorem EnumDecl.encodes_encode {e : EnumDecl} (h : e.Fits budget)
    (hlength : e.encode.length < UInt64.size) : Encodes spare budget e e.encode := by
  simp only [encode, List.length_append] at hlength
  obtain ⟨_, h1, f1⟩ := writes_text spare budget numbers 1 e.name (by decide) (by omega)
  obtain ⟨_, h2, f2⟩ := writes_messages spare budget numbers 2 (NamedDecl.Encodes spare)
    NamedDecl.encode h (fun _ _ => NamedDecl.encodes_encode) (by decide) (by omega)
  refine ⟨_, f1.append f2, ?_⟩
  constructor <;> simpa [Hold, payloads_map_of_ne]

def MessageOptions.Fits (_budget : Nat) (_o : MessageOptions) : Prop :=
  True

theorem MessageOptions.encodes_encode {o : MessageOptions} (_h : o.Fits budget)
    (hlength : o.encode.length < UInt64.size) : Encodes spare budget o o.encode := by
  obtain ⟨_, hps, hfields⟩ := writes_bool spare budget numbers 7 o.mapEntry (by decide) hlength
  exact ⟨_, hfields, by simpa [HeldBy, Hold]⟩

namespace MessageDecl

/-- The parts of the declaration fit; `fits` says so of the messages in it. -/
structure PartsFit (fits : MessageDecl → Prop) (budget : Nat) (m : MessageDecl) : Prop where
  fields : ∀ f ∈ m.fields, FitsInside FieldDecl.Fits budget f
  nested : ∀ n ∈ m.nested, fits n
  enums : ∀ e ∈ m.enums, FitsInside EnumDecl.Fits budget e
  options : ∀ o ∈ m.options, FitsInside MessageOptions.Fits budget o
  oneofs : ∀ o ∈ m.oneofs, FitsInside NamedDecl.Fits budget o

def Fits : Nat → MessageDecl → Prop
  | 0 => PartsFit (fun _ => False) 0
  | budget + 1 => PartsFit (Fits budget) (budget + 1)

theorem encode_eq (m : MessageDecl) :
    m.encode = optional (text 1) m.name ++ (m.fields.flatMap fun f => chunk 2 f.encode)
      ++ (m.nested.flatMap fun n => chunk 3 n.encode) ++ (m.enums.flatMap fun e => chunk 4 e.encode)
      ++ optional (fun o => chunk 7 (MessageOptions.encode o)) m.options
      ++ (m.oneofs.flatMap fun o => chunk 8 o.encode) := by
  cases m
  rw [encode, encodeNested_eq]

theorem encodesBy_encode {fits : MessageDecl → Prop} {encodes : MessageDecl → Bytes → Prop}
    (hnested : ∀ n, fits n → n.encode.length < UInt64.size → encodes n n.encode) {m : MessageDecl}
    (h : m.PartsFit fits budget) (hlength : m.encode.length < UInt64.size) :
    EncodesBy spare numbers (HeldBy spare encodes) budget m m.encode := by
  have hmessages : Writes spare budget numbers 3 (HoldsChunk encodes) m.nested
      (m.nested.flatMap fun n => chunk 3 n.encode) :=
    writes_flatMap fun n hn => writes_chunk (by decide) fun hlength =>
      ⟨_, rfl, hnested n (h.nested n hn) hlength⟩
  rw [encode_eq] at hlength ⊢
  simp only [List.length_append] at hlength
  obtain ⟨_, h1, f1⟩ := writes_text spare budget numbers 1 m.name (by decide) (by omega)
  obtain ⟨_, h2, f2⟩ := writes_messages spare budget numbers 2 (FieldDecl.Encodes spare)
    FieldDecl.encode h.fields (fun _ _ => FieldDecl.encodes_encode) (by decide) (by omega)
  obtain ⟨_, h3, f3⟩ := hmessages (by omega)
  obtain ⟨_, h4, f4⟩ := writes_messages spare budget numbers 4 (EnumDecl.Encodes spare)
    EnumDecl.encode h.enums (fun _ _ => EnumDecl.encodes_encode) (by decide) (by omega)
  obtain ⟨_, h7, f7⟩ := writes_message spare budget numbers 7 (MessageOptions.Encodes spare)
    MessageOptions.encode h.options (fun _ _ => MessageOptions.encodes_encode) (by decide)
    (by omega)
  obtain ⟨_, h8, f8⟩ := writes_messages spare budget numbers 8 (NamedDecl.Encodes spare)
    NamedDecl.encode h.oneofs (fun _ _ => NamedDecl.encodes_encode) (by decide) (by omega)
  refine ⟨_, ((((f1.append f2).append f3).append f4).append f7).append f8, ?_⟩
  constructor <;> simpa [Hold, payloads_map_of_ne]

theorem encodes_encode {m : MessageDecl} (h : m.Fits budget)
    (hlength : m.encode.length < UInt64.size) : Encodes spare budget m m.encode := by
  induction budget generalizing m with
  | zero => exact encodesBy_encode (fun _ h => h.elim) h hlength
  | succ budget ih => exact encodesBy_encode (fun _ => ih) h hlength

end MessageDecl

def MethodDecl.Fits (_budget : Nat) (_m : MethodDecl) : Prop :=
  True

theorem MethodDecl.encodes_encode {m : MethodDecl} (_h : m.Fits budget)
    (hlength : m.encode.length < UInt64.size) : Encodes spare budget m m.encode := by
  simp only [encode, List.length_append] at hlength
  obtain ⟨_, h1, f1⟩ := writes_text spare budget numbers 1 m.name (by decide) (by omega)
  obtain ⟨_, h2, f2⟩ := writes_text spare budget numbers 2 m.inputType (by decide) (by omega)
  obtain ⟨_, h3, f3⟩ := writes_text spare budget numbers 3 m.outputType (by decide) (by omega)
  obtain ⟨_, h5, f5⟩ := writes_bool spare budget numbers 5 m.clientStreaming (by decide) (by omega)
  obtain ⟨_, h6, f6⟩ := writes_bool spare budget numbers 6 m.serverStreaming (by decide) (by omega)
  refine ⟨_, (((f1.append f2).append f3).append f5).append f6, ?_⟩
  constructor <;> simpa [Hold, payloads_map_of_ne]

def ServiceDecl.Fits (budget : Nat) (s : ServiceDecl) : Prop :=
  ∀ m ∈ s.methods, FitsInside MethodDecl.Fits budget m

theorem ServiceDecl.encodes_encode {s : ServiceDecl} (h : s.Fits budget)
    (hlength : s.encode.length < UInt64.size) : Encodes spare budget s s.encode := by
  simp only [encode, List.length_append] at hlength
  obtain ⟨_, h1, f1⟩ := writes_text spare budget numbers 1 s.name (by decide) (by omega)
  obtain ⟨_, h2, f2⟩ := writes_messages spare budget numbers 2 (MethodDecl.Encodes spare)
    MethodDecl.encode h (fun _ _ => MethodDecl.encodes_encode) (by decide) (by omega)
  refine ⟨_, f1.append f2, ?_⟩
  constructor <;> simpa [Hold, payloads_map_of_ne]

def Location.Fits (_budget : Nat) (l : Location) : Prop :=
  ∀ i ∈ l.path, IsInt32 i

theorem Location.encodes_encode {l : Location} (h : l.Fits budget)
    (hlength : l.encode.length < UInt64.size) : Encodes spare budget l l.encode := by
  simp only [encode, List.length_append] at hlength
  obtain ⟨parts, hparts, hpath⟩ := writes_int32s spare budget numbers 1 l.path (by decide)
  obtain ⟨_, h1, f1⟩ := hpath (by omega)
  obtain ⟨_, h3, f3⟩ := writes_text spare budget numbers 3 l.leadingComments (by decide) (by omega)
  exact ⟨_, f1.append f3, ⟨h, parts, hparts, by simpa [Hold, payloads_map_of_ne]⟩,
    by simpa [Hold, payloads_map_of_ne]⟩

def SourceInfo.Fits (budget : Nat) (i : SourceInfo) : Prop :=
  ∀ l ∈ i.locations, FitsInside Location.Fits budget l

theorem SourceInfo.encodes_encode {i : SourceInfo} (h : i.Fits budget)
    (hlength : i.encode.length < UInt64.size) : Encodes spare budget i i.encode := by
  obtain ⟨_, hps, hfields⟩ := writes_messages spare budget numbers 1 (Location.Encodes spare)
    Location.encode h (fun _ _ => Location.encodes_encode) (by decide) hlength
  exact ⟨_, hfields, by simpa [HeldBy, Hold]⟩

/-! ## Files and requests -/

structure FileDecl.Fits (budget : Nat) (f : FileDecl) : Prop where
  messages : ∀ m ∈ f.messages, FitsInside MessageDecl.Fits budget m
  enums : ∀ e ∈ f.enums, FitsInside EnumDecl.Fits budget e
  services : ∀ s ∈ f.services, FitsInside ServiceDecl.Fits budget s
  sourceInfo : ∀ i ∈ f.sourceInfo, FitsInside SourceInfo.Fits budget i

theorem FileDecl.encodes_encode {f : FileDecl} (h : f.Fits budget)
    (hlength : f.encode.length < UInt64.size) : Encodes spare budget f f.encode := by
  simp only [encode, List.length_append] at hlength
  obtain ⟨_, h1, f1⟩ := writes_text spare budget numbers 1 f.name (by decide) (by omega)
  obtain ⟨_, h2, f2⟩ := writes_text spare budget numbers 2 f.package (by decide) (by omega)
  obtain ⟨_, h4, f4⟩ := writes_messages spare budget numbers 4 (MessageDecl.Encodes spare)
    MessageDecl.encode h.messages (fun _ _ => MessageDecl.encodes_encode) (by decide) (by omega)
  obtain ⟨_, h5, f5⟩ := writes_messages spare budget numbers 5 (EnumDecl.Encodes spare)
    EnumDecl.encode h.enums (fun _ _ => EnumDecl.encodes_encode) (by decide) (by omega)
  obtain ⟨_, h6, f6⟩ := writes_messages spare budget numbers 6 (ServiceDecl.Encodes spare)
    ServiceDecl.encode h.services (fun _ _ => ServiceDecl.encodes_encode) (by decide) (by omega)
  obtain ⟨_, h9, f9⟩ := writes_message spare budget numbers 9 (SourceInfo.Encodes spare)
    SourceInfo.encode h.sourceInfo (fun _ _ => SourceInfo.encodes_encode) (by decide) (by omega)
  refine ⟨_, ((((f1.append f2).append f4).append f5).append f6).append f9, ?_⟩
  constructor <;> simpa [Hold, payloads_map_of_ne]

end

namespace Request

/-- The numbers of the request have 32 bits, its messages are nested no deeper than they can be, and
its bytes can be counted. -/
structure Fits (r : Request) : Prop where
  files : ∀ f ∈ r.files, FitsInside FileDecl.Fits maxNesting f
  length : r.encode.length < UInt64.size

variable {r : Request}

theorem encodes_encode {spare : Nat} (h : r.Fits) : r.Encodes spare r.encode := by
  have hlength := h.length
  simp only [encode, List.length_append] at hlength
  obtain ⟨_, h1, f1⟩ := writes_texts spare maxNesting numbers 1 r.filesToGenerate (by decide)
    (by omega)
  obtain ⟨_, h2, f2⟩ := writes_text spare maxNesting numbers 2 r.parameter (by decide) (by omega)
  obtain ⟨_, h15, f15⟩ := writes_messages spare maxNesting numbers 15 (FileDecl.Encodes spare)
    FileDecl.encode h.files (fun _ _ => FileDecl.encodes_encode) (by decide) (by omega)
  refine ⟨_, (f1.append f2).append f15, ?_⟩
  constructor <;> simpa [Hold, payloads_map_of_ne]

theorem decode?_encode (h : r.Fits) : decode? r.encode = some r :=
  decode?_of_encodes (encodes_encode h)

end Request
end McpCatalog
