import McpCatalog.Proofs.Request.Encoding
/-!
# Reading requests

Every encoding of a request is read as this request, and a request that fits has one. The
level that other fields need to spare is a demand of the reader: where messages are nested
as deep as they can be, a single number that the innermost message does not declare spoils
the whole request.

Results:
* `Request.reads_encodings`: encodings are read as what they encode.
* `Request.deepRequest_unread`: without a level to spare they are not.
-/
namespace McpCatalog

open Payload Record Wire

namespace Request

/-- **Reading requests.** Every encoding of a request is read as the request: whatever the order of
its fields, the forms of its varints and the chunks of its lists are, and whatever other fields
there are in its messages, if those that are no groups have a level to spare. What is written for a
request that fits is such an encoding. -/
theorem reads_encodings (r : Request) :
    (∀ bytes, r.Encodes 1 bytes → decode? bytes = some r) ∧ (r.Fits → r.Encodes 1 r.encode) :=
  ⟨fun _ => decode?_of_encodes, encodes_encode⟩

/-- A file with one location, and a parameter that is there but empty. -/
def scatteredRequest : Request :=
  ⟨["a.proto"], some "", [⟨some "a.proto", none, [], [], [], some ⟨[⟨[4, -1, 2], none⟩]⟩⟩]⟩

def scatteredPacked : Bytes :=
  ([-1, 2].map ofInt32).flatMap Varint.write

/-- The path of the location in two parts, of which only the second is packed. -/
def scatteredLocation : Bytes :=
  int32 1 4 ++ Wire.chunk 1 scatteredPacked

/-- The file with a text between its fields that it does not declare. -/
def scatteredFile : Bytes :=
  text 1 "a.proto" ++ (Key.write ⟨3, .chunk⟩ ++ (Varint.write 1 ++ [98]))
    ++ Wire.chunk 9 (Wire.chunk 1 scatteredLocation)

/-- The request with a group of one field, and with a zero of two bytes. -/
def scatteredBytes : Bytes :=
  text 1 "a.proto"
    ++ (Key.write ⟨7, .groupStart⟩ ++ (Key.write ⟨1, .fixed32⟩ ++ [1, 2, 3, 4])
      ++ Key.write ⟨7, .groupEnd⟩)
    ++ text 2 "" ++ Wire.chunk 15 scatteredFile ++ (Key.write ⟨3, .varint⟩ ++ [128, 0])

theorem encodes_scatteredLocation :
    Location.Encodes 1 97 ⟨[4, -1, 2], none⟩ scatteredLocation := by
  have hpacked : Varint.EncodesAll ([-1, 2].map ofInt32) scatteredPacked :=
    Varint.encodesAll_write (by decide)
  have hfields : Fields 1 97 Location.numbers
      ([⟨1, .varint (ofInt32 4)⟩] ++ [⟨1, .chunk scatteredPacked⟩]) scatteredLocation :=
    (Fields.varint (by decide) (ofInt32_lt 4)).append (.chunk (by decide) (by decide +kernel))
  have hparts : Hold 1 HoldsInt32s [[4], [-1, 2]]
      ([⟨1, .varint (ofInt32 4)⟩] ++ [⟨1, .chunk scatteredPacked⟩]) :=
    .cons (.single 4) (.cons (.packed hpacked) .nil)
  have hsmall : ∀ i ∈ [4, -1, 2], IsInt32 i := by simp [IsInt32]
  exact ⟨_, hfields, ⟨hsmall, _, rfl, hparts⟩, .nil⟩

theorem encodes_scatteredFile :
    FileDecl.Encodes 1 99 ⟨some "a.proto", none, [], [], [], some ⟨[⟨[4, -1, 2], none⟩]⟩⟩
      scatteredFile := by
  have hlocation : Fields 1 98 SourceInfo.numbers [⟨1, .chunk scatteredLocation⟩]
      (Wire.chunk 1 scatteredLocation) :=
    .chunk (by decide) (by decide +kernel)
  have hinfo : SourceInfo.Encodes 1 98 ⟨[⟨[4, -1, 2], none⟩]⟩ (Wire.chunk 1 scatteredLocation) :=
    ⟨_, hlocation, .cons ⟨_, rfl, encodes_scatteredLocation⟩ .nil⟩
  have hlength : Varint.Encodes 1 (Varint.write 1) := Varint.encodes_write (by decide)
  have hother : Fields 1 99 FileDecl.numbers []
      (Key.write ⟨3, .chunk⟩ ++ (Varint.write 1 ++ [98])) :=
    .passedOver (k := ⟨3, .chunk⟩) (by decide) (by decide) (.chunk hlength)
  have hfields : Fields 1 99 FileDecl.numbers
      ([⟨1, .chunk (Text.toBytes "a.proto")⟩] ++ []
        ++ [⟨9, .chunk (Wire.chunk 1 scatteredLocation)⟩]) scatteredFile :=
    ((Fields.chunk (by decide) (by decide +kernel)).append hother).append
      (.chunk (by decide) (by decide +kernel))
  have hname : HoldsText "a.proto" (.chunk (Text.toBytes "a.proto")) := ⟨_, rfl, rfl⟩
  exact ⟨_, hfields, ⟨.cons hname .nil, .nil, .nil, .nil, .nil, .cons ⟨_, rfl, hinfo⟩ .nil⟩⟩

theorem encodes_scatteredBytes : scatteredRequest.Encodes 1 scatteredBytes := by
  have hgroup : Fields 1 100 numbers [] (Key.write ⟨7, .groupStart⟩
      ++ (Key.write ⟨1, .fixed32⟩ ++ [1, 2, 3, 4]) ++ Key.write ⟨7, .groupEnd⟩) :=
    .passedOverGroup (by decide)
      (.passedOver (k := ⟨1, .fixed32⟩) (by decide) (by decide) (.fixed32 rfl))
  have hspells : Varint.Spells 0 [128, 0] :=
    .more (b := 128) (by decide) (.last (b := 0) (by decide))
  have hzero : Varint.Encodes 0 [128, 0] := ⟨hspells, by decide, by decide⟩
  have hother : Fields 1 100 numbers [] (Key.write ⟨3, .varint⟩ ++ [128, 0]) :=
    .passedOver (k := ⟨3, .varint⟩) (by decide) (by decide) (.varint hzero)
  have hfields : Fields 1 100 numbers
      ([⟨1, .chunk (Text.toBytes "a.proto")⟩] ++ [] ++ [⟨2, .chunk (Text.toBytes "")⟩]
        ++ [⟨15, .chunk scatteredFile⟩] ++ []) scatteredBytes :=
    ((((Fields.chunk (by decide) (by decide +kernel)).append hgroup).append
      (.chunk (by decide) (by decide +kernel))).append
      (.chunk (by decide) (by decide +kernel))).append hother
  have hname : HoldsText "a.proto" (.chunk (Text.toBytes "a.proto")) := ⟨_, rfl, rfl⟩
  have hempty : HoldsText "" (.chunk (Text.toBytes "")) := ⟨_, rfl, rfl⟩
  exact ⟨_, hfields, ⟨.cons hname .nil, .cons hempty .nil,
    .cons ⟨_, rfl, encodes_scatteredFile⟩ .nil⟩⟩

theorem fits_scatteredRequest : scatteredRequest.Fits := by
  refine ⟨fun f hf => ?_, by decide +kernel⟩
  obtain rfl := List.mem_singleton.1 hf
  constructor
  · simp
  · simp
  · simp
  · simp [FitsInside, SourceInfo.Fits, Location.Fits, IsInt32]

theorem reads_encodings_scatteredRequest :
    scatteredRequest.Encodes 1 scatteredBytes ∧ decode? scatteredBytes = some scatteredRequest ∧
      scatteredRequest.Fits ∧ scatteredRequest.Encodes 1 scatteredRequest.encode :=
  ⟨encodes_scatteredBytes, (reads_encodings scatteredRequest).1 _ encodes_scatteredBytes,
    fits_scatteredRequest, (reads_encodings scatteredRequest).2 fits_scatteredRequest⟩

/-! ## Without a level to spare -/

end Request

/-- Messages in a message, which go `n` levels in. -/
def MessageDecl.tower : (n : Nat) → MessageDecl
  | 0 => ⟨none, [], [], [], none, []⟩
  | n + 1 => ⟨none, [], [tower n], [], none, []⟩

/-- The bytes of these messages, with a number in the innermost that it does not declare. -/
def MessageDecl.towerBytes : (n : Nat) → Bytes
  | 0 => Key.write ⟨5, .varint⟩ ++ Varint.write 0
  | n + 1 => chunk 3 (towerBytes n)

namespace MessageDecl

theorem fits_tower (n : Nat) : (tower n).Fits n := by
  induction n with
  | zero => constructor <;> simp [tower]
  | succ n ih => constructor <;> simp [tower, ih]

theorem length_towerBytes_le {n : Nat} (hn : n ≤ 98) : (towerBytes n).length ≤ 20 * n + 20 := by
  induction n with
  | zero => decide +kernel
  | succ n ih =>
    have hinner := ih (by omega)
    have hchunk : (Wire.chunk 3 (towerBytes n)).length ≤ (towerBytes n).length + 20 :=
      length_chunk_le (by decide) (by simp only [UInt64.size]; omega)
    rw [towerBytes]
    omega

theorem length_encode_tower_le {n : Nat} (hn : n ≤ 98) : (tower n).encode.length ≤ 20 * n := by
  induction n with
  | zero => simp [tower, encode, encodeNested, Wire.optional]
  | succ n ih =>
    have hinner := ih (by omega)
    have hchunk : (Wire.chunk 3 (tower n).encode).length ≤ (tower n).encode.length + 20 :=
      length_chunk_le (by decide) (by simp only [UInt64.size]; omega)
    have hencode : (tower (n + 1)).encode = Wire.chunk 3 (tower n).encode := by
      simp [tower, encode, encodeNested, Wire.optional]
    rw [hencode]
    omega

theorem encodes_tower {n : Nat} (hlength : (towerBytes n).length < UInt64.size) :
    Encodes 0 n (tower n) (towerBytes n) := by
  induction n with
  | zero =>
    have hfields : Fields 0 0 numbers [] (towerBytes 0) :=
      .passedOver (k := ⟨5, .varint⟩) (by decide) (Nat.le_refl 0)
        (.varint (Varint.encodes_write (by decide)))
    refine ⟨_, hfields, ?_⟩
    constructor <;> exact .nil
  | succ n ih =>
    have hinner : (towerBytes n).length < UInt64.size :=
      Nat.lt_of_le_of_lt (length_le_chunk 3 _) hlength
    refine ⟨_, .chunk (by decide) hinner, ?_⟩
    have hnested : Hold 3 (HoldsChunk (Encodes 0 n)) [tower n] [⟨3, .chunk (towerBytes n)⟩] :=
      .cons ⟨_, rfl, ih hinner⟩ .nil
    constructor <;> first | exact hnested | exact .nil

theorem decode?_towerBytes {n : Nat} (hlength : (towerBytes n).length < UInt64.size) :
    decode? n (towerBytes n) = none := by
  induction n with
  | zero =>
    have hnone : readAll? 0 numbers (Key.write ⟨5, .varint⟩ ++ Varint.write 0 ++ []) = none :=
      readAll?_zero_of_other (k := ⟨5, .varint⟩) (by decide) (Key.encodes_write (by decide))
        (.varint (Varint.encodes_write (by decide))) []
    rw [List.append_nil] at hnone
    rw [decode?_eq, towerBytes, hnone]
    rfl
  | succ n ih =>
    have hinner : (towerBytes n).length < UInt64.size :=
      Nat.lt_of_le_of_lt (length_le_chunk 3 _) hlength
    have hread : readAll? (n + 1) numbers (towerBytes (n + 1))
        = some [⟨3, .chunk (towerBytes n)⟩] :=
      readAll?_of_fields (.chunk (by decide) hinner)
    have hnested : messages? 3 (inside (n + 1) decode?) [⟨3, .chunk (towerBytes n)⟩] = none :=
      messages?_of_unread (ih hinner)
    rw [decode?_eq, hread]
    simp [ofRecords?, hnested]

end MessageDecl

/-- A message that is not read spoils its file. -/
theorem FileDecl.decode?_of_unread {budget : Nat} {bytes : Bytes}
    (hlength : bytes.length < UInt64.size) (h : MessageDecl.decode? budget bytes = none) :
    decode? (budget + 1) (Wire.chunk 4 bytes) = none := by
  have hread : readAll? (budget + 1) numbers (Wire.chunk 4 bytes) = some [⟨4, .chunk bytes⟩] :=
    readAll?_of_fields (.chunk (by decide) hlength)
  have hmessages : messages? 4 (inside (budget + 1) MessageDecl.decode?) [⟨4, .chunk bytes⟩]
      = none :=
    messages?_of_unread h
  simp [decode?, hread, hmessages]

namespace Request

/-- A file that is not read spoils the request. -/
theorem decode?_of_unread {bytes : Bytes} (hlength : bytes.length < UInt64.size)
    (h : FileDecl.decode? 99 bytes = none) : decode? (Wire.chunk 15 bytes) = none := by
  have hread : readAll? maxNesting numbers (Wire.chunk 15 bytes) = some [⟨15, .chunk bytes⟩] :=
    readAll?_of_fields (.chunk (by decide) hlength)
  have hfiles : messages? 15 (inside maxNesting FileDecl.decode?) [⟨15, .chunk bytes⟩] = none :=
    messages?_of_unread h
  simp [decode?, hread, hfiles]

/-- A file with messages in messages, as deep as they can be. -/
def deepFile : FileDecl :=
  ⟨none, none, [.tower 98], [], [], none⟩

def deepRequest : Request :=
  ⟨[], none, [deepFile]⟩

def deepFileBytes : Bytes :=
  Wire.chunk 4 (MessageDecl.towerBytes 98)

/-- The bytes of this request, with a number in the innermost message that it does not declare. -/
def deepBytes : Bytes :=
  Wire.chunk 15 deepFileBytes

theorem fits_deepRequest : deepRequest.Fits := by
  refine ⟨fun f hf => ?_, ?_⟩
  · obtain rfl := List.mem_singleton.1 hf
    constructor
    · intro m hm
      obtain rfl := List.mem_singleton.1 hm
      exact MessageDecl.fits_tower 98
    all_goals simp [deepFile]
  · have htower := MessageDecl.length_encode_tower_le (Nat.le_refl 98)
    have hfile : (Wire.chunk 4 (MessageDecl.tower 98).encode).length
        ≤ (MessageDecl.tower 98).encode.length + 20 :=
      length_chunk_le (by decide) (by simp only [UInt64.size]; omega)
    have hrequest : (Wire.chunk 15 (Wire.chunk 4 (MessageDecl.tower 98).encode)).length
        ≤ (Wire.chunk 4 (MessageDecl.tower 98).encode).length + 20 :=
      length_chunk_le (by decide) (by simp only [UInt64.size]; omega)
    have hencode : deepRequest.encode
        = Wire.chunk 15 (Wire.chunk 4 (MessageDecl.tower 98).encode) := by
      simp [deepRequest, deepFile, encode, FileDecl.encode, Wire.optional]
    rw [hencode, UInt64.size]
    omega

theorem length_towerBytes : (MessageDecl.towerBytes 98).length < UInt64.size := by
  have htower := MessageDecl.length_towerBytes_le (Nat.le_refl 98)
  rw [UInt64.size]
  omega

theorem length_deepFileBytes : deepFileBytes.length < UInt64.size := by
  have htower := MessageDecl.length_towerBytes_le (Nat.le_refl 98)
  have hfile : deepFileBytes.length ≤ (MessageDecl.towerBytes 98).length + 20 :=
    length_chunk_le (by decide) length_towerBytes
  rw [UInt64.size]
  omega

theorem encodes_deepFileBytes : FileDecl.Encodes 0 99 deepFile deepFileBytes := by
  refine ⟨_, .chunk (by decide) length_towerBytes, ?_⟩
  have hmessages : Hold 4 (HoldsChunk (MessageDecl.Encodes 0 98)) [.tower 98]
      [⟨4, .chunk (MessageDecl.towerBytes 98)⟩] :=
    .cons ⟨_, rfl, MessageDecl.encodes_tower length_towerBytes⟩ .nil
  constructor <;> first | exact hmessages | exact .nil

theorem encodes_deepBytes : deepRequest.Encodes 0 deepBytes := by
  refine ⟨_, .chunk (by decide) length_deepFileBytes, ?_⟩
  have hfiles : Hold 15 (HoldsChunk (FileDecl.Encodes 0 99)) [deepFile]
      [⟨15, .chunk deepFileBytes⟩] :=
    .cons ⟨_, rfl, encodes_deepFileBytes⟩ .nil
  constructor <;> first | exact hfiles | exact .nil

/-- The request fits, and its bytes are all right but for the number that is not declared, which has
no level to spare. They are not read as any request. -/
theorem deepRequest_unread :
    deepRequest.Fits ∧ deepRequest.Encodes 0 deepBytes ∧ decode? deepBytes = none := by
  have hfile : FileDecl.decode? 99 deepFileBytes = none :=
    FileDecl.decode?_of_unread length_towerBytes (MessageDecl.decode?_towerBytes length_towerBytes)
  exact ⟨fits_deepRequest, encodes_deepBytes, decode?_of_unread length_deepFileBytes hfile⟩

end Request
end McpCatalog
