import Mathlib.Data.List.Forall2
import McpCatalog.Proofs.Wire.Record
import McpCatalog.Wire.Field
/-!
# Values of fields as payloads

What the records of a number have to hold so that they stand for some values: a single value
takes one record or none, a list one record for each of its elements. Only the numbers of a
list can also share a chunk.

Results:
* `text?_of_hold`, `texts?_of_hold`, `int32?_of_hold`, `bool?_of_hold`, `int32s?_of_hold`: the
  values are read back from such records.
* `messages?_of_hold`, `message?_of_hold`: so are messages, if they can be read from chunks.
-/
namespace McpCatalog

/-- The number has 32 bits with its sign. -/
def IsInt32 (i : Int) : Prop :=
  -2147483648 ≤ i ∧ i < 2147483648

/-! ## Payloads -/

namespace Payload

variable {α : Type}

/-- The payload is a varint of the number in 64 bits, two's complement. -/
def HoldsInt32 (i : Int) (p : Payload) : Prop :=
  IsInt32 i ∧ p = .varint (ofInt32 i)

def HoldsBool (b : Bool) (p : Payload) : Prop :=
  p = .varint b.toNat

/-- The payload is a chunk with the bytes of the value. -/
def HoldsChunk (encodes : α → Bytes → Prop) (a : α) (p : Payload) : Prop :=
  ∃ bytes, p = .chunk bytes ∧ encodes a bytes

/-- The payload is a chunk with the UTF-8 bytes of the text. -/
def HoldsText : String → Payload → Prop :=
  HoldsChunk fun s bytes => bytes = Text.toBytes s

/-- The payload is the single number of a list, or a chunk with the varints of all its numbers. -/
inductive HoldsInt32s : List Int → Payload → Prop
  | single (i : Int) : HoldsInt32s [i] (.varint (ofInt32 i))
  | packed {is : List Int} {bytes : Bytes} (h : Varint.EncodesAll (is.map ofInt32) bytes) :
      HoldsInt32s is (.chunk bytes)

end Payload

/-- The bytes are those of a value one level further in, where the budget allows it. -/
def Inside {α : Type} (encodes : Nat → α → Bytes → Prop) : (budget : Nat) → α → Bytes → Prop
  | 0, _, _ => False
  | budget + 1, a, bytes => encodes budget a bytes

namespace Record

variable {α β γ : Type} {number : Nat} {rs : List Record}

/-- What the records of a number hold are the values, in order. -/
def Hold (number : Nat) (holds : α → Payload → Prop) (as : List α) (rs : List Record) : Prop :=
  List.Forall₂ holds as (payloads number rs)

/-- What the records of a number hold are parts of the list, in order. -/
def HoldInt32s (number : Nat) (is : List Int) (rs : List Record) : Prop :=
  (∀ i ∈ is, IsInt32 i) ∧
    ∃ parts : List (List Int), parts.flatten = is ∧ Hold number Payload.HoldsInt32s parts rs

/-! ## Numbers -/

theorem mapM_of_forall₂ {r : α → β → Prop} {as : List α} {bs : List β} (h : List.Forall₂ r as bs)
    {f : β → Option γ} {g : α → γ} (hf : ∀ a b, r a b → f b = some (g a)) :
    bs.mapM f = some (as.map g) := by
  induction h with
  | nil => rfl
  | cons hr _ ih => rw [List.mapM_cons, hf _ _ hr, ih]; rfl

theorem int32?_of_hold {o : Option Int} (h : Hold number Payload.HoldsInt32 o.toList rs) :
    int32? number rs = some o := by
  have hvarints : (payloads number rs).mapM Payload.varint? = some (o.toList.map ofInt32) :=
    mapM_of_forall₂ h fun _ _ hp => by rw [hp.2]; rfl
  rw [int32?, varint?, hvarints]
  cases o with
  | none => rfl
  | some i =>
    obtain ⟨_, _, hi, -⟩ := List.forall₂_cons_left_iff.1 h
    simp [toInt32_ofInt32 hi.1.1 hi.1.2]

theorem bool?_of_hold {o : Option Bool} (h : Hold number Payload.HoldsBool o.toList rs) :
    bool? number rs = some o := by
  have hvarints : (payloads number rs).mapM Payload.varint? = some (o.toList.map Bool.toNat) :=
    mapM_of_forall₂ h fun _ _ hp => by rw [hp]; rfl
  rw [bool?, varint?, hvarints]
  cases o with
  | none => rfl
  | some b => cases b <;> rfl

theorem varints?_of_holdsInt32s {is : List Int} {p : Payload} (h : p.HoldsInt32s is) :
    p.varints? = some (is.map ofInt32) := by
  cases h with
  | single => rfl
  | packed hbytes => exact Varint.readAll?_of_encodesAll hbytes

theorem int32s?_of_hold {is : List Int} (h : HoldInt32s number is rs) :
    int32s? number rs = some is := by
  obtain ⟨hall, parts, rfl, hparts⟩ := h
  have hvarints : (payloads number rs).mapM Payload.varints?
      = some (parts.map fun part => part.map ofInt32) :=
    mapM_of_forall₂ hparts fun _ _ hp => varints?_of_holdsInt32s hp
  have hback : (parts.flatten.map ofInt32).map toInt32 = parts.flatten.map id := by
    rw [List.map_map]
    exact List.map_congr_left fun i hi => toInt32_ofInt32 (hall i hi).1 (hall i hi).2
  rw [int32s?, hvarints, Option.map_some, ← List.map_flatten, hback, List.map_id]

/-! ## Chunks -/

theorem chunks?_of_hold {encodes : α → Bytes → Prop} {as : List α}
    (h : Hold number (Payload.HoldsChunk encodes) as rs) :
    ∃ parts, chunks? number rs = some parts ∧ List.Forall₂ encodes as parts := by
  rw [chunks?]
  unfold Hold at h
  generalize payloads number rs = ps at h ⊢
  induction h with
  | nil => exact ⟨[], rfl, .nil⟩
  | cons hp _ ih =>
    obtain ⟨bytes, rfl, hbytes⟩ := hp
    obtain ⟨parts, hparts, hrest⟩ := ih
    refine ⟨bytes :: parts, ?_, .cons hbytes hrest⟩
    rw [List.mapM_cons, hparts]
    rfl

theorem texts?_of_hold {texts : List String} (h : Hold number Payload.HoldsText texts rs) :
    texts? number rs = some texts := by
  obtain ⟨parts, hchunks, hparts⟩ := chunks?_of_hold h
  have htexts : parts.mapM Text.ofBytes? = some (texts.map id) :=
    mapM_of_forall₂ hparts fun s _ hs => by rw [hs, Text.ofBytes?_toBytes]; rfl
  rw [texts?, hchunks]
  exact htexts.trans (by rw [List.map_id])

theorem text?_of_hold {o : Option String} (h : Hold number Payload.HoldsText o.toList rs) :
    text? number rs = some o := by
  rw [text?, texts?_of_hold h]
  cases o <;> rfl

theorem messages?_of_hold {encodes : α → Bytes → Prop} {as : List α}
    (h : Hold number (Payload.HoldsChunk encodes) as rs) {read : Bytes → Option α}
    (hread : ∀ a bytes, encodes a bytes → read bytes = some a) :
    messages? number read rs = some as := by
  obtain ⟨parts, hchunks, hparts⟩ := chunks?_of_hold h
  have hmessages : parts.mapM read = some (as.map id) := mapM_of_forall₂ hparts hread
  rw [messages?, hchunks]
  exact hmessages.trans (by rw [List.map_id])

/-- One chunk that is not read spoils the list. -/
theorem messages?_of_unread {read : Bytes → Option α} {bytes : Bytes} (h : read bytes = none) :
    messages? number read [⟨number, .chunk bytes⟩] = none := by
  simp [messages?, chunks?, payloads, Payload.chunk?, h]

theorem inside_of_encodes {encodes : Nat → α → Bytes → Prop} {read : Nat → Bytes → Option γ}
    {budget : Nat} {a : α} {c : γ} {bytes : Bytes} (h : Inside encodes budget a bytes)
    (hread : ∀ b, encodes b a bytes → read b bytes = some c) :
    inside budget read bytes = some c := by
  cases budget with
  | zero => exact h.elim
  | succ b => exact hread b h

end Record

/-! ## Messages -/

/-- The bytes are the fields of a message, among others of numbers that are not wanted; the records
of the wanted numbers hold it. -/
def EncodesBy {α : Type} (spare : Nat) (wanted : List Nat) (heldBy : Nat → α → List Record → Prop)
    (budget : Nat) (a : α) (bytes : Bytes) : Prop :=
  ∃ rs, Fields spare budget wanted rs bytes ∧ heldBy budget a rs

namespace Record

variable {α : Type} {number : Nat} {rs : List Record}

theorem readAll?_bind_of_encodes {wanted : List Nat} {heldBy : Nat → α → List Record → Prop}
    {budget : Nat} {a : α} {bytes : Bytes} (h : EncodesBy 1 wanted heldBy budget a bytes)
    {ofRecords? : List Record → Option α}
    (hread : ∀ rs, heldBy budget a rs → ofRecords? rs = some a) :
    (readAll? budget wanted bytes).bind ofRecords? = some a := by
  obtain ⟨rs, hfields, hrs⟩ := h
  rw [readAll?_of_fields hfields, Option.bind_some, hread rs hrs]

theorem message?_of_hold {wanted : List Nat} {heldBy : Nat → α → List Record → Prop}
    {budget : Nat} {o : Option α}
    (h : Hold number (Payload.HoldsChunk (Inside (EncodesBy 1 wanted heldBy) budget)) o.toList rs)
    {ofRecords? : List Record → Option α}
    (hread : ∀ a rs, heldBy (budget - 1) a rs → ofRecords? rs = some a) :
    message? number budget wanted ofRecords? rs = some o := by
  obtain ⟨parts, hchunks, hparts⟩ := chunks?_of_hold h
  rw [message?, hchunks]
  cases o with
  | none => cases hparts; rfl
  | some a =>
    obtain ⟨bytes, rest, hbytes, hrest, rfl⟩ := List.forall₂_cons_left_iff.1 hparts
    cases hrest
    cases budget with
    | zero => exact hbytes.elim
    | succ b =>
      obtain ⟨held, hfields, hheld⟩ := hbytes
      have hinside : inside (b + 1) (fun b => readAll? b wanted) bytes = some held :=
        readAll?_of_fields hfields
      have hparts : [bytes].mapM (inside (b + 1) fun b => readAll? b wanted) = some [held] := by
        rw [List.mapM_cons, hinside]
        rfl
      simp [hparts, hread a held hheld]

end Record
end McpCatalog
