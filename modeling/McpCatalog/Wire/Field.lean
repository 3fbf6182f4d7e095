import McpCatalog.Wire.Record
/-!
# Fields of encoded messages

What the records of one number say about a field: of a single value the last one
counts, the parts of a single message are read as one message, and a list holds what
all records say in order. A record of the wrong wire type spoils the message. Beside
each reader stands the writer of such a field.

Results:
* `toInt32_ofInt32`: a number of 32 bits with a sign is read back from its varint.
-/
namespace McpCatalog

/-! ## Numbers -/

/-- The 32 lowest bits of a number as a number with a sign. -/
def toInt32 (n : Nat) : Int :=
  (BitVec.ofNat 32 n).toInt

/-- The number whose varint stands for a number with a sign: in 64 bits, two's complement. -/
def ofInt32 (i : Int) : Nat :=
  (BitVec.ofInt 64 i).toNat

theorem toInt32_ofInt32 {i : Int} (h : -2147483648 ≤ i) (h' : i < 2147483648) :
    toInt32 (ofInt32 i) = i := by
  have hw : (BitVec.ofInt 64 i).setWidth 32 = BitVec.ofInt 32 i := by
    apply BitVec.eq_of_toNat_eq
    rw [BitVec.toNat_setWidth, BitVec.toNat_ofInt, BitVec.toNat_ofInt]
    omega
  unfold toInt32 ofInt32
  rw [BitVec.ofNat_toNat, hw, BitVec.toInt_ofInt]
  exact Int.bmod_eq_of_le h h'

/-! ## Reading -/

namespace Payload

def varint? : Payload → Option Nat
  | varint n => some n
  | _ => none

def chunk? : Payload → Option Bytes
  | chunk bytes => some bytes
  | _ => none

/-- One number, or several in a chunk. -/
def varints? : Payload → Option (List Nat)
  | varint n => some [n]
  | chunk bytes => Varint.readAll? bytes
  | _ => none

end Payload

namespace Record

/-- What the records of a number hold, in order. -/
def payloads (number : Nat) (rs : List Record) : List Payload :=
  (rs.filter fun r => r.number == number).map (·.payload)

def chunks? (number : Nat) (rs : List Record) : Option (List Bytes) :=
  (payloads number rs).mapM Payload.chunk?

def texts? (number : Nat) (rs : List Record) : Option (List String) := do
  (← chunks? number rs).mapM Text.ofBytes?

def text? (number : Nat) (rs : List Record) : Option (Option String) :=
  (texts? number rs).map (·.getLast?)

def varint? (number : Nat) (rs : List Record) : Option (Option Nat) :=
  ((payloads number rs).mapM Payload.varint?).map (·.getLast?)

def int32? (number : Nat) (rs : List Record) : Option (Option Int) :=
  (varint? number rs).map fun n => n.map toInt32

def bool? (number : Nat) (rs : List Record) : Option (Option Bool) :=
  (varint? number rs).map fun n => n.map (· != 0)

def int32s? (number : Nat) (rs : List Record) : Option (List Int) :=
  ((payloads number rs).mapM Payload.varints?).map fun ns => ns.flatten.map toInt32

/-- A reader for what is one level further in, where the budget allows it. -/
def inside {α : Type} (budget : Nat) (read : Nat → Bytes → Option α) (bytes : Bytes) : Option α :=
  match budget with
  | 0 => none
  | b + 1 => read b bytes

/-- The messages of a list, each in a chunk. -/
def messages? {α : Type} (number : Nat) (read : Bytes → Option α) (rs : List Record) :
    Option (List α) := do
  (← chunks? number rs).mapM read

/-- A single message from all its parts; none if there is no part. -/
def message? {α : Type} (number budget : Nat) (wanted : List Nat)
    (ofRecords? : List Record → Option α) (rs : List Record) : Option (Option α) := do
  match ← chunks? number rs with
  | [] => some none
  | parts =>
    let records ← parts.mapM (inside budget fun b => readAll? b wanted)
    (ofRecords? records.flatten).map some

end Record

/-! ## Writing -/

namespace Wire

def varint (number n : Nat) : Bytes :=
  Key.write ⟨number, .varint⟩ ++ Varint.write n

def chunk (number : Nat) (bytes : Bytes) : Bytes :=
  Key.write ⟨number, .chunk⟩ ++ Varint.write bytes.length ++ bytes

def text (number : Nat) (s : String) : Bytes :=
  chunk number (Text.toBytes s)

def int32 (number : Nat) (i : Int) : Bytes :=
  varint number (ofInt32 i)

def bool (number : Nat) (b : Bool) : Bytes :=
  varint number b.toNat

/-- A list of numbers in one chunk; nothing for the empty list. -/
def int32s (number : Nat) (is : List Int) : Bytes :=
  if is.isEmpty then [] else chunk number (is.flatMap fun i => Varint.write (ofInt32 i))

/-- A field that can be absent. -/
def optional {α : Type} (write : α → Bytes) : Option α → Bytes
  | some a => write a
  | none => []

end Wire
end McpCatalog
