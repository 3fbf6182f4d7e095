import McpCatalog.Proofs.Wire.Varint
import McpCatalog.Wire.Record
/-!
# Fields of messages as bytes

The bytes of a message are fields in a row. Those of the numbers that a reader wants come
out as records. The others are passed over, and groups among them hold fields of any number.
A group takes one level of the budget; a field that is passed over and is no group takes
none, but needs some levels to spare. The reader asks for one.

Results:
* `closeGroups?_of_fields`: what is in a group is passed over.
* `readAll?_of_fields`: the records of the wanted numbers are what is read.
* `readAll?_zero_of_other`: without budget there is no field that can be passed over.
-/
namespace McpCatalog

/-! ## Keys and payloads -/

/-- The largest number of a field, which has 29 bits. -/
def Key.maxNumber : Nat := 536870911

/-- The bytes are a key. -/
structure Key.Encodes (k : Key) (bytes : Bytes) : Prop where
  positive : 0 < k.number
  small : k.number ≤ maxNumber
  varint : Varint.Encodes (8 * k.number + k.type.number) bytes

theorem WireType.ofNumber?_number (t : WireType) : ofNumber? t.number = some t := by
  cases t <;> rfl

theorem WireType.number_lt (t : WireType) : t.number < 8 := by
  cases t <;> decide

theorem Key.Encodes.read? {k : Key} {bytes : Bytes} (h : k.Encodes bytes) (rest : Bytes) :
    Key.read? (bytes ++ rest) = some (k, rest) := by
  have htype := k.type.number_lt
  have hpositive := h.positive
  have hsmall : k.number ≤ 536870911 := h.small
  have hbounds : 8 * k.number + k.type.number < UInt32.size ∧ 8 ≤ 8 * k.number + k.type.number := by
    simp only [UInt32.size]
    omega
  have hnumber : (8 * k.number + k.type.number) / 8 = k.number := by omega
  have hmod : (8 * k.number + k.type.number) % 8 = k.type.number := by omega
  rw [Key.read?, Varint.read?_of_encodes h.varint]
  simp only [if_pos hbounds, hnumber, hmod, WireType.ofNumber?_number, Option.map_some]

/-- The bytes are a payload of the wire type, which is that of no group. -/
inductive Payload.Encodes : WireType → Payload → Bytes → Prop
  | varint {n : Nat} {bytes : Bytes} (h : Varint.Encodes n bytes) :
      Encodes .varint (.varint n) bytes
  | fixed64 {bytes : Bytes} (h : bytes.length = 8) : Encodes .fixed64 .fixed64 bytes
  | chunk {length body : Bytes} (h : Varint.Encodes body.length length) :
      Encodes .chunk (.chunk body) (length ++ body)
  | fixed32 {bytes : Bytes} (h : bytes.length = 4) : Encodes .fixed32 .fixed32 bytes

theorem splitBytes?_append {front : Bytes} {n : Nat} (h : front.length = n) (rest : Bytes) :
    splitBytes? n (front ++ rest) = some (front, rest) := by
  subst h
  simp [splitBytes?]

theorem Payload.Encodes.read? {t : WireType} {p : Payload} {bytes : Bytes}
    (h : Payload.Encodes t p bytes) (rest : Bytes) :
    Payload.read? t (bytes ++ rest) = some (p, rest) := by
  cases h with
  | varint h => simp [Payload.read?, Varint.read?_of_encodes h]
  | fixed64 h => simp [Payload.read?, splitBytes?_append h]
  | chunk h =>
    simp [Payload.read?, readChunk?, List.append_assoc, Varint.read?_of_encodes h,
      splitBytes?_append]
  | fixed32 h => simp [Payload.read?, splitBytes?_append h]

theorem Payload.Encodes.no_group {t : WireType} {p : Payload} {bytes : Bytes}
    (h : Payload.Encodes t p bytes) : t ≠ .groupStart ∧ t ≠ .groupEnd := by
  cases h <;> simp

/-! ## Fields -/

/-- The bytes are fields, and the records are those of the wanted numbers. A field of another number
needs `spare` levels of the budget, and a group takes one. -/
inductive Fields (spare : Nat) : (budget : Nat) → (wanted : List Nat) → List Record → Bytes → Prop
  | nil {budget : Nat} {wanted : List Nat} : Fields spare budget wanted [] []
  | wanted {budget : Nat} {wanted : List Nat} {k : Key} (hk : k.number ∈ wanted) {key : Bytes}
      (hkey : k.Encodes key) {p : Payload} {payload : Bytes}
      (hpayload : Payload.Encodes k.type p payload) {rs : List Record} {rest : Bytes}
      (hrest : Fields spare budget wanted rs rest) :
      Fields spare budget wanted (⟨k.number, p⟩ :: rs) (key ++ payload ++ rest)
  | other {budget : Nat} {wanted : List Nat} {k : Key} (hk : k.number ∉ wanted)
      (hspare : spare ≤ budget) {key : Bytes} (hkey : k.Encodes key) {p : Payload} {payload : Bytes}
      (hpayload : Payload.Encodes k.type p payload) {rs : List Record} {rest : Bytes}
      (hrest : Fields spare budget wanted rs rest) :
      Fields spare budget wanted rs (key ++ payload ++ rest)
  | group {budget : Nat} {wanted : List Nat} {number : Nat} (hnumber : number ∉ wanted)
      {start : Bytes} (hstart : Key.Encodes ⟨number, .groupStart⟩ start) {inner : Bytes}
      (hinner : Fields spare budget [] [] inner) {stop : Bytes}
      (hstop : Key.Encodes ⟨number, .groupEnd⟩ stop) {rs : List Record} {rest : Bytes}
      (hrest : Fields spare (budget + 1) wanted rs rest) :
      Fields spare (budget + 1) wanted rs (start ++ inner ++ stop ++ rest)

/-! ## Groups -/

theorem closeGroups?_of_key {budget innermost : Nat} {outer : List Nat} {bytes rest : Bytes}
    {k : Key} (h : Key.read? bytes = some (k, rest)) :
    closeGroups? budget (innermost :: outer) bytes =
      if k.type = .groupEnd then
        if k.number = innermost then closeGroups? budget outer rest else none
      else if budget ≤ (innermost :: outer).length then none
      else if k.type = .groupStart then closeGroups? budget (k.number :: innermost :: outer) rest
      else (Payload.read? k.type rest).bind fun r =>
        closeGroups? budget (innermost :: outer) r.2 := by
  rw [closeGroups?]
  split
  · simp_all
  · next k' rest' h' =>
    obtain ⟨rfl, rfl⟩ := Prod.mk.inj (Option.some.inj (h.symm.trans h'))
    congr 3
    split <;> simp_all

/-- Fields in a group lead to what follows them; the groups around them are still open. -/
theorem closeGroups?_of_fields {budget : Nat} {rs : List Record} {bytes : Bytes}
    (h : Fields 1 budget [] rs bytes) (innermost : Nat) (outer : List Nat) (rest : Bytes) :
    closeGroups? (budget + (innermost :: outer).length) (innermost :: outer) (bytes ++ rest)
      = closeGroups? (budget + (innermost :: outer).length) (innermost :: outer) rest := by
  generalize hw : ([] : List Nat) = wanted at h
  induction h generalizing innermost outer rest with
  | nil => rfl
  | wanted hk => simp [← hw] at hk
  | other _ hspare hkey hpayload _ ih =>
    obtain ⟨hstart, hend⟩ := hpayload.no_group
    rw [List.append_assoc, List.append_assoc, closeGroups?_of_key (hkey.read? _), if_neg hend,
      if_neg (by omega), if_neg hstart, hpayload.read?, Option.bind_some,
      ih innermost outer rest hw]
  | @group budget _ number _ start hstart inner _ stop hstop _ tail _ ihinner ihrest =>
    have hlevel : budget + 1 + (innermost :: outer).length
        = budget + (number :: innermost :: outer).length := by
      simp only [List.length_cons]
      omega
    have hopen : closeGroups? (budget + 1 + (innermost :: outer).length) (innermost :: outer)
        (start ++ (inner ++ (stop ++ (tail ++ rest))))
        = closeGroups? (budget + (number :: innermost :: outer).length)
            (number :: innermost :: outer) (inner ++ (stop ++ (tail ++ rest))) := by
      rw [closeGroups?_of_key (hstart.read? _), if_neg (by simp), if_neg (by omega), if_pos rfl,
        hlevel]
    have hclose : closeGroups? (budget + (number :: innermost :: outer).length)
        (number :: innermost :: outer) (stop ++ (tail ++ rest))
        = closeGroups? (budget + 1 + (innermost :: outer).length) (innermost :: outer)
            (tail ++ rest) := by
      rw [closeGroups?_of_key (hstop.read? _), if_pos rfl, if_pos rfl, hlevel]
    rw [List.append_assoc, List.append_assoc, List.append_assoc, hopen, ihinner _ _ _ rfl, hclose,
      ihrest _ _ _ hw]

/-! ## Records -/

namespace Record

variable {budget : Nat} {wanted : List Nat}

theorem read?_of_payload {k : Key} {key payload : Bytes} {p : Payload} (hkey : k.Encodes key)
    (hpayload : Payload.Encodes k.type p payload) (rest : Bytes) :
    read? budget (key ++ payload ++ rest) = some (⟨k.number, p⟩, rest) := by
  rw [List.append_assoc, read?, hkey.read?]
  simp only
  rw [if_neg hpayload.no_group.1, hpayload.read?]
  rfl

theorem read?_of_group {number : Nat} {start inner stop : Bytes}
    (hstart : Key.Encodes ⟨number, .groupStart⟩ start) {rs : List Record}
    (hinner : Fields 1 budget [] rs inner) (hstop : Key.Encodes ⟨number, .groupEnd⟩ stop)
    (rest : Bytes) :
    read? (budget + 1) (start ++ inner ++ stop ++ rest) = some (⟨number, .group⟩, rest) := by
  have hinside : closeGroups? (budget + 1) [number] (inner ++ (stop ++ rest))
      = closeGroups? (budget + 1) [number] (stop ++ rest) :=
    closeGroups?_of_fields hinner number [] _
  have hclosed : closeGroups? (budget + 1) [number] (stop ++ rest) = some rest := by
    rw [closeGroups?_of_key (hstop.read? _), if_pos rfl, if_pos rfl, closeGroups?]
  rw [List.append_assoc, List.append_assoc, read?, hstart.read?]
  simp only [if_true]
  rw [if_neg (by omega), hinside, hclosed]
  rfl

theorem readAllFrom_of_read? {bytes rest : Bytes} {r : Record} (kept : List Record)
    (h : read? budget bytes = some (r, rest)) :
    readAllFrom budget wanted kept bytes =
      if r.number ∈ wanted then readAllFrom budget wanted (r :: kept) rest
      else if budget = 0 then none
      else readAllFrom budget wanted kept rest := by
  cases bytes with
  | nil => simpa using length_lt_of_read? h
  | cons b bs =>
    rw [readAllFrom]
    split
    · simp_all
    · next r' rest' h' =>
      obtain ⟨rfl, rfl⟩ := Prod.mk.inj (Option.some.inj (h.symm.trans h'))
      rfl

theorem readAllFrom_of_fields {rs : List Record} {bytes : Bytes}
    (h : Fields 1 budget wanted rs bytes) (kept : List Record) :
    readAllFrom budget wanted kept bytes = some (kept.reverse ++ rs) := by
  induction h generalizing kept with
  | nil => simp [readAllFrom]
  | wanted hk hkey hpayload _ ih =>
    rw [readAllFrom_of_read? kept (read?_of_payload hkey hpayload _), if_pos hk, ih]
    simp
  | other hk hspare hkey hpayload _ ih =>
    rw [readAllFrom_of_read? kept (read?_of_payload hkey hpayload _), if_neg hk,
      if_neg (by omega), ih]
  | group hnumber hstart hinner hstop _ _ ih =>
    rw [readAllFrom_of_read? kept (read?_of_group hstart hinner hstop _), if_neg hnumber,
      if_neg (by omega), ih]

theorem readAll?_of_fields {rs : List Record} {bytes : Bytes}
    (h : Fields 1 budget wanted rs bytes) :
    readAll? budget wanted bytes = some rs :=
  readAllFrom_of_fields h []

/-- Without budget, a field of a number that is not wanted spoils the message. -/
theorem readAll?_zero_of_other {k : Key} (hk : k.number ∉ wanted) {key payload : Bytes}
    (hkey : k.Encodes key) {p : Payload} (hpayload : Payload.Encodes k.type p payload)
    (rest : Bytes) : readAll? 0 wanted (key ++ payload ++ rest) = none := by
  rw [readAll?, readAllFrom_of_read? [] (read?_of_payload hkey hpayload rest), if_neg hk,
    if_pos rfl]

end Record
end McpCatalog
