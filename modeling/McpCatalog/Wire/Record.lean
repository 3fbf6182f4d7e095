import McpCatalog.Wire.Varint
/-!
# Records

An encoded message is a sequence of records, each a field number with a payload. A
key in front of a record holds the number and the wire type, which says how far the
payload goes. Records of numbers that a message does not declare are passed over,
groups with all that is in them; how deep groups and messages may nest is bounded by
a budget.

Results:
* `length_lt_of_read?`: what is left behind a record is shorter.
-/
namespace McpCatalog

/-- How the payload of a record is written. -/
inductive WireType where
  | varint
  | fixed64
  | chunk
  | groupStart
  | groupEnd
  | fixed32
  deriving DecidableEq

/-- The wire type with the given number. -/
def WireType.ofNumber? : Nat → Option WireType
  | 0 => some varint
  | 1 => some fixed64
  | 2 => some chunk
  | 3 => some groupStart
  | 4 => some groupEnd
  | 5 => some fixed32
  | _ => none

def WireType.number : WireType → Nat
  | varint => 0
  | fixed64 => 1
  | chunk => 2
  | groupStart => 3
  | groupEnd => 4
  | fixed32 => 5

/-! ## Keys -/

/-- What stands in front of a payload. -/
structure Key where
  number : Nat
  type : WireType

namespace Key

/-- The key in front of the bytes; its number is not zero, and both parts fit in 32 bits. -/
def read? (bytes : Bytes) : Option (Key × Bytes) :=
  match Varint.read? bytes with
  | none => none
  | some (n, rest) =>
    if n < UInt32.size ∧ 8 ≤ n then (WireType.ofNumber? (n % 8)).map fun t => (⟨n / 8, t⟩, rest)
    else none

def write (k : Key) : Bytes :=
  Varint.write (8 * k.number + k.type.number)

theorem length_lt_of_read? {bytes rest : Bytes} {k : Key} (h : read? bytes = some (k, rest)) :
    rest.length < bytes.length := by
  unfold read? at h
  split at h
  · simp at h
  · rename_i n r hr
    split at h
    · obtain ⟨t, -, he⟩ := Option.map_eq_some_iff.1 h
      simp only [Prod.mk.injEq] at he
      have := Varint.length_lt_of_read? hr
      rw [← he.2]
      exact this
    · simp at h

end Key

/-! ## Payloads -/

/-- What a record holds. Only numbers and chunks are ever looked at. -/
inductive Payload where
  | varint (n : Nat)
  | fixed64
  | chunk (bytes : Bytes)
  | group
  | fixed32
  deriving DecidableEq

/-- The first `n` bytes and what follows, if there are as many. -/
def splitBytes? (n : Nat) (bytes : Bytes) : Option (Bytes × Bytes) :=
  let front := bytes.take n
  if front.length = n then some (front, bytes.drop n) else none

/-- A length and as many bytes behind it. -/
def readChunk? (bytes : Bytes) : Option (Bytes × Bytes) :=
  match Varint.read? bytes with
  | none => none
  | some (n, rest) => splitBytes? n rest

theorem length_le_of_splitBytes? {n : Nat} {bytes front rest : Bytes}
    (h : splitBytes? n bytes = some (front, rest)) : rest.length ≤ bytes.length := by
  simp only [splitBytes?] at h
  split at h
  · simp only [Option.some.injEq, Prod.mk.injEq] at h
    simp [← h.2]
  · simp at h

theorem length_lt_of_readChunk? {bytes chunk rest : Bytes}
    (h : readChunk? bytes = some (chunk, rest)) : rest.length < bytes.length := by
  unfold readChunk? at h
  split at h
  · simp at h
  · rename_i hr
    have := Varint.length_lt_of_read? hr
    have := length_le_of_splitBytes? h
    omega

namespace Payload

/-- The payload of a wire type that is no group, in front of the bytes, and what follows. -/
def read? (type : WireType) (bytes : Bytes) : Option (Payload × Bytes) :=
  match type with
  | .varint => (Varint.read? bytes).map fun r => (.varint r.1, r.2)
  | .fixed64 => (splitBytes? 8 bytes).map fun r => (.fixed64, r.2)
  | .chunk => (readChunk? bytes).map fun r => (.chunk r.1, r.2)
  | .fixed32 => (splitBytes? 4 bytes).map fun r => (.fixed32, r.2)
  | .groupStart | .groupEnd => none

theorem length_le_of_read? {type : WireType} {bytes rest : Bytes} {p : Payload}
    (h : read? type bytes = some (p, rest)) : rest.length ≤ bytes.length := by
  cases type <;> simp only [read?, reduceCtorEq] at h
  all_goals
    obtain ⟨⟨a, r⟩, hr, he⟩ := Option.map_eq_some_iff.1 h
    obtain rfl : r = rest := (Prod.mk.injEq .. ▸ he).2
  · exact Nat.le_of_lt (Varint.length_lt_of_read? hr)
  · exact length_le_of_splitBytes? hr
  · exact Nat.le_of_lt (length_lt_of_readChunk? hr)
  · exact length_le_of_splitBytes? hr

end Payload

/-! ## Groups -/

/-- What follows the groups with the given numbers, innermost first, that are open in
front of the bytes. A field in a group needs as much budget as there are groups around it,
and one more. -/
def closeGroups? (budget : Nat) (groups : List Nat) (bytes : Bytes) : Option Bytes :=
  match groups with
  | [] => some bytes
  | innermost :: outer =>
    match _hk : Key.read? bytes with
    | none => none
    | some (key, rest) =>
      if key.type = .groupEnd then
        if key.number = innermost then closeGroups? budget outer rest else none
      else if budget ≤ groups.length then none
      else if key.type = .groupStart then closeGroups? budget (key.number :: innermost :: outer) rest
      else
        match _hp : Payload.read? key.type rest with
        | none => none
        | some (_, rest') => closeGroups? budget (innermost :: outer) rest'
termination_by bytes.length
decreasing_by
  · exact Key.length_lt_of_read? _hk
  · exact Key.length_lt_of_read? _hk
  · exact Nat.lt_of_le_of_lt (Payload.length_le_of_read? _hp) (Key.length_lt_of_read? _hk)

theorem length_le_of_closeGroups? {budget : Nat} {groups : List Nat} {bytes rest : Bytes}
    (h : closeGroups? budget groups bytes = some rest) : rest.length ≤ bytes.length := by
  fun_induction closeGroups? budget groups bytes with
  | case1 => simp_all
  | case2 => simp at h
  | case3 bytes outer key r hk _ ih =>
    have := Key.length_lt_of_read? hk
    have := ih h
    omega
  | case4 => simp at h
  | case5 _ _ _ _ _ _ _ hb =>
    rw [if_pos hb] at h
    simp at h
  | case6 bytes tag outer key r hk _ hs hb ih =>
    rw [if_neg hb, if_pos hs] at h
    have := Key.length_lt_of_read? hk
    have := ih h
    omega
  | case7 _ _ _ _ _ _ _ hs hp hb =>
    rw [if_neg hb, if_neg hs] at h
    split at h
    · simp at h
    · simp_all
  | case8 bytes tag outer key r hk _ hs p r' hp hb ih =>
    rw [if_neg hb, if_neg hs] at h
    have := Key.length_lt_of_read? hk
    have := Payload.length_le_of_read? hp
    split at h
    · simp at h
    · rename_i hp'
      simp only [hp, Option.some.injEq, Prod.mk.injEq] at hp'
      have := ih (hp'.2 ▸ h)
      omega

/-! ## Records -/

/-- A field number with a payload. -/
structure Record where
  number : Nat
  payload : Payload
  deriving DecidableEq

namespace Record

/-- The record in front of the bytes, and what follows. -/
def read? (budget : Nat) (bytes : Bytes) : Option (Record × Bytes) :=
  match Key.read? bytes with
  | none => none
  | some (key, rest) =>
    if key.type = .groupStart then
      if budget = 0 then none
      else (closeGroups? budget [key.number] rest).map fun r => (⟨key.number, .group⟩, r)
    else (Payload.read? key.type rest).map fun r => (⟨key.number, r.1⟩, r.2)

theorem length_lt_of_read? {budget : Nat} {bytes rest : Bytes} {r : Record}
    (h : read? budget bytes = some (r, rest)) : rest.length < bytes.length := by
  unfold read? at h
  split at h
  · simp at h
  · rename_i key tail hk
    have := Key.length_lt_of_read? hk
    split at h
    · split at h
      · simp at h
      · obtain ⟨r', hr, he⟩ := Option.map_eq_some_iff.1 h
        simp only [Prod.mk.injEq] at he
        have := length_le_of_closeGroups? hr
        rw [← he.2]
        omega
    · obtain ⟨r', hr, he⟩ := Option.map_eq_some_iff.1 h
      simp only [Prod.mk.injEq] at he
      have := Payload.length_le_of_read? hr
      rw [← he.2]
      omega

/-- The records of the wanted numbers, those in `kept` first and latest first. A record of
another number is passed over, which needs some budget. -/
def readAllFrom (budget : Nat) (wanted : List Nat) (kept : List Record) (bytes : Bytes) :
    Option (List Record) :=
  match bytes with
  | [] => some kept.reverse
  | b :: bs =>
    match _h : read? budget (b :: bs) with
    | none => none
    | some (r, rest) =>
      if r.number ∈ wanted then readAllFrom budget wanted (r :: kept) rest
      else if budget = 0 then none
      else readAllFrom budget wanted kept rest
termination_by bytes.length
decreasing_by
  · exact length_lt_of_read? _h
  · exact length_lt_of_read? _h

/-- The records of the wanted numbers that the bytes consist of, others left out. -/
def readAll? (budget : Nat) (wanted : List Nat) (bytes : Bytes) : Option (List Record) :=
  readAllFrom budget wanted [] bytes

end Record
end McpCatalog
