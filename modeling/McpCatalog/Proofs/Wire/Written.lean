import McpCatalog.Proofs.Wire.Field
/-!
# Fields as they are written

What the writers of fields make is among the encodings of their values, as long as no length
is too large for a varint.

Results:
* `Fields.append`: fields of a message one after the other.
* `writes_text`, `writes_int32`, `writes_bool`, `writes_int32s`: what is written for the
  fields of one number.
* `writes_messages`, `writes_message`: the same for messages, if they fit one level further in.
-/
namespace McpCatalog

theorem Key.encodes_write {k : Key} (h : 0 < k.number ∧ k.number ≤ maxNumber) :
    k.Encodes k.write := by
  have htype := k.type.number_lt
  have hsmall : k.number ≤ 536870911 := h.2
  have hsize : 8 * k.number + k.type.number < UInt64.size := by
    simp only [UInt64.size]
    omega
  exact ⟨h.1, h.2, Varint.encodes_write hsize⟩

theorem Wire.length_le_chunk (number : Nat) (bytes : Bytes) :
    bytes.length ≤ (chunk number bytes).length := by
  simp only [chunk, List.length_append]
  omega

theorem Wire.length_chunk_le {number : Nat} {bytes : Bytes} (hnumber : number ≤ Key.maxNumber)
    (hbytes : bytes.length < UInt64.size) : (chunk number bytes).length ≤ bytes.length + 20 := by
  have hsmall : number ≤ 536870911 := hnumber
  have hkey : (Key.write ⟨number, .chunk⟩).length ≤ 10 := by
    refine Varint.length_write_le ?_
    simp only [WireType.number, UInt64.size]
    omega
  have hlength : (Varint.write bytes.length).length ≤ 10 := Varint.length_write_le hbytes
  simp only [chunk, List.length_append]
  omega

/-- The number is wanted, and it is one that a field can have. -/
abbrev IsWanted (wanted : List Nat) (number : Nat) : Prop :=
  number ∈ wanted ∧ 0 < number ∧ number ≤ Key.maxNumber

section
variable {spare budget : Nat} {wanted : List Nat}

theorem Fields.append {rs rs' : List Record} {bytes bytes' : Bytes}
    (h : Fields spare budget wanted rs bytes) (h' : Fields spare budget wanted rs' bytes') :
    Fields spare budget wanted (rs ++ rs') (bytes ++ bytes') := by
  induction h with
  | nil => exact h'
  | wanted hk hkey hpayload _ ih =>
    rw [List.append_assoc]
    exact .wanted hk hkey hpayload (ih h')
  | other hk hspare hkey hpayload _ ih =>
    rw [List.append_assoc]
    exact .other hk hspare hkey hpayload (ih h')
  | group hnumber hstart hinner hstop _ _ ih =>
    rw [List.append_assoc]
    exact .group hnumber hstart hinner hstop (ih h')

theorem Fields.varint {number : Nat} (hnumber : IsWanted wanted number)
    {n : Nat} (hn : n < UInt64.size) :
    Fields spare budget wanted [⟨number, .varint n⟩] (Wire.varint number n) := by
  have hfields : Fields spare budget wanted [⟨number, .varint n⟩]
      (Key.write ⟨number, .varint⟩ ++ Varint.write n ++ []) :=
    .wanted (k := ⟨number, .varint⟩) hnumber.1 (Key.encodes_write hnumber.2)
      (.varint (Varint.encodes_write hn)) .nil
  rwa [List.append_nil] at hfields

theorem Fields.chunk {number : Nat} (hnumber : IsWanted wanted number)
    {bytes : Bytes} (hbytes : bytes.length < UInt64.size) :
    Fields spare budget wanted [⟨number, .chunk bytes⟩] (Wire.chunk number bytes) := by
  have hfields : Fields spare budget wanted [⟨number, .chunk bytes⟩]
      (Key.write ⟨number, .chunk⟩ ++ (Varint.write bytes.length ++ bytes) ++ []) :=
    .wanted (k := ⟨number, .chunk⟩) hnumber.1 (Key.encodes_write hnumber.2)
      (.chunk (Varint.encodes_write hbytes)) .nil
  rwa [List.append_nil, ← List.append_assoc] at hfields

theorem Fields.passedOver {k : Key}
    (hk : k.number ∉ wanted ∧ 0 < k.number ∧ k.number ≤ Key.maxNumber) (hspare : spare ≤ budget)
    {p : Payload} {payload : Bytes}
    (hpayload : Payload.Encodes k.type p payload) :
    Fields spare budget wanted [] (k.write ++ payload) := by
  have hfields : Fields spare budget wanted [] (k.write ++ payload ++ []) :=
    .other hk.1 hspare (Key.encodes_write hk.2) hpayload .nil
  rwa [List.append_nil] at hfields

theorem Fields.passedOverGroup {number : Nat}
    (hnumber : number ∉ wanted ∧ 0 < number ∧ number ≤ Key.maxNumber) {inner : Bytes}
    (hinner : Fields spare budget [] [] inner) :
    Fields spare (budget + 1) wanted []
      (Key.write ⟨number, .groupStart⟩ ++ inner ++ Key.write ⟨number, .groupEnd⟩) := by
  have hfields : Fields spare (budget + 1) wanted []
      (Key.write ⟨number, .groupStart⟩ ++ inner ++ Key.write ⟨number, .groupEnd⟩ ++ []) :=
    .group hnumber.1 (Key.encodes_write hnumber.2) hinner (Key.encodes_write hnumber.2) .nil
  rwa [List.append_nil] at hfields

end

/-! ## Fields of one number -/

/-- The bytes are fields of a wanted number for the values, unless a length is too large. -/
def Writes {α : Type} (spare budget : Nat) (wanted : List Nat) (number : Nat)
    (holds : α → Payload → Prop) (as : List α) (bytes : Bytes) : Prop :=
  bytes.length < UInt64.size → ∃ ps, List.Forall₂ holds as ps ∧
    Fields spare budget wanted (ps.map fun p => ⟨number, p⟩) bytes

section
variable {α : Type} {spare budget : Nat} {wanted : List Nat} {number : Nat}
  {holds : α → Payload → Prop}

theorem writes_varint (hnumber : IsWanted wanted number) {a : α}
    {n : Nat} (hn : n < UInt64.size) (ha : holds a (.varint n)) :
    Writes spare budget wanted number holds [a] (Wire.varint number n) :=
  fun _ => ⟨[.varint n], .cons ha .nil, .varint hnumber hn⟩

theorem writes_chunk (hnumber : IsWanted wanted number) {a : α}
    {bytes : Bytes} (ha : bytes.length < UInt64.size → holds a (.chunk bytes)) :
    Writes spare budget wanted number holds [a] (Wire.chunk number bytes) := by
  intro hlength
  have hbytes : bytes.length < UInt64.size :=
    Nat.lt_of_le_of_lt (Wire.length_le_chunk number bytes) hlength
  exact ⟨[.chunk bytes], .cons (ha hbytes) .nil, .chunk hnumber hbytes⟩

theorem writes_nil : Writes spare budget wanted number holds [] [] :=
  fun _ => ⟨[], .nil, .nil⟩

theorem Writes.append {as as' : List α} {bytes bytes' : Bytes}
    (h : Writes spare budget wanted number holds as bytes)
    (h' : Writes spare budget wanted number holds as' bytes') :
    Writes spare budget wanted number holds (as ++ as') (bytes ++ bytes') := by
  intro hlength
  rw [List.length_append] at hlength
  obtain ⟨ps, hps, hfields⟩ := h (by omega)
  obtain ⟨ps', hps', hfields'⟩ := h' (by omega)
  refine ⟨ps ++ ps', List.rel_append hps hps', ?_⟩
  rw [List.map_append]
  exact hfields.append hfields'

theorem writes_optional {write : α → Bytes} {o : Option α}
    (h : ∀ a ∈ o, Writes spare budget wanted number holds [a] (write a)) :
    Writes spare budget wanted number holds o.toList (Wire.optional write o) := by
  cases o with
  | none => exact writes_nil
  | some a => exact h a rfl

theorem writes_flatMap {write : α → Bytes} {as : List α}
    (h : ∀ a ∈ as, Writes spare budget wanted number holds [a] (write a)) :
    Writes spare budget wanted number holds as (as.flatMap write) := by
  induction as with
  | nil => exact writes_nil
  | cons a as ih =>
    rw [List.flatMap_cons]
    exact (h a List.mem_cons_self).append (ih fun a' ha' => h a' (List.mem_cons_of_mem _ ha'))

end

/-! ## Values -/

/-- The value fits one level further in, where the budget allows it. -/
def FitsInside {α : Type} (fits : Nat → α → Prop) : (budget : Nat) → α → Prop
  | 0, _ => False
  | budget + 1, a => fits budget a

theorem ofInt32_lt (i : Int) : ofInt32 i < UInt64.size :=
  (BitVec.ofInt 64 i).isLt

section
variable (spare budget : Nat) (wanted : List Nat) (number : Nat)

theorem writes_texts (texts : List String)
    (hnumber : IsWanted wanted number) :
    Writes spare budget wanted number Payload.HoldsText texts (texts.flatMap (Wire.text number)) :=
  writes_flatMap fun _ _ => writes_chunk hnumber fun _ => ⟨_, rfl, rfl⟩

theorem writes_text (o : Option String)
    (hnumber : IsWanted wanted number) :
    Writes spare budget wanted number Payload.HoldsText o.toList
      (Wire.optional (Wire.text number) o) :=
  writes_optional fun _ _ => writes_chunk hnumber fun _ => ⟨_, rfl, rfl⟩

theorem writes_int32 {o : Option Int} (h : ∀ i ∈ o, IsInt32 i)
    (hnumber : IsWanted wanted number) :
    Writes spare budget wanted number Payload.HoldsInt32 o.toList
      (Wire.optional (Wire.int32 number) o) :=
  writes_optional fun i hi => writes_varint hnumber (ofInt32_lt i) ⟨h i hi, rfl⟩

theorem writes_bool (o : Option Bool)
    (hnumber : IsWanted wanted number) :
    Writes spare budget wanted number Payload.HoldsBool o.toList
      (Wire.optional (Wire.bool number) o) :=
  writes_optional fun b _ => writes_varint hnumber (by cases b <;> decide) rfl

/-- A list of numbers is written in one part or none. -/
theorem writes_int32s (is : List Int)
    (hnumber : IsWanted wanted number) :
    ∃ parts : List (List Int), parts.flatten = is ∧
      Writes spare budget wanted number Payload.HoldsInt32s parts (Wire.int32s number is) := by
  cases is with
  | nil => exact ⟨[], rfl, writes_nil⟩
  | cons i is =>
    refine ⟨[i :: is], by simp, writes_chunk hnumber fun _ => .packed ?_⟩
    have hsmall : ∀ n ∈ (i :: is).map ofInt32, n < UInt64.size := by
      intro n hn
      obtain ⟨j, -, rfl⟩ := List.mem_map.1 hn
      exact ofInt32_lt j
    have hvarints := Varint.encodesAll_write hsmall
    rwa [List.flatMap_map] at hvarints

variable {α : Type} {fits : Nat → α → Prop} (encodes : Nat → α → Bytes → Prop) (encode : α → Bytes)

theorem writes_inside {a : α} (ha : FitsInside fits budget a)
    (h : ∀ b a, fits b a → (encode a).length < UInt64.size → encodes b a (encode a))
    (hnumber : IsWanted wanted number) :
    Writes spare budget wanted number (Payload.HoldsChunk (Inside encodes budget)) [a]
      (Wire.chunk number (encode a)) := by
  refine writes_chunk hnumber fun hlength => ⟨_, rfl, ?_⟩
  cases budget with
  | zero => exact ha.elim
  | succ b => exact h b a ha hlength

theorem writes_messages {as : List α} (has : ∀ a ∈ as, FitsInside fits budget a)
    (h : ∀ b a, fits b a → (encode a).length < UInt64.size → encodes b a (encode a))
    (hnumber : IsWanted wanted number) :
    Writes spare budget wanted number (Payload.HoldsChunk (Inside encodes budget)) as
      (as.flatMap fun a => Wire.chunk number (encode a)) :=
  writes_flatMap fun a ha => writes_inside spare budget wanted number encodes encode (has a ha) h
    hnumber

theorem writes_message {o : Option α} (ho : ∀ a ∈ o, FitsInside fits budget a)
    (h : ∀ b a, fits b a → (encode a).length < UInt64.size → encodes b a (encode a))
    (hnumber : IsWanted wanted number) :
    Writes spare budget wanted number (Payload.HoldsChunk (Inside encodes budget)) o.toList
      (Wire.optional (fun a => Wire.chunk number (encode a)) o) :=
  writes_optional fun a ha => writes_inside spare budget wanted number encodes encode (ho a ha) h
    hnumber

end

/-! ## Records of several numbers -/

namespace Record

variable {number : Nat} {rs rs' : List Record} {ps : List Payload}

@[simp] theorem payloads_append :
    payloads number (rs ++ rs') = payloads number rs ++ payloads number rs' := by
  simp [payloads]

@[simp] theorem payloads_map_self : payloads number (ps.map fun p => ⟨number, p⟩) = ps := by
  simp [payloads, List.filter_map, Function.comp_def]

theorem payloads_map_of_ne {other : Nat} (h : other ≠ number) :
    payloads number (ps.map fun p => ⟨other, p⟩) = [] := by
  simp [payloads, List.filter_map, Function.comp_def, h]

end Record
end McpCatalog
