import McpCatalog.Wire.Varint
/-!
# Forms of varints

A number has many varints: zeros can be added behind its highest bits, up to ten bytes in
all. The one that is written is the shortest.

Results:
* `read?_of_encodes`: every varint of a number is read as this number, whatever follows.
* `encodes_write`: what is written for a number is a varint of it.
* `readAll?_of_encodesAll`: so is a list of numbers, each in any of its forms.
-/
namespace McpCatalog.Varint

/-! ## Single numbers -/

/-- The bytes are seven bits of the number each, lowest first, and all but the last have their high
bit set. -/
inductive Spells : Nat → Bytes → Prop
  | last {b : UInt8} (h : b.toNat < 128) : Spells b.toNat [b]
  | more {b : UInt8} (h : 128 ≤ b.toNat) {n : Nat} {rest : Bytes} (hrest : Spells n rest) :
      Spells (b.toNat - 128 + 128 * n) (b :: rest)

/-- The bytes are a varint of the number. -/
structure Encodes (n : Nat) (bytes : Bytes) : Prop where
  spells : Spells n bytes
  short : bytes.length ≤ maxBytes
  small : n < UInt64.size

theorem readWithin_of_spells {n : Nat} {bytes : Bytes} (h : Spells n bytes) (rest : Bytes) {k : Nat}
    (hk : bytes.length ≤ k) : readWithin k (bytes ++ rest) = some (n, rest) := by
  induction h generalizing k with
  | last hb =>
    obtain ⟨k, rfl⟩ : ∃ k', k = k' + 1 := ⟨k - 1, by simp at hk; omega⟩
    simp [readWithin, hb]
  | more hb _ ih =>
    obtain ⟨k, rfl⟩ : ∃ k', k = k' + 1 := ⟨k - 1, by simp at hk; omega⟩
    have hrest := ih (by simpa using hk)
    rw [List.cons_append, readWithin, if_neg (by omega), hrest]
    rfl

theorem read?_of_encodes {n : Nat} {bytes : Bytes} (h : Encodes n bytes) (rest : Bytes) :
    read? (bytes ++ rest) = some (n, rest) := by
  rw [read?, readWithin_of_spells h.spells rest h.short]
  simpa [Option.filter] using h.small

theorem Encodes.ne_nil {n : Nat} {bytes : Bytes} (h : Encodes n bytes) : bytes ≠ [] := by
  obtain ⟨hspells, -, -⟩ := h
  cases hspells <;> simp

/-! ## What is written -/

theorem toNat_toUInt8 {n : Nat} (h : n < 256) : n.toUInt8.toNat = n := by
  simp [Nat.mod_eq_of_lt h]

theorem spells_write (n : Nat) : Spells n (write n) := by
  induction n using Nat.strongRecOn with
  | ind n ih =>
    rw [write]
    split
    · next hn =>
      have hbyte := toNat_toUInt8 (by omega : n < 256)
      have hlast : Spells n.toUInt8.toNat [n.toUInt8] := .last (by omega)
      rwa [hbyte] at hlast
    · next hn =>
      have hbyte := toNat_toUInt8 (by omega : n % 128 + 128 < 256)
      have hmore := Spells.more (by omega : 128 ≤ (n % 128 + 128).toUInt8.toNat)
        (ih (n / 128) (by omega))
      have hvalue : (n % 128 + 128).toUInt8.toNat - 128 + 128 * (n / 128) = n := by omega
      rwa [hvalue] at hmore

/-- A number without bits beyond those of `k + 1` bytes. -/
theorem length_write_of_shiftRight {k n : Nat} (h : n >>> (7 * (k + 1)) = 0) :
    (write n).length ≤ k + 1 := by
  induction k generalizing n with
  | zero =>
    have hn : n < 128 := by
      rw [Nat.shiftRight_eq_div_pow] at h
      omega
    rw [write, if_pos hn]
    simp
  | succ k ih =>
    rw [write]
    split
    · simp
    · have hn : (n / 128) >>> (7 * (k + 1)) = 0 := by
        have hshift : n / 128 = n >>> 7 := by rw [Nat.shiftRight_eq_div_pow]
        rwa [hshift, ← Nat.shiftRight_add, Nat.add_comm]
      have := ih hn
      simp only [List.length_cons]
      omega

theorem length_write_le {n : Nat} (h : n < UInt64.size) : (write n).length ≤ maxBytes := by
  have hbits : n >>> (7 * (9 + 1)) = 0 := by
    rw [Nat.shiftRight_eq_div_pow]
    simp only [UInt64.size] at h
    omega
  exact length_write_of_shiftRight hbits

theorem encodes_write {n : Nat} (h : n < UInt64.size) : Encodes n (write n) :=
  ⟨spells_write n, length_write_le h, h⟩

/-! ## Numbers one after the other -/

/-- The bytes are varints of the numbers. -/
inductive EncodesAll : List Nat → Bytes → Prop
  | nil : EncodesAll [] []
  | cons {n : Nat} {bytes : Bytes} (h : Encodes n bytes) {ns : List Nat} {rest : Bytes}
      (hrest : EncodesAll ns rest) : EncodesAll (n :: ns) (bytes ++ rest)

theorem readAllFrom_of_encodes {n : Nat} {bytes : Bytes} (h : Encodes n bytes) (ns : List Nat)
    (rest : Bytes) : readAllFrom ns (bytes ++ rest) = readAllFrom (n :: ns) rest := by
  have hread := read?_of_encodes h rest
  obtain ⟨b, tail, htail⟩ := List.exists_cons_of_ne_nil h.ne_nil
  subst htail
  rw [List.cons_append] at hread ⊢
  rw [readAllFrom]
  split
  · simp_all
  · next n' rest' h' =>
    obtain ⟨rfl, rfl⟩ := Prod.mk.inj (Option.some.inj (hread.symm.trans h'))
    rfl

theorem readAllFrom_of_encodesAll {ns : List Nat} {bytes : Bytes} (h : EncodesAll ns bytes)
    (before : List Nat) : readAllFrom before bytes = some (before.reverse ++ ns) := by
  induction h generalizing before with
  | nil => simp [readAllFrom]
  | cons hn _ ih => rw [readAllFrom_of_encodes hn, ih, List.reverse_cons, List.append_assoc]; rfl

theorem readAll?_of_encodesAll {ns : List Nat} {bytes : Bytes} (h : EncodesAll ns bytes) :
    readAll? bytes = some ns :=
  readAllFrom_of_encodesAll h []

theorem encodesAll_write {ns : List Nat} (h : ∀ n ∈ ns, n < UInt64.size) :
    EncodesAll ns (ns.flatMap write) := by
  induction ns with
  | nil => exact .nil
  | cons n ns ih =>
    rw [List.flatMap_cons]
    exact .cons (encodes_write (h n List.mem_cons_self))
      (ih fun n' hn' => h n' (List.mem_cons_of_mem _ hn'))

end McpCatalog.Varint
