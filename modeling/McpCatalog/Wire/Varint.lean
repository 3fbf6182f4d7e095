import McpCatalog.Text.Bytes
/-!
# Varints

Numbers below `2 ^ 64` as bytes of seven bits each, lowest bits first; every byte but
the last has its high bit set. A reader takes at most ten bytes, so a number can be
longer than it has to be, but not without end.

Results:
* `length_lt_of_read?`: what is left behind a number is shorter.
-/
namespace McpCatalog.Varint

/-- The bytes of a number, as few as can be. -/
def write (n : Nat) : Bytes :=
  if n < 128 then [n.toUInt8] else (n % 128 + 128).toUInt8 :: write (n / 128)
termination_by n
decreasing_by omega

/-- The most bytes that a number is read from. -/
def maxBytes : Nat := 10

/-- The number in front of the bytes, if it takes no more than `k` bytes, and what follows. -/
def readWithin : Nat → Bytes → Option (Nat × Bytes)
  | 0, _ => none
  | _, [] => none
  | k + 1, b :: rest =>
    if b.toNat < 128 then some (b.toNat, rest)
    else (readWithin k rest).map fun r => (b.toNat - 128 + 128 * r.1, r.2)

/-- The number in front of the bytes, and what follows. -/
def read? (bytes : Bytes) : Option (Nat × Bytes) :=
  (readWithin maxBytes bytes).filter fun r => decide (r.1 < UInt64.size)

theorem length_lt_of_readWithin {k : Nat} {bytes rest : Bytes} {n : Nat}
    (h : readWithin k bytes = some (n, rest)) : rest.length < bytes.length := by
  induction k generalizing bytes rest n with
  | zero => simp [readWithin] at h
  | succ k ih =>
    cases bytes with
    | nil => simp [readWithin] at h
    | cons b tail =>
      rw [readWithin] at h
      split at h
      · simp only [Option.some.injEq, Prod.mk.injEq] at h
        simp [← h.2]
      · obtain ⟨⟨m, r⟩, hr, he⟩ := Option.map_eq_some_iff.1 h
        simp only [Prod.mk.injEq] at he
        have := ih hr
        rw [List.length_cons, ← he.2]
        omega

theorem length_lt_of_read? {bytes rest : Bytes} {n : Nat} (h : read? bytes = some (n, rest)) :
    rest.length < bytes.length :=
  length_lt_of_readWithin (Option.filter_eq_some_iff.1 h).1

/-! ## Numbers one after the other -/

/-- The numbers read so far, latest first, and those that follow. -/
def readAllFrom (numbers : List Nat) (bytes : Bytes) : Option (List Nat) :=
  match bytes with
  | [] => some numbers.reverse
  | b :: bs =>
    match _h : read? (b :: bs) with
    | none => none
    | some (n, rest) => readAllFrom (n :: numbers) rest
termination_by bytes.length
decreasing_by exact length_lt_of_read? _h

/-- The numbers that the bytes consist of. -/
def readAll? (bytes : Bytes) : Option (List Nat) :=
  readAllFrom [] bytes

end McpCatalog.Varint
