import Mathlib.Data.Nat.Digits.Defs
import McpCatalog.Digest.Hash
import McpCatalog.Proofs.Numeral
/-!
# Digests in base 36

A digest of 20 bytes is one number, the first byte the most significant, and its text is the
numeral of this number. Zero bytes in front do not count, so that some texts are shorter; since all
digests are of one length, the zeros are found again, and no two digests have the same text.

Results:
* `isBase36_iff`: every number has one canonical numeral in base 36.
* `ofBytes_eq_bigEndian`: a digest is read as a number in base 256.
* `bigEndian_inj`: digests of one length are the same if they denote the same number.
* `isBase36_sha1Base36`: what a hash in base 36 is, and when two names have the same.
-/
namespace McpCatalog.Hash

open Numeral (digit digitValue numeral ofBytes)

/-! ## Numbers and their texts -/

/-- The number with these digits in the base, the most significant first. -/
def positional (base : Nat) (digits : List Nat) : Nat :=
  Nat.ofDigits base digits.reverse

/-- The number that the bytes denote, the most significant first. -/
def bigEndian (bytes : Bytes) : Nat :=
  positional 256 (bytes.map UInt8.toNat)

/-- The digits of base 36, each at the place of its value. -/
def alphabet : List Char :=
  "0123456789abcdefghijklmnopqrstuvwxyz".toList

def place (c : Char) : Nat :=
  alphabet.idxOf c

/-- The text is the canonical numeral of the number in base 36. -/
structure IsBase36 (n : Nat) (text : List Char) : Prop where
  ne_nil : text ≠ []
  mem_alphabet : ∀ c ∈ text, c ∈ alphabet
  /-- A zero stands in front only if it is all there is. -/
  leading : text.head? = some '0' → text = ['0']
  value : positional 36 (text.map place) = n

/-- The text of a digest. -/
def base36 (digest : Bytes) : List Char :=
  numeral 36 (ofBytes digest)

theorem sha1Base36_eq (name : String) :
    sha1Base36 name = base36 (Digest.sha1 (Text.toBytes name)) :=
  rfl

/-! ## Reading digits -/

/-- Reading from the front multiplies what was read and adds the next digit. -/
theorem foldl_eq_positional (base : Nat) (digits : List Nat) :
    digits.foldl (fun n d => base * n + d) 0 = positional base digits := by
  rw [positional, Nat.ofDigits_eq_foldr, List.foldr_reverse]
  simp only [Nat.cast_id, Nat.add_comm]

theorem ofBytes_eq_bigEndian (bytes : Bytes) : ofBytes bytes = bigEndian bytes := by
  rw [bigEndian, ← foldl_eq_positional, List.foldl_map, ofBytes]
  simp only [Nat.mul_comm]

theorem mem_alphabet_iff {c : Char} : c ∈ alphabet ↔ ∃ d < 36, c = digit d := by
  have halphabet : alphabet = (List.range 36).map digit := by decide
  rw [halphabet, List.mem_map]
  simp only [List.mem_range, eq_comm]

theorem place_digit : ∀ d < 36, place (digit d) = d := by
  decide

section
variable {digits : List Nat} (h : ∀ d ∈ digits, d < 36)
include h

theorem map_place_digits : (digits.map digit).map place = digits := by
  have hplace : digits.map (place ∘ digit) = digits.map id :=
    List.map_congr_left fun d hd => place_digit d (h d hd)
  rw [List.map_map, hplace, List.map_id]

theorem value_digits : Numeral.value 36 (digits.map digit) = positional 36 digits := by
  have hvalue : digits.map (digitValue ∘ digit) = digits.map id :=
    List.map_congr_left fun d hd => Numeral.digitValue_digit d (h d hd)
  rw [Numeral.value, ← List.foldl_map, List.map_map, hvalue, List.map_id, foldl_eq_positional]

end

/-! ## Numerals -/

theorem value_numeral (n : Nat) : Numeral.value 36 (numeral 36 n) = n :=
  Numeral.value_numeral (by decide) (by decide) n

theorem isBase36_numeral (n : Nat) : IsBase36 n (numeral 36 n) := by
  refine ⟨Numeral.numeral_ne_nil 36 n, ?_, ?_, ?_⟩
  · intro c hc
    exact mem_alphabet_iff.2 (Numeral.exists_digit_of_mem (by decide) hc)
  · intro hzero
    obtain ⟨cs, hcs⟩ := List.head?_eq_some_iff.1 hzero
    rw [hcs, Numeral.eq_nil_of_numeral_eq_zero_cons (by decide) (by decide) hcs]
  · obtain ⟨k, ks, hdigits, hlt, -⟩ :=
      (Numeral.exists_numeral_iff (show 2 ≤ 36 by decide) _).1 ⟨n, rfl⟩
    rw [hdigits, map_place_digits hlt, ← value_digits hlt, ← hdigits, value_numeral]

/-- A text that has the form of a numeral is one, and its value tells of which number. -/
theorem IsBase36.eq_numeral {n : Nat} {text : List Char} (h : IsBase36 n text) :
    text = numeral 36 n := by
  obtain ⟨ks, rfl, hlt⟩ :=
    Numeral.exists_digits fun c hc => mem_alphabet_iff.1 (h.mem_alphabet c hc)
  have hvalue := h.value
  cases ks with
  | nil => exact absurd rfl h.ne_nil
  | cons k ks =>
    have hleading : k = 0 → ks = [] := by
      rintro rfl
      exact List.map_eq_nil_iff.1 (List.cons.inj (h.leading rfl)).2
    obtain ⟨m, hm⟩ := (Numeral.exists_numeral_iff (by decide) _).2 ⟨k, ks, rfl, hlt, hleading⟩
    rw [map_place_digits hlt, ← value_digits hlt, hm, value_numeral] at hvalue
    rw [hm, hvalue]

theorem isBase36_iff {n : Nat} {text : List Char} : IsBase36 n text ↔ text = numeral 36 n := by
  constructor
  · exact IsBase36.eq_numeral
  · rintro rfl
    exact isBase36_numeral n

theorem numeral_inj {n m : Nat} : numeral 36 n = numeral 36 m ↔ n = m := by
  constructor
  · intro h
    have hvalue := congrArg (Numeral.value 36) h
    rwa [value_numeral, value_numeral] at hvalue
  · rintro rfl
    rfl

/-! ## Digests -/

theorem bigEndian_inj {bytes bytes' : Bytes} (hlength : bytes.length = bytes'.length) :
    bigEndian bytes = bigEndian bytes' ↔ bytes = bytes' := by
  constructor
  · intro h
    have hlt : ∀ bytes : Bytes, ∀ d ∈ (bytes.map UInt8.toNat).reverse, d < 256 := by
      intro bytes d hd
      obtain ⟨b, -, rfl⟩ := List.mem_map.1 (List.mem_reverse.1 hd)
      exact b.toNat_lt
    have hreverse := Nat.ofDigits_inj_of_len_eq (by decide) (by simpa using hlength)
      (hlt bytes) (hlt bytes') h
    exact (List.map_inj_right fun _ _ => UInt8.toNat_inj.1).1 (List.reverse_inj.1 hreverse)
  · rintro rfl
    rfl

theorem isBase36_base36_iff {digest : Bytes} {text : List Char} :
    IsBase36 (bigEndian digest) text ↔ text = base36 digest := by
  rw [isBase36_iff, base36, ofBytes_eq_bigEndian]

theorem base36_inj {digest digest' : Bytes} (hlength : digest.length = digest'.length) :
    base36 digest = base36 digest' ↔ digest = digest' := by
  rw [base36, base36, numeral_inj, ofBytes_eq_bigEndian, ofBytes_eq_bigEndian,
    bigEndian_inj hlength]

/-- **Hashes in base 36.** The hash of a name is the one canonical numeral of the number that the 20
bytes of its digest denote together, and two names have the same hash if and only if they have the
same digest. No more is needed of a digest than its length: this holds of any 20 bytes, zeros in
front included. -/
theorem isBase36_sha1Base36 :
    (∀ name, (Digest.sha1 (Text.toBytes name)).length = 20 ∧
      ∀ text, IsBase36 (bigEndian (Digest.sha1 (Text.toBytes name))) text ↔
        text = sha1Base36 name) ∧
    (∀ name name', sha1Base36 name = sha1Base36 name' ↔
      Digest.sha1 (Text.toBytes name) = Digest.sha1 (Text.toBytes name')) ∧
    ∀ digest digest' : Vector UInt8 20,
      (∀ text, IsBase36 (bigEndian digest.toList) text ↔ text = base36 digest.toList) ∧
      (base36 digest.toList = base36 digest'.toList ↔ digest = digest') := by
  refine ⟨fun name => ⟨Digest.sha1_length _, fun text => ?_⟩, fun name name' => ?_,
    fun digest digest' => ⟨fun text => isBase36_base36_iff, ?_⟩⟩
  · rw [sha1Base36_eq, isBase36_base36_iff]
  · have hlength : (Digest.sha1 (Text.toBytes name)).length
        = (Digest.sha1 (Text.toBytes name')).length := by
      rw [Digest.sha1_length, Digest.sha1_length]
    rw [sha1Base36_eq, sha1Base36_eq, base36_inj hlength]
  · rw [base36_inj (by simp), Vector.toList_inj]

/-- Bytes are no digits: 256 is seven times 36 and 4. -/
example : base36 (List.replicate 18 0 ++ [1, 0]) = "74".toList := by
  cbv

end McpCatalog.Hash
