/-!
# Positional numerals

Numerals of natural numbers in a base from 2 to 36, with the digits `0` to `9` and
then `a` to `z`, most significant digit first and no leading zero, and the number
that bytes denote when the first byte is the most significant.

Results:
* `numeral_of_lt`, `numeral_of_le`: the last digit is the remainder, the digits
  before it are the numeral of the quotient.
* `numeral_ne_nil`: a numeral has at least one digit.
-/
namespace McpCatalog.Numeral

/-- The digit of value `d`, for `d` below 36. -/
def digit (d : Nat) : Char :=
  if d < 10 then Char.ofNat (0x30 + d) else Char.ofNat (0x61 + (d - 10))

/-- The numeral of `n` in base `base`, which is at least 2. -/
def numeral (base n : Nat) : List Char :=
  if 2 ≤ base ∧ base ≤ n then numeral base (n / base) ++ [digit (n % base)] else [digit n]
termination_by n
decreasing_by exact Nat.div_lt_self (by omega) (by omega)

/-- A whole number in base 10, with a minus sign in front if it is negative. -/
def decimal : Int → String
  | .ofNat n => String.ofList (numeral 10 n)
  | .negSucc n => String.ofList ('-' :: numeral 10 (n + 1))

/-- The number that the bytes denote, most significant byte first. -/
def ofBytes (bytes : List UInt8) : Nat :=
  bytes.foldl (fun n b => n * 256 + b.toNat) 0

/-- Two hexadecimal digits for each byte.
mirrors core/hashing:82-90 (`hex_encode`) -/
def hex (bytes : List UInt8) : List Char :=
  bytes.flatMap fun b => [digit (b.toNat / 16), digit (b.toNat % 16)]

theorem numeral_of_lt {base n : Nat} (h : n < base) : numeral base n = [digit n] := by
  rw [numeral, if_neg (by omega)]

theorem numeral_of_le {base n : Nat} (hb : 2 ≤ base) (h : base ≤ n) :
    numeral base n = numeral base (n / base) ++ [digit (n % base)] := by
  rw [numeral, if_pos ⟨hb, h⟩]

theorem numeral_ne_nil (base n : Nat) : numeral base n ≠ [] := by
  rw [numeral]
  split <;> simp

end McpCatalog.Numeral
