import McpCatalog.Numeral
/-!
# Which texts are numerals

A text is a numeral in a base from 2 on if it consists of digits of the base, at
least one, and starts with the digit zero only where nothing follows.

Results:
* `exists_numeral_iff`: these conditions say exactly what `numeral` writes.
* `exists_digit_of_mem`: a numeral has nothing but digits of its base.
* `eq_nil_of_numeral_eq_zero_cons`: a numeral has no zeros in front.
* `value_numeral`: a numeral denotes the number that it was written for.
* `decimal_natCast`: the numeral in base 10 is the one that `toString` writes.
* `exists_zeros`: digits are a numeral behind zeros.
-/
namespace McpCatalog.Numeral

/-- The numeral of a positive number starts with a digit other than zero. -/
theorem numeral_of_pos {base : Nat} (hb : 2 ≤ base) (n : Nat) (hn : 0 < n) :
    ∃ k ks, numeral base n = (k :: ks).map digit ∧ 0 < k ∧ ∀ j ∈ k :: ks, j < base := by
  induction n using Nat.strongRecOn with
  | ind n ih =>
    rcases Nat.lt_or_ge n base with h | h
    · exact ⟨n, [], numeral_of_lt h, hn, by simpa using h⟩
    · have hq : 0 < n / base := Nat.div_pos h (by omega)
      obtain ⟨k, ks, he, hk, hks⟩ := ih (n / base) (Nat.div_lt_self hn (by omega)) hq
      refine ⟨k, ks ++ [n % base], ?_, hk, ?_⟩
      · rw [numeral_of_le hb h, he]
        simp
      · intro j hj
        rw [← List.cons_append, List.mem_append, List.mem_singleton] at hj
        rcases hj with hj | rfl
        · exact hks j hj
        · exact Nat.mod_lt n (by omega)

/-- Digits that do not start with zero are the numeral of a positive number. -/
theorem exists_numeral_of_digits {base : Nat} (hb : 2 ≤ base) (k : Nat) (hk : 0 < k) (ks : List Nat)
    (h : ∀ j ∈ k :: ks, j < base) : ∃ n, 0 < n ∧ (k :: ks).map digit = numeral base n := by
  -- a numeral grows at its end, so the digits are taken from the back
  induction hl : ks.length generalizing ks with
  | zero =>
    obtain rfl := List.eq_nil_of_length_eq_zero hl
    exact ⟨k, hk, (numeral_of_lt (h k List.mem_cons_self)).symm⟩
  | succ l ih =>
    have hne : ks ≠ [] := by rintro rfl; simp at hl
    obtain ⟨init, j, rfl⟩ : ∃ init j, ks = init ++ [j] :=
      ⟨_, _, (List.dropLast_concat_getLast hne).symm⟩
    have hinit : ∀ i ∈ k :: init, i < base := fun i hi => h i (by
      rw [← List.cons_append]
      exact List.mem_append_left _ hi)
    have hj : j < base := h j (by simp)
    obtain ⟨n, hn, he⟩ := ih init hinit (by simpa using hl)
    have hle : base ≤ base * n + j := Nat.le_add_right_of_le (Nat.le_mul_of_pos_right base hn)
    refine ⟨base * n + j, by omega, ?_⟩
    rw [numeral_of_le hb hle, Nat.mul_add_div (by omega), Nat.div_eq_of_lt hj, Nat.mul_add_mod,
      Nat.mod_eq_of_lt hj, Nat.add_zero, ← he]
    simp

/-- **Numerals.** A text is the numeral of some number if and only if it consists of digits of
the base, at least one, and starts with zero only if zero is all there is. -/
theorem exists_numeral_iff {base : Nat} (hb : 2 ≤ base) (cs : List Char) :
    (∃ n, cs = numeral base n) ↔
      ∃ k ks, cs = (k :: ks).map digit ∧ (∀ j ∈ k :: ks, j < base) ∧ (k = 0 → ks = []) := by
  constructor
  · rintro ⟨n, rfl⟩
    rcases Nat.eq_zero_or_pos n with rfl | hn
    · exact ⟨0, [], numeral_of_lt (by omega), by simp; omega, fun _ => rfl⟩
    · obtain ⟨k, ks, he, hk, hks⟩ := numeral_of_pos hb n hn
      exact ⟨k, ks, he, hks, fun h0 => absurd h0 (by omega)⟩
  · rintro ⟨k, ks, rfl, hks, h0⟩
    rcases Nat.eq_zero_or_pos k with rfl | hk
    · obtain rfl := h0 rfl
      exact ⟨0, (numeral_of_lt (by omega)).symm⟩
    · obtain ⟨n, -, he⟩ := exists_numeral_of_digits hb k hk ks hks
      exact ⟨n, he⟩

theorem exists_digit_of_mem {base n : Nat} (hb : 2 ≤ base) {c : Char} (h : c ∈ numeral base n) :
    ∃ d < base, c = digit d := by
  obtain ⟨k, ks, hdigits, hlt, -⟩ := (exists_numeral_iff hb _).1 ⟨n, rfl⟩
  rw [hdigits] at h
  obtain ⟨d, hd, rfl⟩ := List.mem_map.1 h
  exact ⟨d, hlt d hd, rfl⟩

/-- A numeral has no zeros in front. -/
theorem eq_nil_of_numeral_eq_zero_cons {base n : Nat} (hb : 2 ≤ base) (hb' : base ≤ 36)
    {cs : List Char} (h : numeral base n = '0' :: cs) : cs = [] := by
  obtain ⟨k, ks, hdigits, hlt, hnil⟩ := (exists_numeral_iff hb _).1 ⟨n, rfl⟩
  have hdigit_eq_zero : ∀ d < 36, digit d = '0' → d = 0 := by decide
  rw [hdigits, List.map_cons] at h
  obtain ⟨hfirst, hrest⟩ := List.cons.inj h
  have hk : k < 36 := Nat.lt_of_lt_of_le (hlt k List.mem_cons_self) hb'
  rw [← hrest, hnil (hdigit_eq_zero k hk hfirst), List.map_nil]

theorem exists_digits {base : Nat} {cs : List Char} (h : ∀ c ∈ cs, ∃ j < base, c = digit j) :
    ∃ ks : List Nat, cs = ks.map digit ∧ ∀ j ∈ ks, j < base := by
  induction cs with
  | nil => exact ⟨[], rfl, by simp⟩
  | cons c cs ih =>
    obtain ⟨k, hk, rfl⟩ := h c List.mem_cons_self
    obtain ⟨ks, rfl, hks⟩ := ih fun d hd => h d (List.mem_cons_of_mem _ hd)
    exact ⟨k :: ks, rfl, by simpa using ⟨hk, hks⟩⟩

/-! ## Values -/

/-- The value of a digit. -/
def digitValue (c : Char) : Nat :=
  if c.isDigit then c.toNat - 0x30 else c.toNat - 0x61 + 10

/-- The number that digits denote, most significant digit first. -/
def value (base : Nat) (cs : List Char) : Nat :=
  cs.foldl (fun n c => base * n + digitValue c) 0

theorem digitValue_digit : ∀ d < 36, digitValue (digit d) = d := by
  decide

theorem value_numeral {base : Nat} (hb : 2 ≤ base) (hb' : base ≤ 36) (n : Nat) :
    value base (numeral base n) = n := by
  induction n using Nat.strongRecOn with
  | ind n ih =>
    rcases Nat.lt_or_ge n base with h | h
    · rw [numeral_of_lt h, value, List.foldl_cons, List.foldl_nil, digitValue_digit n (by omega),
        Nat.mul_zero, Nat.zero_add]
    · have hlast : n % base < 36 := Nat.lt_of_lt_of_le (Nat.mod_lt n (by omega)) hb'
      have hfront := ih (n / base) (Nat.div_lt_self (by omega) (by omega))
      unfold value at hfront ⊢
      rw [numeral_of_le hb h, List.foldl_append, hfront, List.foldl_cons, List.foldl_nil,
        digitValue_digit _ hlast, Nat.div_add_mod]

/-! ## Digits in base 10 -/

theorem isDigit_digit : ∀ d < 10, (digit d).isDigit = true := by
  decide

theorem isDigit_of_mem {n : Nat} {c : Char} (h : c ∈ numeral 10 n) : c.isDigit = true := by
  obtain ⟨d, hd, rfl⟩ := exists_digit_of_mem (by omega) h
  exact isDigit_digit d hd

theorem exists_digits_numeral (n : Nat) :
    ∃ k ks, numeral 10 n = (k :: ks).map digit ∧ (∀ j ∈ k :: ks, j < 10) ∧ (k = 0 → ks = []) :=
  (exists_numeral_iff (by omega) _).1 ⟨n, rfl⟩

theorem numeral_ne_zero_cons (n : Nat) (c : Char) (cs : List Char) :
    numeral 10 n ≠ '0' :: c :: cs := by
  intro h
  cases eq_nil_of_numeral_eq_zero_cons (by decide) (by decide) h

theorem exists_cons_numeral (n : Nat) : ∃ c cs, numeral 10 n = c :: cs ∧ c.isDigit = true := by
  obtain ⟨c, cs, hn⟩ := List.exists_cons_of_ne_nil (numeral_ne_nil 10 n)
  exact ⟨c, cs, hn, isDigit_of_mem (n := n) (hn ▸ List.mem_cons_self)⟩

theorem digitChar_eq : ∀ d < 10, Nat.digitChar d = digit d := by
  decide

theorem toDigits_eq (n : Nat) : Nat.toDigits 10 n = numeral 10 n := by
  induction n using Nat.strongRecOn with
  | ind n ih =>
    rcases Nat.lt_or_ge n 10 with h | h
    · rw [Nat.toDigits_of_lt_base h, numeral_of_lt h, digitChar_eq n h]
    · rw [Nat.toDigits_of_base_le (by omega) h, numeral_of_le (by omega) h, ih _ (by omega),
        digitChar_eq _ (Nat.mod_lt n (by omega))]

/-- A number in base 10 is written as it is shown. -/
theorem decimal_natCast (n : Nat) : decimal n = toString n := by
  show String.ofList (numeral 10 n) = String.ofList (Nat.toDigits 10 n)
  rw [toDigits_eq]

theorem toList_decimal (n : Nat) : (decimal n).toList = numeral 10 n :=
  String.toList_ofList

theorem exists_digit {c : Char} (h : c.isDigit = true) : ∃ d < 10, c = digit d := by
  have hbounds : 48 ≤ c.toNat ∧ c.toNat ≤ 57 := by
    simpa [Char.isDigit, UInt32.le_iff_toNat_le] using h
  refine ⟨c.toNat - 48, by omega, ?_⟩
  rw [digit, if_pos (by omega), show 0x30 + (c.toNat - 48) = c.toNat by omega, Char.ofNat_toNat]

theorem exists_zeros {cs : List Char} (hne : cs ≠ []) (h : ∀ c ∈ cs, c.isDigit = true) :
    ∃ zeros n, cs = List.replicate zeros '0' ++ numeral 10 n := by
  obtain ⟨ks, rfl, hlt⟩ := exists_digits fun c hc => exists_digit (h c hc)
  induction ks with
  | nil => exact absurd rfl hne
  | cons k ks ih =>
    have hks : ∀ j ∈ ks, j < 10 := fun j hj => hlt j (List.mem_cons_of_mem _ hj)
    rcases Nat.eq_zero_or_pos k with rfl | hpos
    · by_cases hnil : ks = []
      · subst hnil
        exact ⟨0, 0, by rw [numeral_of_lt (by omega)]; rfl⟩
      · obtain ⟨zeros, n, hn⟩ := ih hks (by simpa using hnil)
          fun c hc => h c (List.mem_cons_of_mem _ hc)
        exact ⟨zeros + 1, n, by rw [List.map_cons, hn]; rfl⟩
    · obtain ⟨n, -, hn⟩ := exists_numeral_of_digits (by omega) k hpos ks hlt
      exact ⟨0, n, hn⟩

theorem value_zeros (zeros n : Nat) :
    value 10 (List.replicate zeros '0' ++ numeral 10 n) = n := by
  induction zeros with
  | zero => exact value_numeral (by omega) (by omega) n
  | succ zeros ih => exact ih

end McpCatalog.Numeral
