/-!
# Blank characters

The Unicode property `White_Space` as a table of code point ranges, and what is
left of a text without the blanks at its two ends.

Results:
* `trimStart_cons_ne_blank`, `isBlank_head_trimStart`: what is left starts with
  no blank.
* `trimStart_idem`: trimming the start twice changes nothing.
-/
namespace McpCatalog.Text

/-- The ranges of code points with the property `White_Space`. -/
def blankRanges : List (Nat × Nat) :=
  [(0x09, 0x0D), (0x20, 0x20), (0x85, 0x85), (0xA0, 0xA0), (0x1680, 0x1680),
   (0x2000, 0x200A), (0x2028, 0x2029), (0x202F, 0x202F), (0x205F, 0x205F), (0x3000, 0x3000)]

def isBlank (c : Char) : Bool :=
  blankRanges.any fun r => decide (r.1 ≤ c.toNat) && decide (c.toNat ≤ r.2)

def trimStart (cs : List Char) : List Char :=
  cs.dropWhile isBlank

def trimEnd (cs : List Char) : List Char :=
  (trimStart cs.reverse).reverse

/-- The text without the blanks at its two ends. -/
def trim (cs : List Char) : List Char :=
  trimEnd (trimStart cs)

/-! ## What trimming leaves -/

theorem trimStart_cons_of_blank {c : Char} {cs : List Char} (h : isBlank c = true) :
    trimStart (c :: cs) = trimStart cs := by
  simp [trimStart, h]

theorem trimStart_cons_ne_blank {c : Char} {cs : List Char} (h : isBlank c = false) :
    trimStart (c :: cs) = c :: cs := by
  simp [trimStart, h]

theorem isBlank_head_trimStart (cs : List Char) :
    ∀ c ∈ (trimStart cs).head?, isBlank c = false := by
  induction cs with
  | nil => simp [trimStart]
  | cons c cs ih =>
    cases h : isBlank c with
    | true => rw [trimStart_cons_of_blank h]; exact ih
    | false => rw [trimStart_cons_ne_blank h]; simpa using h

theorem trimStart_idem (cs : List Char) : trimStart (trimStart cs) = trimStart cs := by
  induction cs with
  | nil => rfl
  | cons c cs ih =>
    cases h : isBlank c with
    | true => rw [trimStart_cons_of_blank h]; exact ih
    | false => rw [trimStart_cons_ne_blank h, trimStart_cons_ne_blank h]

end McpCatalog.Text
