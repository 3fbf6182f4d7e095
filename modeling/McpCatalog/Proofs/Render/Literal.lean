import McpCatalog.Proofs.Json.Token
import McpCatalog.Proofs.Render.Declaration
/-!
# Reading string literals

A literal is read one character after the other. A backslash starts an escape: a letter or a mark
behind it, or a code point in braces, of one to six hexadecimal digits. The first double quote that
is not escaped ends the literal. Literals are written with these escapes only, so the others of the
language are not read.

Results:
* `scan?_literalChar`: a character is read as it was before it was escaped.
* `literal?_literal`: so is a text, whatever comes behind its literal.
* `bareQuotes_literal`: only the first and the last character are quotes that are not escaped.
-/
namespace McpCatalog.Render

/-! ## The reader -/

/-- The character that stands behind a backslash in place of another one. -/
def unescaped? (c : Char) : Option Char :=
  match c with
  | 't' => some '\t'
  | 'r' => some '\r'
  | 'n' => some '\n'
  | '\'' => some '\''
  | '"' => some '"'
  | '\\' => some '\\'
  | _ => none

/-- The number that hexadecimal digits denote. -/
def hexValue? (digits : List Char) : Option Nat :=
  digits.foldlM (fun n c => (Toml.digitValue? 16 c).map (16 * n + ·)) 0

/-- The character with a code point. There can be underscores behind the first digit. -/
def codePoint? (code : List Char) : Option Char :=
  let digits := code.filter (· != '_')
  if code.head? = some '_' ∨ digits = [] ∨ 6 < digits.length then none
  else (hexValue? digits).bind Toml.char?

/-- Where in a literal the next character stands. -/
inductive Mode where
  | text
  /-- Behind a backslash. -/
  | escape
  /-- In front of the brace that opens a code point. -/
  | brace
  /-- Behind some characters of a code point. -/
  | code (read : List Char)

/-- Reads up to the quote that ends a literal; gives what comes after it as well. A carriage return
cannot stand in a literal. -/
def scan? : Mode → List Char → Option (List Char × List Char)
  | _, [] => none
  | .text, c :: rest =>
    if c = '"' then some ([], rest)
    else if c = '\\' then scan? .escape rest
    else if c = '\r' then none
    else (scan? .text rest).map (Prod.map (c :: ·) id)
  | .escape, c :: rest =>
    if c = 'u' then scan? .brace rest
    else (unescaped? c).bind fun d => (scan? .text rest).map (Prod.map (d :: ·) id)
  | .brace, c :: rest => if c = '\x7b' then scan? (.code []) rest else none
  | .code read, c :: rest =>
    if c = '\x7d' then
      (codePoint? read).bind fun d => (scan? .text rest).map (Prod.map (d :: ·) id)
    else scan? (.code (read ++ [c])) rest

/-- The text of the literal in front, and what comes after the literal. -/
def literal? : List Char → Option (String × List Char)
  | '"' :: rest => (scan? .text rest).map (Prod.map String.ofList id)
  | _ => none

/-- The text of a literal that stands alone. -/
def value? (text : String) : Option String :=
  (literal? text.toList).bind fun r => if r.2 = [] then some r.1 else none

/-- The places of the double quotes with no backslash that escapes them. -/
def bareQuotes (place : Nat) : List Char → List Nat
  | '\\' :: _ :: rest => bareQuotes (place + 2) rest
  | c :: rest =>
    if c = '"' then place :: bareQuotes (place + 1) rest else bareQuotes (place + 1) rest
  | [] => []

/-! ## Code points -/

theorem hexValue?_numeral (n : Nat) : hexValue? (Numeral.numeral 16 n) = some n := by
  induction n using Nat.strongRecOn with
  | ind n ih =>
    rcases Nat.lt_or_ge n 16 with h | h
    · rw [Numeral.numeral_of_lt h]
      simp [hexValue?, Json.digitValue?_digit n h]
    · have hfront := ih (n / 16) (by omega)
      have hlast := Json.digitValue?_digit (n % 16) (by omega)
      unfold hexValue? at hfront ⊢
      rw [Numeral.numeral_of_le (by decide) h, List.foldlM_append, hfront]
      simp [hlast, Nat.div_add_mod]

theorem length_numeral_le (n : Nat) :
    (Numeral.numeral 16 n).length ≤ (Numeral.numeral 16 (n / 16)).length + 1 := by
  rcases Nat.lt_or_ge n 16 with h | h
  · rw [Numeral.numeral_of_lt h]
    simp
  · rw [Numeral.numeral_of_le (by decide) h]
    simp

/-- Six digits are enough for all code points. -/
theorem length_numeral_toNat (c : Char) : (Numeral.numeral 16 c.toNat).length ≤ 6 := by
  have hvalid : c.toNat < 0xD800 ∨ 0xDFFF < c.toNat ∧ c.toNat < 0x110000 := c.valid
  have hone : (Numeral.numeral 16 (c.toNat / 16 / 16 / 16 / 16 / 16)).length = 1 := by
    rw [Numeral.numeral_of_lt (by omega)]
    rfl
  have h₁ := length_numeral_le c.toNat
  have h₂ := length_numeral_le (c.toNat / 16)
  have h₃ := length_numeral_le (c.toNat / 16 / 16)
  have h₄ := length_numeral_le (c.toNat / 16 / 16 / 16)
  have h₅ := length_numeral_le (c.toNat / 16 / 16 / 16 / 16)
  omega

/-- A digit is neither an underscore nor a mark of the language. -/
theorem digit_plain :
    ∀ d < 16, (['_', '"', '\\', '\x7d'].all fun c => Numeral.digit d != c) = true := by
  decide

theorem ne_of_mem_numeral {n : Nat} {c d : Char} (hc : c ∈ Numeral.numeral 16 n)
    (hd : d ∈ ['_', '"', '\\', '\x7d']) : c ≠ d := by
  obtain ⟨k, hk, rfl⟩ := Numeral.exists_digit_of_mem (by decide) hc
  exact bne_iff_ne.1 (List.all_eq_true.1 (digit_plain k hk) d hd)

theorem codePoint?_numeral (c : Char) : codePoint? (Numeral.numeral 16 c.toNat) = some c := by
  have hfilter : (Numeral.numeral 16 c.toNat).filter (· != '_') = Numeral.numeral 16 c.toNat :=
    List.filter_eq_self.2 fun d hd => bne_iff_ne.2 (ne_of_mem_numeral hd (by decide))
  have hhead : (Numeral.numeral 16 c.toNat).head? ≠ some '_' := by
    intro h
    exact ne_of_mem_numeral (List.mem_of_head? h) (by decide) rfl
  have hlength := length_numeral_toNat c
  unfold codePoint?
  dsimp only
  rw [hfilter, if_neg, hexValue?_numeral, Option.bind_some, Json.char?_toNat]
  rintro (h | h | h)
  · exact hhead h
  · exact Numeral.numeral_ne_nil 16 _ h
  · omega

/-! ## Literals -/

theorem scan?_code {code : List Char} (h : '\x7d' ∉ code) (read rest : List Char) :
    scan? (.code read) (code ++ '\x7d' :: rest)
      = (codePoint? (read ++ code)).bind fun d =>
          (scan? .text rest).map (Prod.map (d :: ·) id) := by
  induction code generalizing read with
  | nil => rw [List.nil_append, scan?, if_pos rfl, List.append_nil]
  | cons c code ih =>
    have hc : c ≠ '\x7d' := fun heq => h (heq ▸ List.mem_cons_self)
    rw [List.cons_append, scan?, if_neg hc, ih fun hmem => h (List.mem_cons_of_mem _ hmem),
      List.append_assoc, List.singleton_append]

/-- A character is read as it was before it was escaped. -/
theorem scan?_literalChar (c : Char) (rest : List Char) :
    scan? .text (literalChar c ++ rest) = (scan? .text rest).map (Prod.map (c :: ·) id) := by
  unfold literalChar
  split
  case h_7 _ _ hreturn _ _ hquote hbackslash =>
    split
    · rw [List.singleton_append, scan?, if_neg hquote, if_neg hbackslash, if_neg hreturn]
    · have hclose : '\x7d' ∉ Numeral.numeral 16 c.toNat := fun hmem =>
        ne_of_mem_numeral hmem (by decide) rfl
      have hcode := scan?_code hclose [] rest
      rw [List.nil_append, codePoint?_numeral, Option.bind_some] at hcode
      rw [← hcode, List.cons_append, List.cons_append, List.cons_append, List.append_assoc]
      rfl
  all_goals rfl

theorem scan?_literal (cs rest : List Char) :
    scan? .text (cs.flatMap literalChar ++ '"' :: rest) = some (cs, rest) := by
  induction cs with
  | nil => rw [List.flatMap_nil, List.nil_append, scan?, if_pos rfl]
  | cons c cs ih =>
    rw [List.flatMap_cons, List.append_assoc, scan?_literalChar, ih]
    rfl

/-- A text is read back from its literal, whatever comes behind. -/
theorem literal?_literal (s : String) (rest : List Char) :
    literal? ((literal s).toList ++ rest) = some (s, rest) := by
  rw [literal, String.toList_ofList, List.cons_append, List.append_assoc, List.singleton_append,
    literal?, scan?_literal]
  simp

theorem value?_literal (s : String) : value? (literal s) = some s := by
  have hread := literal?_literal s []
  rw [List.append_nil] at hread
  rw [value?, hread]
  rfl

example : value? "\"\\u\x7bE_9\x7d\\\"\"" = some "\u00e9\"" := by
  decide +kernel

example : ["\"\"\"", "\"\\\"", "\"\\u\x7bD800\x7d\"", "\"\\u\x7b\x7d\""].all
    (fun text => (value? text).isNone) = true := by
  decide +kernel

/-! ## Quotes -/

theorem bareQuotes_append {cs : List Char} (h : ∀ c ∈ cs, c ≠ '"' ∧ c ≠ '\\') (place : Nat)
    (rest : List Char) : bareQuotes place (cs ++ rest) = bareQuotes (place + cs.length) rest := by
  induction cs generalizing place with
  | nil => rfl
  | cons c cs ih =>
    obtain ⟨hquote, hbackslash⟩ := h c List.mem_cons_self
    have hstep : bareQuotes place (c :: (cs ++ rest)) = bareQuotes (place + 1) (cs ++ rest) := by
      rw [bareQuotes, if_neg hquote]
      exact fun _ _ heq _ => hbackslash heq
    rw [List.cons_append, hstep, ih (fun d hd => h d (List.mem_cons_of_mem _ hd)), List.length_cons,
      Nat.add_assoc, Nat.add_comm 1]

/-- In the place of one character there is no quote that is not escaped. -/
theorem bareQuotes_literalChar (c : Char) (place : Nat) (rest : List Char) :
    bareQuotes place (literalChar c ++ rest)
      = bareQuotes (place + (literalChar c).length) rest := by
  unfold literalChar
  split
  case h_7 _ _ _ _ _ hquote hbackslash =>
    split
    · have hplain : ∀ d ∈ [c], d ≠ '"' ∧ d ≠ '\\' :=
        List.forall_mem_singleton.2 ⟨hquote, hbackslash⟩
      exact bareQuotes_append hplain place rest
    · have hplain : ∀ d ∈ '\x7b' :: (Numeral.numeral 16 c.toNat ++ ['\x7d']),
          d ≠ '"' ∧ d ≠ '\\' := by
        intro d hd
        rw [List.mem_cons, List.mem_append, List.mem_singleton] at hd
        rcases hd with rfl | hd | rfl
        · decide
        · exact ⟨ne_of_mem_numeral hd (by decide), ne_of_mem_numeral hd (by decide)⟩
        · decide
      have hcode := bareQuotes_append hplain (place + 2) rest
      rw [Nat.add_assoc, Nat.add_comm 2] at hcode
      exact hcode
  all_goals rfl

theorem bareQuotes_body (cs : List Char) (place : Nat) (rest : List Char) :
    bareQuotes place (cs.flatMap literalChar ++ rest)
      = bareQuotes (place + (cs.flatMap literalChar).length) rest := by
  induction cs generalizing place with
  | nil => rfl
  | cons c cs ih =>
    rw [List.flatMap_cons, List.append_assoc, bareQuotes_literalChar, ih, List.length_append,
      Nat.add_assoc]

/-- Only the first and the last character are quotes that are not escaped. -/
theorem bareQuotes_literal (s : String) :
    bareQuotes 0 (literal s).toList = [0, (literal s).toList.length - 1] := by
  have hlength : (literal s).toList.length = (s.toList.flatMap literalChar).length + 2 := by
    rw [literal, String.toList_ofList]
    simp
  have hbody := bareQuotes_body s.toList 1 ['"']
  rw [hlength, literal, String.toList_ofList]
  simp [bareQuotes, hbody]
  omega

end McpCatalog.Render
