import Mathlib.Data.List.TakeWhile
import McpCatalog.Proofs.Numeral
import McpCatalog.Toml.Document
/-!
# Documents with an entry on each line

An entry is a key without quotes with a string or a natural number: a string between double quotes,
with a backslash in front of each quote and backslash in it, or a numeral. A document of such
entries under different keys is read as the table of them.

Results:
* `readBasic_quoted`, `integer?_numeral`: strings and numbers are read as they were before they were
  written.
* `readStatement?_line`: so is an entry, which is added to the table.
* `parse?_of_lines`: and so is a document.
-/
namespace McpCatalog.Toml

/-! ## Strings -/

/-- A control character: they are the code points below `20` and from `7F` to `9F`. -/
def isControl (c : Char) : Bool :=
  decide (c.toNat < 0x20) || (decide (0x7F ≤ c.toNat) && decide (c.toNat ≤ 0x9F))

/-- A character of a string as it is written. -/
def escaped (c : Char) : List Char :=
  if c = '"' ∨ c = '\\' then ['\\', c] else [c]

def quoted (cs : List Char) : List Char :=
  '"' :: (cs.flatMap escaped ++ ['"'])

theorem isText_of_not_control {c : Char} (h : isControl c = false) : isText c = true := by
  simp [isControl, isText] at h ⊢
  omega

theorem readBasic_escaped {c : Char} (h : isControl c = false) (back rest : List Char) :
    readBasic .plain back (escaped c ++ rest) = readBasic .plain (c :: back) rest := by
  unfold escaped
  by_cases hquote : c = '"'
  · subst hquote
    rfl
  · by_cases hslash : c = '\\'
    · subst hslash
      rfl
    · rw [if_neg (by simp [hquote, hslash])]
      exact readBasic_plain (isText_of_not_control h) hquote hslash

theorem readBasic_quoted {cs : List Char} (h : ∀ c ∈ cs, isControl c = false)
    (back rest : List Char) :
    readBasic .plain back (cs.flatMap escaped ++ '"' :: rest)
      = some (back.reverse ++ cs, rest) := by
  induction cs generalizing back with
  | nil => simp [readBasic]
  | cons c cs ih =>
    rw [List.flatMap_cons, List.append_assoc, readBasic_escaped (h c List.mem_cons_self),
      ih fun d hd => h d (List.mem_cons_of_mem _ hd)]
    simp

theorem readString?_of_one_quote {cs : List Char} (h : ∀ rest, cs ≠ '"' :: '"' :: rest) :
    readString? ('"' :: cs) = readBasic .plain [] cs := by
  unfold readString?
  split
  · rename_i rest heq
    exact absurd (List.cons.inj heq).2 (h rest)
  · rename_i heq
    cases heq
    rfl
  · rename_i heq
    cases heq
  · rename_i heq
    cases heq
  · rename_i hother _ _
    exact absurd rfl (hother cs)

/-- A string starts with two quotes only if it is empty, and then no third one follows. -/
theorem flatMap_escaped_ne {cs rest : List Char} (hrest : rest.head? ≠ some '"')
    (tail : List Char) : cs.flatMap escaped ++ '"' :: rest ≠ '"' :: '"' :: tail := by
  intro heq
  cases cs with
  | nil =>
    obtain rfl : rest = '"' :: tail := (List.cons.inj heq).2
    exact hrest rfl
  | cons c cs =>
    rw [List.flatMap_cons, List.append_assoc, escaped] at heq
    split at heq
    · cases heq
    · rename_i hplain
      exact hplain (.inl (List.cons.inj heq).1)

theorem readString?_quoted {cs : List Char} (h : ∀ c ∈ cs, isControl c = false)
    {rest : List Char} (hrest : rest.head? ≠ some '"') :
    readString? (quoted cs ++ rest) = some (cs, rest) := by
  have hquoted : quoted cs ++ rest = '"' :: (cs.flatMap escaped ++ '"' :: rest) := by
    simp [quoted]
  rw [hquoted, readString?_of_one_quote (flatMap_escaped_ne hrest)]
  exact readBasic_quoted h [] rest

/-! ## Numbers -/

theorem digitValue?_of_isDigit {c : Char} (h : c.isDigit = true) :
    digitValue? 10 c = some (Numeral.digitValue c) := by
  obtain ⟨d, hd, rfl⟩ := Numeral.exists_digit h
  revert d
  decide

theorem foldlM_digits {cs : List Char} (h : ∀ c ∈ cs, c.isDigit = true) (n : Nat) :
    cs.foldlM (fun n c => (digitValue? 10 c).map (10 * n + ·)) n
      = some (cs.foldl (fun n c => 10 * n + Numeral.digitValue c) n) := by
  induction cs generalizing n with
  | nil => rfl
  | cons c cs ih =>
    rw [List.foldlM_cons, digitValue?_of_isDigit (h c List.mem_cons_self), Option.map_some]
    exact ih (fun d hd => h d (List.mem_cons_of_mem _ hd)) _

theorem digits?_numeral (n : Nat) : digits? 10 (Numeral.numeral 10 n) = some n := by
  have hdigit : ∀ c ∈ Numeral.numeral 10 n, c.isDigit = true := fun _ => Numeral.isDigit_of_mem
  have hunderscore : '_' ∉ Numeral.numeral 10 n := fun hmem => by
    cases hdigit '_' hmem
  have hfilter : (Numeral.numeral 10 n).filter (· != '_') = Numeral.numeral 10 n := by
    rw [List.filter_eq_self]
    intro c hc
    exact bne_iff_ne.2 fun heq => hunderscore (heq ▸ hc)
  rw [digits?, List.splitOn_eq_singleton hunderscore, hfilter, foldlM_digits hdigit]
  have hvalue := @Numeral.value_numeral 10 (by decide) (by decide) n
  rw [Numeral.value] at hvalue
  simp [Numeral.numeral_ne_nil, hvalue]

theorem decimal?_numeral (n : Nat) : decimal? (Numeral.numeral 10 n) = some n := by
  unfold decimal?
  split
  · rename_i c cs heq
    exact absurd heq (Numeral.numeral_ne_zero_cons n c cs)
  · exact digits?_numeral n

theorem integer?_numeral (n : Nat) : integer? (Numeral.numeral 10 n) = some (n : Int) := by
  have hdigit : ∀ {c : Char} {cs : List Char}, Numeral.numeral 10 n = c :: cs → c.isDigit = true :=
    fun h => Numeral.isDigit_of_mem (n := n) (h ▸ List.mem_cons_self)
  unfold integer?
  split
  · rename_i heq
    exact absurd heq (Numeral.numeral_ne_zero_cons n _ _)
  · rename_i heq
    exact absurd heq (Numeral.numeral_ne_zero_cons n _ _)
  · rename_i heq
    exact absurd heq (Numeral.numeral_ne_zero_cons n _ _)
  · rename_i heq
    cases hdigit heq
  · rename_i heq
    cases hdigit heq
  · rw [decimal?_numeral]
    rfl

/-! ## Values -/

/-- A string or a natural number. -/
inductive Scalar where
  | text (s : String)
  | number (n : Nat)

namespace Scalar

def value : Scalar → Value
  | text s => .text s
  | number n => .number n

/-- The characters of a value as it is written. -/
def literal : Scalar → List Char
  | text s => quoted s.toList
  | number n => Numeral.numeral 10 n

/-- There is no control character in a string. -/
def Clean : Scalar → Prop
  | text s => ∀ c ∈ s.toList, isControl c = false
  | number _ => True

end Scalar

/-- The line ends here. -/
def AtEnd (rest : List Char) : Prop :=
  ∀ c ∈ rest.head?, c = '\n'

theorem AtEnd.takeWhile_append {p : Char → Bool} {cs rest : List Char} (h : AtEnd rest)
    (hp : p '\n' = false) (hcs : ∀ c ∈ cs, p c = true) :
    (cs ++ rest).takeWhile p = cs ∧ (cs ++ rest).dropWhile p = rest := by
  rw [List.takeWhile_append_of_pos hcs, List.dropWhile_append_of_pos hcs]
  cases rest with
  | nil => simp
  | cons c rest =>
    obtain rfl := h c rfl
    simp [hp]

theorem readValue?_quoted {cs rest : List Char} (hcs : ∀ c ∈ cs, isControl c = false)
    (h : AtEnd rest) (depth : Nat) :
    readValue? (depth + 1) (quoted cs ++ rest) = some (.text (String.ofList cs), rest) := by
  have hrest : rest.head? ≠ some '"' := fun heq => by cases h '"' heq
  have hread := readString?_quoted hcs hrest
  rw [quoted, List.cons_append] at hread ⊢
  rw [readValue?, hread, Option.map_some]

theorem isBare_of_isDigit {c : Char} (h : c.isDigit = true) : isBare c = true := by
  simp [isBare, Char.isAlphanum, h]

theorem isWord_of_isDigit {c : Char} (h : c.isDigit = true) : isWord c = true := by
  simp [isWord, Char.isAlphanum, h]

theorem readValue?_numeral {rest : List Char} (h : AtEnd rest) (n depth : Nat) :
    readValue? (depth + 1) (Numeral.numeral 10 n ++ rest) = some (.number n, rest) := by
  have hword : ∀ c ∈ Numeral.numeral 10 n, isWord c = true := fun c hc =>
    isWord_of_isDigit (Numeral.isDigit_of_mem hc)
  obtain ⟨htake, hdrop⟩ := h.takeWhile_append rfl hword
  obtain ⟨c, cs, hn, hdigit⟩ := Numeral.exists_cons_numeral n
  rw [hn, List.cons_append] at htake hdrop ⊢
  -- a digit opens neither a string nor a list or table
  rw [readValue?, htake, hdrop, ← hn, integer?_numeral]
  · rfl
  · rintro rest ⟨⟩
    cases hdigit
  · rintro rest ⟨⟩
    cases hdigit
  · rintro rest ⟨⟩
    cases hdigit
  · rintro rest ⟨⟩
    cases hdigit

theorem readValue?_literal {x : Scalar} (hx : x.Clean) {rest : List Char} (h : AtEnd rest)
    (depth : Nat) : readValue? (depth + 1) (x.literal ++ rest) = some (x.value, rest) := by
  cases x with
  | text s =>
    have hread := readValue?_quoted hx h depth
    rwa [String.ofList_toList] at hread
  | number n => exact readValue?_numeral h n depth

/-! ## Entries -/

/-- A key that needs no quotes. -/
structure BareKey (key : String) : Prop where
  ne_nil : key.toList ≠ []
  bare : ∀ c ∈ key.toList, isBare c = true

/-- An entry as it is written. -/
def line (key : String) (x : Scalar) : List Char :=
  key.toList ++ ' ' :: '=' :: ' ' :: x.literal

theorem BareKey.exists_cons {key : String} (h : BareKey key) :
    ∃ c cs, key.toList = c :: cs ∧ isBare c = true := by
  obtain ⟨c, cs, hcs⟩ := List.exists_cons_of_ne_nil h.ne_nil
  exact ⟨c, cs, hcs, h.bare c (hcs ▸ List.mem_cons_self)⟩

theorem readKeyPart?_bare {key : String} (h : BareKey key) (rest : List Char) :
    readKeyPart? (key.toList ++ ' ' :: rest) = some (key, ' ' :: rest) := by
  obtain ⟨c, cs, hcs, hc⟩ := h.exists_cons
  have htake : (key.toList ++ ' ' :: rest).takeWhile isBare = key.toList := by
    rw [List.takeWhile_append_of_pos h.bare]
    exact List.append_nil _
  have hdrop : (key.toList ++ ' ' :: rest).dropWhile isBare = ' ' :: rest := by
    rw [List.dropWhile_append_of_pos h.bare]
    rfl
  rw [hcs, List.cons_append] at htake hdrop ⊢
  -- the key is not in quotes
  rw [readKeyPart?, htake, hdrop, ← hcs]
  · simp [h.ne_nil]
  · rintro rest ⟨⟩
    cases hc
  · rintro rest ⟨⟩
    cases hc

theorem readKey?_bare {key : String} (h : BareKey key) (parts : Nat) (rest : List Char) :
    readKey? (parts + 1) (key.toList ++ ' ' :: '=' :: rest) = some ([key], '=' :: rest) := by
  rw [readKey?, readKeyPart?_bare h]
  rfl

theorem not_trivia_of_isBare {c : Char} (h : isBare c = true) :
    isNewline c = false ∧ c ≠ '#' ∧ isSpace c = false := by
  refine ⟨?_, ?_, ?_⟩
  · rw [← Bool.not_eq_true, isNewline, Bool.or_eq_true, beq_iff_eq, beq_iff_eq]
    rintro (rfl | rfl) <;> cases h
  · rintro rfl
    cases h
  · rw [← Bool.not_eq_true, isSpace, Bool.or_eq_true, beq_iff_eq, beq_iff_eq]
    rintro (rfl | rfl) <;> cases h

theorem blanks_literal (x : Scalar) (rest : List Char) :
    blanks (' ' :: (x.literal ++ rest)) = some (x.literal ++ rest) := by
  cases x with
  | text s => rfl
  | number n =>
    obtain ⟨c, cs, hn, hdigit⟩ := Numeral.exists_cons_numeral n
    obtain ⟨-, -, hspace⟩ := not_trivia_of_isBare (isBare_of_isDigit hdigit)
    rw [Scalar.literal, hn, List.cons_append, blanks, List.dropWhile_cons_of_pos rfl,
      List.dropWhile_cons_of_neg (by simp [hspace])]

theorem readEntry?_line {key : String} (hkey : BareKey key) {x : Scalar} (hx : x.Clean)
    {rest : List Char} (h : AtEnd rest) (assign : List String → Value → Option Table) :
    readEntry? blanks (readValue? maxDepth) assign (line key x ++ rest)
      = (assign [key] x.value).map fun t => (t, rest) := by
  have hline : line key x ++ rest = key.toList ++ ' ' :: '=' :: ' ' :: (x.literal ++ rest) := by
    simp [line]
  have hgap : blanks ('=' :: ' ' :: (x.literal ++ rest))
      = some ('=' :: ' ' :: (x.literal ++ rest)) := rfl
  have hvalue := readValue?_literal hx h 79
  unfold readEntry?
  rw [hline, maxDepth, readKey?_bare hkey]
  simp only [Option.bind_eq_bind, Option.bind_some, hgap, blanks_literal, hvalue]
  cases assign [key] x.value <;> rfl

theorem readStatement?_line {key : String} (hkey : BareKey key) {x : Scalar} (hx : x.Clean)
    {rest : List Char} (h : AtEnd rest) {t : Table} (hfresh : t.lookup key = none) :
    readStatement? [] t (line key x ++ rest) = some (([], t ++ [(key, x.value)]), rest) := by
  obtain ⟨c, cs, hcs, hc⟩ := hkey.exists_cons
  have hentry := readEntry?_line hkey hx h fun path v => t.within (Table.assign path v) []
  have hassign : t.within (Table.assign [key] x.value) [] = some (t ++ [(key, x.value)]) := by
    simp [Table.within, Table.assign, hfresh]
  rw [hassign, Option.map_some, line, hcs, List.cons_append, List.cons_append] at hentry
  -- the line is no header
  rw [line, hcs, List.cons_append, List.cons_append, readStatement?]
  · rw [hentry]
    rfl
  · rintro rest ⟨⟩
    cases hc

/-! ## Documents -/

/-- A text with a line for each entry. Other lines have nothing on them, and the last line need not
have an end. -/
inductive Lines : List (String × Scalar) → List Char → Prop
  | nil : Lines [] []
  | blank {es : List (String × Scalar)} {cs : List Char} (h : Lines es cs) : Lines es ('\n' :: cs)
  | last (key : String) (x : Scalar) : Lines [(key, x)] (line key x)
  | entry (key : String) (x : Scalar) {es : List (String × Scalar)} {cs : List Char}
      (h : Lines es cs) : Lines ((key, x) :: es) (line key x ++ '\n' :: cs)

/-- The entries have keys that need no quotes, and no control characters. -/
def Writable (es : List (String × Scalar)) : Prop :=
  ∀ e ∈ es, BareKey e.1 ∧ e.2.Clean

def tableOf (es : List (String × Scalar)) : Table :=
  es.map fun e => (e.1, e.2.value)

theorem exists_cons_line {key : String} (hkey : BareKey key) (x : Scalar) (rest : List Char) :
    ∃ c cs, line key x ++ rest = c :: cs ∧ isBare c = true := by
  obtain ⟨c, cs, hcs, hc⟩ := hkey.exists_cons
  exact ⟨c, _, by rw [line, hcs, List.cons_append, List.cons_append], hc⟩

theorem readStatements?_newline (limit : Nat) (header : List String) (t : Table) (cs : List Char) :
    readStatements? (limit + 1) header t ('\n' :: cs)
      = readStatements? (limit + 1) header t cs := by
  rw [readStatements?, readStatements?, skipTrivia_newline rfl]

theorem AtEnd.lineEnds {rest : List Char} (h : AtEnd rest) : lineEnds rest = true := by
  cases rest with
  | nil => rfl
  | cons c rest =>
    obtain rfl := h c rfl
    rfl

theorem readStatements?_line {key : String} (hkey : BareKey key) {x : Scalar} (hx : x.Clean)
    {rest : List Char} (h : AtEnd rest) {t : Table} (hfresh : t.lookup key = none) (limit : Nat) :
    readStatements? (limit + 1) [] t (line key x ++ rest)
      = readStatements? limit [] (t ++ [(key, x.value)]) rest := by
  have hstatement := readStatement?_line hkey hx h hfresh
  obtain ⟨c, cs, hline, hc⟩ := exists_cons_line hkey x rest
  obtain ⟨hnewline, hcomment, hspace⟩ := not_trivia_of_isBare hc
  have hskip : skipTrivia false (c :: cs) = some (c :: cs) := by
    simp [skipTrivia, hnewline, hcomment, hspace]
  rw [hline] at hstatement ⊢
  rw [readStatements?, hskip]
  simp only [hstatement, h.lineEnds, if_true]

theorem atEnd_nil : AtEnd [] := by
  simp [AtEnd]

theorem atEnd_newline (rest : List Char) : AtEnd ('\n' :: rest) := by
  simp [AtEnd]

theorem lookup_concat_eq_none {t : Table} {key key' : String} (v : Value) (h : t.lookup key' = none)
    (hne : key' ≠ key) : (t ++ [(key, v)]).lookup key' = none := by
  rw [List.lookup_append, h, List.lookup_cons, beq_false_of_ne hne]
  rfl

theorem readStatements?_of_lines {es : List (String × Scalar)} {cs : List Char} (h : Lines es cs)
    (hes : Writable es) (hnodup : (es.map Prod.fst).Nodup) {t : Table}
    (hfresh : ∀ key ∈ es.map Prod.fst, t.lookup key = none) {limit : Nat}
    (hlimit : cs.length < limit) : readStatements? limit [] t cs = some (t ++ tableOf es) := by
  -- `t` has the entries of the lines before, and each line takes a character at least
  induction h generalizing t limit with
  | nil =>
    obtain ⟨limit, rfl⟩ := Nat.exists_eq_succ_of_ne_zero (Nat.ne_zero_of_lt hlimit)
    simp [readStatements?, skipTrivia, tableOf]
  | blank _ ih =>
    obtain ⟨limit, rfl⟩ := Nat.exists_eq_succ_of_ne_zero (Nat.ne_zero_of_lt hlimit)
    rw [readStatements?_newline]
    exact ih hes hnodup hfresh (by rw [List.length_cons] at hlimit; omega)
  | last key x =>
    obtain ⟨hkey, hx⟩ := hes (key, x) List.mem_cons_self
    obtain ⟨c, cs, hline, -⟩ := exists_cons_line hkey x []
    rw [List.append_nil] at hline
    obtain ⟨limit, rfl⟩ : ∃ l, limit = l + 2 := ⟨limit - 2, by simp [hline] at hlimit; omega⟩
    have hread := readStatements?_line hkey hx atEnd_nil (hfresh key List.mem_cons_self) (limit + 1)
    rw [List.append_nil] at hread
    rw [hread]
    simp [readStatements?, skipTrivia, tableOf]
  | @entry key x es cs _ ih =>
    obtain ⟨hkey, hx⟩ := hes (key, x) List.mem_cons_self
    obtain ⟨hnotin, hrest⟩ := List.nodup_cons.1 hnodup
    obtain ⟨limit, rfl⟩ : ∃ l, limit = l + 2 :=
      ⟨limit - 2, by rw [List.length_append, List.length_cons] at hlimit; omega⟩
    have hfresh' : ∀ key' ∈ es.map Prod.fst, (t ++ [(key, x.value)]).lookup key' = none :=
      fun key' hmem => lookup_concat_eq_none x.value (hfresh key' (List.mem_cons_of_mem _ hmem))
        fun heq => hnotin (heq ▸ hmem)
    rw [readStatements?_line hkey hx (atEnd_newline cs) (hfresh key List.mem_cons_self),
      readStatements?_newline, ih (fun e he => hes e (List.mem_cons_of_mem _ he)) hrest hfresh'
        (by rw [List.length_append, List.length_cons] at hlimit; omega)]
    simp [tableOf]

theorem return_not_mem_literal {x : Scalar} (hx : x.Clean) : '\r' ∉ x.literal := by
  cases x with
  | text s =>
    intro hmem
    have hmem' : '\r' ∈ s.toList.flatMap escaped := by
      simpa [Scalar.literal, quoted] using hmem
    obtain ⟨c, hc, hescaped⟩ := List.mem_flatMap.1 hmem'
    have hreturn : c = '\r' := by
      unfold escaped at hescaped
      split at hescaped <;> simpa [eq_comm] using hescaped
    cases hreturn ▸ hx c hc
  | number n =>
    intro hmem
    cases Numeral.isDigit_of_mem hmem

theorem return_not_mem_line {key : String} (hkey : BareKey key) {x : Scalar} (hx : x.Clean) :
    '\r' ∉ line key x := by
  intro hmem
  rcases List.mem_append.1 hmem with hmem | hmem
  · cases hkey.bare '\r' hmem
  · exact return_not_mem_literal hx (by simpa using hmem)

theorem Lines.return_not_mem {es : List (String × Scalar)} {cs : List Char} (h : Lines es cs)
    (hes : Writable es) : '\r' ∉ cs := by
  induction h with
  | nil => simp
  | blank _ ih => simp [ih hes]
  | last key x =>
    obtain ⟨hkey, hx⟩ := hes (key, x) List.mem_cons_self
    exact return_not_mem_line hkey hx
  | entry key x _ ih =>
    obtain ⟨hkey, hx⟩ := hes (key, x) List.mem_cons_self
    have hrest := ih fun e he => hes e (List.mem_cons_of_mem _ he)
    simp [return_not_mem_line hkey hx, hrest]

theorem hasLoneReturn_of_not_mem {cs : List Char} (h : '\r' ∉ cs) : hasLoneReturn cs = false := by
  induction cs with
  | nil => rfl
  | cons c cs ih =>
    obtain ⟨hc, hcs⟩ : '\r' ≠ c ∧ '\r' ∉ cs := by simpa using h
    rw [hasLoneReturn, ih hcs]
    · simpa using hc.symm
    · rintro rest rfl
      exact absurd rfl hc

theorem dropMark_of_lines {es : List (String × Scalar)} {cs : List Char} (h : Lines es cs)
    (hes : Writable es) : dropMark cs = cs := by
  have hline : ∀ (key : String) (x : Scalar) (rest : List Char), BareKey key →
      dropMark (line key x ++ rest) = line key x ++ rest := by
    intro key x rest hkey
    obtain ⟨c, cs, hcs, hc⟩ := exists_cons_line hkey x rest
    rw [hcs, dropMark]
    rintro rest ⟨⟩
    cases hc
  cases h with
  | nil => rfl
  | blank _ => rfl
  | last key x =>
    have hdrop := hline key x [] (hes (key, x) List.mem_cons_self).1
    rwa [List.append_nil] at hdrop
  | entry key x _ => exact hline key x _ (hes (key, x) List.mem_cons_self).1

/-- A document with a line for each entry is the table of the entries. -/
theorem parse?_of_lines {es : List (String × Scalar)} {document : String}
    (h : Lines es document.toList) (hes : Writable es) (hnodup : (es.map Prod.fst).Nodup) :
    parse? document = some (tableOf es) := by
  have hmark := dropMark_of_lines h hes
  have hreturn := hasLoneReturn_of_not_mem (h.return_not_mem hes)
  have hread := readStatements?_of_lines h hes hnodup (t := []) (by simp)
    (Nat.lt_succ_self document.toList.length)
  simpa [parse?, hmark, hreturn] using hread

end McpCatalog.Toml
