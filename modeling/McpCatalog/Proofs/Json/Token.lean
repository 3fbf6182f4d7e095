import Mathlib.Data.List.Forall2
import McpCatalog.Json.Quoted
import McpCatalog.Proofs.Numeral
import McpCatalog.Toml.Literal
/-!
# Tokens of JSON texts

A JSON text is a row of tokens with white space between them: marks, words, strings and numbers.
Strings are read with all their escapes, pairs of surrogates among them, and control characters are
refused in them; numbers are whole, without zeros in front.

Results:
* `char?_escapeChar`, `string?_escape`: a string is read as it was before it was escaped.
* `natural?_numeral`: so is a number, if no digit comes after it.
* `Spells.append`, `spells_intercalate`: tokens are read off a text piece by piece.
-/
namespace McpCatalog.Json

/-- A token of a text. -/
inductive Token where
  | openArray
  | closeArray
  | openObject
  | closeObject
  | colon
  | comma
  | null
  | bool (b : Bool)
  | int (n : Int)
  | str (s : String)
  deriving DecidableEq

/-! ## Strings -/

/-- The character that is escaped by a letter or a mark behind a backslash. -/
def escaped? (c : Char) : Option Char :=
  match c with
  | '"' => some '"'
  | '\\' => some '\\'
  | '/' => some '/'
  | 'b' => some '\x08'
  | 'f' => some '\x0c'
  | 'n' => some '\n'
  | 'r' => some '\r'
  | 't' => some '\t'
  | _ => none

/-- The number of four hexadecimal digits, and what comes after them. -/
def codeUnit? : List Char → Option (Nat × List Char)
  | a :: b :: c :: d :: rest =>
    ([a, b, c, d].foldlM (fun n c => (Toml.digitValue? 16 c).map (16 * n + ·)) 0).map (·, rest)
  | _ => none

/-- A low surrogate with its escape, and what comes after it. -/
def lowUnit? : List Char → Option (Nat × List Char)
  | '\\' :: 'u' :: rest => (codeUnit? rest).filter fun r => 0xDC00 ≤ r.1 ∧ r.1 < 0xE000
  | _ => none

/-- The character of a code unit. A high surrogate makes one together with a low surrogate, which
has to come after it. -/
def ofUnit? (unit : Nat) (rest : List Char) : Option (Char × List Char) :=
  if 0xD800 ≤ unit ∧ unit < 0xDC00 then
    (lowUnit? rest).bind fun r =>
      (Toml.char? (0x10000 + 0x400 * (unit - 0xD800) + (r.1 - 0xDC00))).map (·, r.2)
  else (Toml.char? unit).map (·, rest)

/-- A character of a string as it is written, and what comes after it. -/
def char? : List Char → Option (Char × List Char)
  | '\\' :: 'u' :: rest => (codeUnit? rest).bind fun r => ofUnit? r.1 r.2
  | '\\' :: c :: rest => (escaped? c).map (·, rest)
  | c :: rest => if c = '\\' ∨ c.toNat < 0x20 then none else some (c, rest)
  | [] => none

section
variable {α β : Type} {cs rest : List Char}

theorem rest_of_map {o : Option α} {f : α → β} {b : β}
    (h : o.map (fun a => (f a, cs)) = some (b, rest)) : rest = cs := by
  obtain ⟨a, -, ha⟩ := Option.map_eq_some_iff.1 h
  exact (Prod.mk.inj ha).2.symm

theorem exists_of_map {o : Option (α × List Char)} {f : α → β} {b : β}
    (h : o.map (Prod.map f id) = some (b, rest)) : ∃ a, o = some (a, rest) := by
  obtain ⟨⟨a, _⟩, ha, he⟩ := Option.map_eq_some_iff.1 h
  obtain ⟨-, rfl⟩ := Prod.mk.inj he
  exact ⟨a, ha⟩

theorem length_lt_of_codeUnit? {n : Nat} (h : codeUnit? cs = some (n, rest)) :
    rest.length < cs.length := by
  unfold codeUnit? at h
  split at h
  · rw [rest_of_map h]
    simp only [List.length_cons]
    omega
  · cases h

theorem length_lt_of_lowUnit? {n : Nat} (h : lowUnit? cs = some (n, rest)) :
    rest.length < cs.length := by
  unfold lowUnit? at h
  split at h
  · have hlength := length_lt_of_codeUnit? (Option.filter_eq_some_iff.1 h).1
    simp only [List.length_cons]
    omega
  · cases h

theorem length_le_of_ofUnit? {unit : Nat} {c : Char} (h : ofUnit? unit cs = some (c, rest)) :
    rest.length ≤ cs.length := by
  unfold ofUnit? at h
  split at h
  · obtain ⟨⟨low, behind⟩, hlow, hc⟩ := Option.bind_eq_some_iff.1 h
    rw [rest_of_map hc]
    exact Nat.le_of_lt (length_lt_of_lowUnit? hlow)
  · exact Nat.le_of_eq (congrArg _ (rest_of_map h))

theorem length_lt_of_char? {c : Char} (h : char? cs = some (c, rest)) :
    rest.length < cs.length := by
  unfold char? at h
  split at h
  · obtain ⟨⟨unit, behind⟩, hunit, hc⟩ := Option.bind_eq_some_iff.1 h
    have hle : rest.length ≤ behind.length := length_le_of_ofUnit? hc
    have hlt := length_lt_of_codeUnit? hunit
    simp only [List.length_cons]
    omega
  · rw [rest_of_map h]
    simp only [List.length_cons]
    omega
  · split at h
    · cases h
    · rw [← (Prod.mk.inj (Option.some.inj h)).2, List.length_cons]
      omega
  · cases h

end

/-- The characters of a string up to the quote that closes it, and what comes after the quote. -/
def string? (cs : List Char) : Option (List Char × List Char) :=
  match cs with
  | [] => none
  | c :: rest =>
    if c = '"' then some ([], rest)
    else
      match _h : char? (c :: rest) with
      | none => none
      | some (d, behind) => (string? behind).map (Prod.map (d :: ·) id)
termination_by cs.length
decreasing_by exact length_lt_of_char? _h

theorem length_lt_of_string? {cs s rest : List Char} (h : string? cs = some (s, rest)) :
    rest.length < cs.length := by
  induction hn : cs.length using Nat.strongRecOn generalizing cs s with
  | ind n ih =>
    subst hn
    unfold string? at h
    split at h
    · cases h
    · split at h
      · rw [← (Prod.mk.inj (Option.some.inj h)).2, List.length_cons]
        omega
      · split at h
        · cases h
        · next d behind hd =>
          obtain ⟨s', hs'⟩ := exists_of_map h
          have hbehind := length_lt_of_char? hd
          have hrest := ih _ hbehind hs' rfl
          omega

/-! ## Other tokens -/

/-- A natural number without zeros in front, and what comes after it. -/
def natural? (cs : List Char) : Option (Nat × List Char) :=
  let digits := cs.takeWhile Char.isDigit
  if digits = [] ∨ digits.head? = some '0' ∧ digits ≠ ['0'] then none
  else some (Numeral.value 10 digits, cs.dropWhile Char.isDigit)

/-- The token that is a mark. -/
def mark? (c : Char) : Option Token :=
  match c with
  | '[' => some .openArray
  | ']' => some .closeArray
  | '\x7b' => some .openObject
  | '\x7d' => some .closeObject
  | ':' => some .colon
  | ',' => some .comma
  | _ => none

/-- The token that is a word, and what comes after it. -/
def word? : List Char → Option (Token × List Char)
  | 'n' :: 'u' :: 'l' :: 'l' :: rest => some (.null, rest)
  | 't' :: 'r' :: 'u' :: 'e' :: rest => some (.bool true, rest)
  | 'f' :: 'a' :: 'l' :: 's' :: 'e' :: rest => some (.bool false, rest)
  | _ => none

/-- The token that starts with a character, and what comes after it. -/
def token? (c : Char) (rest : List Char) : Option (Token × List Char) :=
  match mark? c with
  | some t => some (t, rest)
  | none =>
    if c = '"' then (string? rest).map (Prod.map (fun s => .str (String.ofList s)) id)
    else if c = '-' then (natural? rest).map (Prod.map (fun n => .int (-Int.ofNat n)) id)
    else if c.isDigit then (natural? (c :: rest)).map (Prod.map (fun n => .int (Int.ofNat n)) id)
    else word? (c :: rest)

theorem length_lt_of_natural? {cs rest : List Char} {n : Nat} (h : natural? cs = some (n, rest)) :
    rest.length < cs.length := by
  unfold natural? at h
  dsimp only at h
  split at h
  · cases h
  · next hdigits =>
    rw [← (Prod.mk.inj (Option.some.inj h)).2]
    have hne := List.length_pos_iff.2 fun hnil => hdigits (.inl hnil)
    have hsplit : cs.takeWhile Char.isDigit ++ cs.dropWhile Char.isDigit = cs :=
      List.takeWhile_append_dropWhile
    have hlength := congrArg List.length hsplit
    rw [List.length_append] at hlength
    omega

theorem length_lt_of_word? {cs rest : List Char} {t : Token} (h : word? cs = some (t, rest)) :
    rest.length < cs.length := by
  unfold word? at h
  split at h
  case h_4 => cases h
  -- each word has some letters
  all_goals
    rw [← (Prod.mk.inj (Option.some.inj h)).2]
    simp only [List.length_cons]
    omega

theorem length_le_of_token? {c : Char} {cs rest : List Char} {t : Token}
    (h : token? c cs = some (t, rest)) : rest.length ≤ cs.length := by
  unfold token? at h
  split at h
  · exact Nat.le_of_eq (congrArg _ (Prod.mk.inj (Option.some.inj h)).2.symm)
  · split at h
    · obtain ⟨s, hs⟩ := exists_of_map h
      exact Nat.le_of_lt (length_lt_of_string? hs)
    · split at h
      · obtain ⟨n, hn⟩ := exists_of_map h
        exact Nat.le_of_lt (length_lt_of_natural? hn)
      · split at h
        · obtain ⟨n, hn⟩ := exists_of_map h
          exact Nat.le_of_lt_succ (length_lt_of_natural? hn)
        · exact Nat.le_of_lt_succ (length_lt_of_word? h)

/-! ## Texts -/

/-- White space between tokens. -/
def isSpace (c : Char) : Bool :=
  c == ' ' || c == '\t' || c == '\n' || c == '\r'

/-- The tokens of a text. -/
def tokens? (cs : List Char) : Option (List Token) :=
  match cs with
  | [] => some []
  | c :: rest =>
    if isSpace c then tokens? rest
    else
      match _h : token? c rest with
      | none => none
      | some (t, behind) => (tokens? behind).map (t :: ·)
termination_by cs.length
decreasing_by
  · exact Nat.lt_succ_self _
  · exact Nat.lt_succ_of_le (length_le_of_token? _h)

/-! ## What was escaped -/

theorem digitValue?_digit : ∀ d < 16, Toml.digitValue? 16 (Numeral.digit d) = some d := by
  decide

theorem char?_toNat (c : Char) : Toml.char? c.toNat = some c := by
  have hvalid : c.toNat.isValidChar := c.valid
  rw [Toml.char?, dif_pos hvalid, Option.some.injEq]
  rfl

theorem escaped?_of_controlLetter? {c l : Char} (h : controlLetter? c = some l) :
    l ≠ 'u' ∧ escaped? l = some c := by
  unfold controlLetter? at h
  split at h
  case h_6 => cases h
  all_goals
    cases h
    exact ⟨by decide, rfl⟩

/-- A control character is read from the code point in its escape. -/
theorem char?_codePoint {c : Char} (h : c.toNat < 0x20) (rest : List Char) :
    char? ('\\' :: 'u' :: '0' :: '0' :: Numeral.digit (c.toNat / 16) ::
      Numeral.digit (c.toNat % 16) :: rest) = some (c, rest) := by
  have hzero : Toml.digitValue? 16 '0' = some 0 := by decide
  have hunit : codeUnit? ('0' :: '0' :: Numeral.digit (c.toNat / 16) ::
      Numeral.digit (c.toNat % 16) :: rest) = some (c.toNat, rest) := by
    simp [codeUnit?, hzero, digitValue?_digit (c.toNat / 16) (by omega),
      digitValue?_digit (c.toNat % 16) (by omega), Nat.div_add_mod]
  have hplain : ¬ (0xD800 ≤ c.toNat ∧ c.toNat < 0xDC00) := by omega
  simp only [char?, hunit, Option.bind_some, ofUnit?, hplain, if_false, char?_toNat,
    Option.map_some]

theorem char?_escapeChar (c : Char) (rest : List Char) :
    char? (escapeChar c ++ rest) = some (c, rest) := by
  unfold escapeChar
  split
  · next hc =>
    rcases hc with rfl | rfl
    · rfl
    · rfl
  · next hc =>
    obtain ⟨-, hbackslash⟩ := not_or.1 hc
    split
    · next hcontrol =>
      split
      · next l hl =>
        obtain ⟨hne, hescaped⟩ := escaped?_of_controlLetter? hl
        simp [char?, hescaped]
      · exact char?_codePoint hcontrol rest
    · next hplain => simp [char?, hbackslash, hplain]

/-- What a character is written as does not start like the end of the string. -/
theorem exists_escapeChar (c : Char) : ∃ d ds, escapeChar c = d :: ds ∧ d ≠ '"' := by
  unfold escapeChar
  split
  · exact ⟨_, _, rfl, by decide⟩
  · next hc =>
    split
    · split
      · exact ⟨_, _, rfl, by decide⟩
      · exact ⟨_, _, rfl, by decide⟩
    · exact ⟨c, [], rfl, (not_or.1 hc).1⟩

/-- A string is read as it was before it was escaped. -/
theorem string?_escape (cs rest : List Char) :
    string? (escape cs ++ '"' :: rest) = some (cs, rest) := by
  induction cs with
  | nil => rw [escape, List.flatMap_nil, List.nil_append, string?, if_pos rfl]
  | cons c cs ih =>
    obtain ⟨d, ds, hd, hne⟩ := exists_escapeChar c
    have hchar := char?_escapeChar c (escape cs ++ '"' :: rest)
    rw [escape, List.flatMap_cons, List.append_assoc, ← escape]
    rw [hd, List.cons_append] at hchar ⊢
    rw [string?, if_neg hne]
    split
    · next hnone => rw [hnone] at hchar; cases hchar
    · next e behind hsome =>
      rw [hsome] at hchar
      cases hchar
      rw [ih]
      rfl

/-! ## What was written in digits -/

/-- No digit comes first. -/
def NoDigit (cs : List Char) : Prop :=
  ∀ c ∈ cs.head?, c.isDigit = false

theorem noDigit_nil : NoDigit [] := by
  simp [NoDigit]

theorem noDigit_cons {c : Char} {cs : List Char} (h : c.isDigit = false) : NoDigit (c :: cs) := by
  simpa [NoDigit] using h

theorem of_isDigit {c : Char} (h : c.isDigit = true) :
    isSpace c = false ∧ mark? c = none ∧ c ≠ '"' ∧ c ≠ '-' := by
  have hne : ∀ d : Char, d.isDigit = false → c ≠ d := by
    intro d hd hcd
    rw [hcd, hd] at h
    cases h
  refine ⟨?_, ?_, hne _ (by decide), hne _ (by decide)⟩
  · simp [isSpace, hne ' ' (by decide), hne '\t' (by decide), hne '\n' (by decide),
      hne '\r' (by decide)]
  · unfold mark?
    split
    case h_7 => rfl
    all_goals exact absurd rfl (hne _ (by decide))

theorem isDigit_of_isSpace {c : Char} (h : isSpace c = true) : c.isDigit = false := by
  by_contra hdigit
  rw [Bool.not_eq_false] at hdigit
  rw [(of_isDigit hdigit).1] at h
  cases h

theorem isDigit_of_mark? {c : Char} {t : Token} (h : mark? c = some t) : c.isDigit = false := by
  by_contra hdigit
  rw [Bool.not_eq_false] at hdigit
  rw [(of_isDigit hdigit).2.1] at h
  cases h

theorem noDigit_spaces {ws cs : List Char} (hws : ∀ c ∈ ws, isSpace c = true) (h : NoDigit cs) :
    NoDigit (ws ++ cs) := by
  cases ws with
  | nil => exact h
  | cons c ws => exact noDigit_cons (isDigit_of_isSpace (hws c List.mem_cons_self))

theorem natural?_numeral (n : Nat) {rest : List Char} (h : NoDigit rest) :
    natural? (Numeral.numeral 10 n ++ rest) = some (n, rest) := by
  have hstop : rest.takeWhile Char.isDigit = [] ∧ rest.dropWhile Char.isDigit = rest := by
    cases rest with
    | nil => exact ⟨rfl, rfl⟩
    | cons c cs =>
      have hc : c.isDigit = false := h c rfl
      simp [hc]
  have hdigits : (Numeral.numeral 10 n ++ rest).takeWhile Char.isDigit = Numeral.numeral 10 n := by
    rw [List.takeWhile_append_of_pos fun c hc => Numeral.isDigit_of_mem hc, hstop.1,
      List.append_nil]
  have hrest : (Numeral.numeral 10 n ++ rest).dropWhile Char.isDigit = rest := by
    rw [List.dropWhile_append_of_pos fun c hc => Numeral.isDigit_of_mem hc, hstop.2]
  have hzero : ¬ (Numeral.numeral 10 n = [] ∨
      (Numeral.numeral 10 n).head? = some '0' ∧ Numeral.numeral 10 n ≠ ['0']) := by
    rintro (hempty | ⟨hhead, hne⟩)
    · exact Numeral.numeral_ne_nil 10 n hempty
    · obtain ⟨cs, hcs⟩ := List.head?_eq_some_iff.1 hhead
      rw [hcs, Numeral.eq_nil_of_numeral_eq_zero_cons (by decide) (by decide) hcs] at hne
      exact hne rfl
  rw [natural?, hdigits, hrest, if_neg hzero, Numeral.value_numeral (by decide) (by decide)]

/-! ## Pieces of a text -/

/-- In front of texts of some kind, the characters are read as the tokens. -/
def Spells (kind : List Char → Prop) (ts : List Token) (cs : List Char) : Prop :=
  ∀ rest, kind rest → tokens? (cs ++ rest) = (tokens? rest).map (ts ++ ·)

/-- The kind of all texts. -/
def Anything (_ : List Char) : Prop :=
  True

section
variable {kind kind' : List Char → Prop} {ts ts' : List Token} {cs cs' : List Char}

theorem Spells.tokens? (h : Spells NoDigit ts cs) : tokens? cs = some ts := by
  have hall := h [] noDigit_nil
  rw [List.append_nil] at hall
  rw [hall, Json.tokens?, Option.map_some, List.append_nil]

theorem Spells.weaken (h : Spells Anything ts cs) : Spells kind ts cs :=
  fun rest _ => h rest trivial

theorem Spells.append (h : Spells kind ts cs) (h' : Spells kind' ts' cs')
    (hkind : ∀ rest, kind' rest → kind (cs' ++ rest)) : Spells kind' (ts ++ ts') (cs ++ cs') := by
  intro rest hrest
  rw [List.append_assoc, h _ (hkind rest hrest), h' rest hrest, Option.map_map]
  congr 1
  funext more
  rw [Function.comp_apply, List.append_assoc]

/-- Behind what can be in front of anything, there can be anything. -/
theorem Spells.andThen (h : Spells Anything ts cs) (h' : Spells kind ts' cs') :
    Spells kind (ts ++ ts') (cs ++ cs') :=
  h.append h' fun _ _ => trivial

theorem spells_nil : Spells Anything [] [] := by
  intro rest _
  simp

theorem spells_space (h : ∀ c ∈ cs, isSpace c = true) : Spells Anything [] cs := by
  intro rest _
  induction cs with
  | nil => simp
  | cons c cs ih =>
    rw [List.cons_append, Json.tokens?, if_pos (h c List.mem_cons_self)]
    exact ih fun d hd => h d (List.mem_cons_of_mem _ hd)

theorem spells_token {t : Token} {c : Char} (hc : isSpace c = false)
    (h : ∀ rest, kind rest → token? c (cs ++ rest) = some (t, rest)) :
    Spells kind [t] (c :: cs) := by
  intro rest hrest
  rw [List.cons_append, Json.tokens?, if_neg (by simp [hc])]
  split
  · next hnone => rw [h rest hrest] at hnone; cases hnone
  · next hsome =>
    rw [h rest hrest] at hsome
    cases hsome
    rfl

end

/-! ## Pieces that are one token -/

theorem token?_of_mark? {c : Char} {t : Token} (h : mark? c = some t) (rest : List Char) :
    token? c rest = some (t, rest) := by
  rw [token?, h]

theorem token?_quote (rest : List Char) : token? '"' rest =
    (string? rest).map (Prod.map (fun s => .str (String.ofList s)) id) := rfl

theorem token?_minus (rest : List Char) : token? '-' rest =
    (natural? rest).map (Prod.map (fun n => .int (-Int.ofNat n)) id) := rfl

theorem token?_of_isDigit {c : Char} (h : c.isDigit = true) (rest : List Char) :
    token? c rest = (natural? (c :: rest)).map (Prod.map (fun n => .int (Int.ofNat n)) id) := by
  obtain ⟨-, hmark, hquote, hminus⟩ := of_isDigit h
  rw [token?, hmark]
  dsimp only
  rw [if_neg hquote, if_neg hminus, if_pos h]

theorem spells_mark {c : Char} {t : Token} (h : mark? c = some t) : Spells Anything [t] [c] := by
  refine spells_token ?_ fun rest _ => token?_of_mark? h rest
  unfold mark? at h
  split at h
  case h_7 => cases h
  all_goals rfl

theorem spells_null : Spells Anything [.null] "null".toList :=
  spells_token (by decide) fun _ _ => rfl

theorem spells_bool (b : Bool) :
    Spells Anything [.bool b] (if b then "true" else "false").toList := by
  cases b with
  | true => exact spells_token (by decide) fun _ _ => rfl
  | false => exact spells_token (by decide) fun _ _ => rfl

theorem spells_str (s : String) : Spells Anything [.str s] (quoted s).toList := by
  rw [quoted, String.toList_ofList]
  refine spells_token (by decide) fun rest _ => ?_
  rw [token?_quote, List.append_assoc, List.singleton_append, string?_escape, Option.map_some,
    Prod.map_apply, String.ofList_toList, id]

theorem spells_int (n : Int) : Spells NoDigit [.int n] (Numeral.decimal n).toList := by
  cases n with
  | ofNat n =>
    obtain ⟨k, ks, hk, -, -⟩ := Numeral.exists_digits_numeral n
    have hdigit : (Numeral.digit k).isDigit = true := by
      apply Numeral.isDigit_of_mem (n := n)
      rw [hk]
      exact List.mem_cons_self
    rw [Numeral.decimal, String.toList_ofList, hk, List.map_cons]
    refine spells_token (of_isDigit hdigit).1 fun rest hrest => ?_
    rw [token?_of_isDigit hdigit, ← List.cons_append, ← List.map_cons, ← hk,
      natural?_numeral n hrest]
    rfl
  | negSucc n =>
    rw [Numeral.decimal, String.toList_ofList]
    refine spells_token (by decide) fun rest hrest => ?_
    rw [token?_minus, natural?_numeral _ hrest]
    rfl

/-! ## Pieces that are enclosed or separated -/

/-- What is joined comes after the first part with the separator in front. -/
theorem intercalate_cons {α : Type} (sep x : List α) (xs : List (List α)) :
    sep.intercalate (x :: xs) = x ++ xs.flatMap (sep ++ ·) := by
  induction xs generalizing x with
  | nil => rw [List.intercalate_singleton, List.flatMap_nil, List.append_nil]
  | cons y ys ih => rw [List.intercalate_cons_cons, ih, List.flatMap_cons, List.append_assoc,
      List.append_assoc]

section
variable {ws ws' : List Char}

theorem noDigit_separated (css : List (List Char)) {rest : List Char} (h : NoDigit rest) :
    NoDigit (css.flatMap ((',' :: ws) ++ ·) ++ rest) := by
  cases css with
  | nil => exact h
  | cons cs css => exact noDigit_cons (by decide)

/-- Pieces with a comma in front of each. -/
theorem spells_separated (hws : ∀ c ∈ ws, isSpace c = true) {tss : List (List Token)}
    {css : List (List Char)} (h : List.Forall₂ (Spells NoDigit) tss css) :
    Spells NoDigit (tss.flatMap ([.comma] ++ ·)) (css.flatMap ((',' :: ws) ++ ·)) := by
  induction h with
  | nil => exact spells_nil.weaken
  | @cons ts cs tss css hfirst _ ih =>
    have hcomma : Spells Anything [.comma] (',' :: ws) :=
      (spells_mark rfl).andThen (spells_space hws)
    rw [List.flatMap_cons, List.flatMap_cons]
    exact (hcomma.andThen hfirst).append ih fun rest hrest => noDigit_separated css hrest

/-- Pieces with a comma between them. -/
theorem spells_intercalate (hws : ∀ c ∈ ws, isSpace c = true) {tss : List (List Token)}
    {css : List (List Char)} (h : List.Forall₂ (Spells NoDigit) tss css) :
    Spells NoDigit ([.comma].intercalate tss) ((',' :: ws).intercalate css) := by
  cases h with
  | nil => exact spells_nil.weaken
  | @cons ts cs tss css hfirst hmore =>
    rw [intercalate_cons, intercalate_cons]
    exact hfirst.append (spells_separated hws hmore) fun rest hrest => noDigit_separated css hrest

/-- A piece between two marks. -/
theorem spells_enclosed {opening closing : Char} {t t' : Token} (ht : mark? opening = some t)
    (ht' : mark? closing = some t') (hws : ∀ c ∈ ws, isSpace c = true)
    (hws' : ∀ c ∈ ws', isSpace c = true) {ts : List Token} {cs : List Char}
    (h : Spells NoDigit ts cs) :
    Spells Anything ([t] ++ ts ++ [t']) ([opening] ++ ws ++ cs ++ (ws' ++ [closing])) := by
  have hopening : Spells Anything ([t] ++ []) ([opening] ++ ws) :=
    (spells_mark ht).andThen (spells_space hws)
  have hclosing : Spells Anything ([] ++ [t']) (ws' ++ [closing]) :=
    (spells_space hws').andThen (spells_mark ht')
  refine (hopening.andThen h).append hclosing fun rest _ => ?_
  rw [List.append_assoc]
  exact noDigit_spaces hws' (noDigit_cons (isDigit_of_mark? ht'))

end

end McpCatalog.Json
