import McpCatalog.Proofs.Numeral
import McpCatalog.Schema.WellKnown
import McpCatalog.Schema.Scalar
/-!
# Patterns of schemas

The regular expressions that stand under `pattern`: their syntax, how one is read
from its text, and which texts it matches. An expression may match any part of a
text, and only `^` and `$` tie it to the ends. Texts are read up to what the
schemas here need: groups, alternatives, repetitions, ranges of characters and
escapes.

Results:
* `matches_unsignedKeyPattern`: the unsigned pattern matches the numerals of natural
  numbers and nothing else.
* `matches_signedKeyPattern`: the signed pattern matches these, with or without a
  minus sign, and nothing else.
-/
namespace McpCatalog

inductive Regex where
  /-- The empty text. -/
  | empty
  /-- One character between two bounds. -/
  | range (low high : Char)
  /-- Nothing, at the start of the text. -/
  | start
  /-- Nothing, at the end of the text. -/
  | finish
  | seq (first second : Regex)
  | alt (left right : Regex)
  /-- Any number of times. -/
  | star (body : Regex)
  deriving DecidableEq

namespace Regex

/-! ## Reading -/

def digit : Regex := .range '0' '9'

def opt (r : Regex) : Regex := .alt r .empty

def plus (r : Regex) : Regex := .seq r (.star r)

/-- What was read of a group: the alternatives before, and the items of the current one, last
item first. -/
structure Group where
  alternatives : List Regex
  items : List Regex

def sequence : List Regex → Regex
  | [] => .empty
  | [r] => r
  | r :: rest => .seq r (sequence rest)

namespace Group

def start : Group := ⟨[], []⟩

def push (g : Group) (r : Regex) : Group :=
  { g with items := r :: g.items }

def next (g : Group) : Group :=
  ⟨g.alternatives ++ [sequence g.items.reverse], []⟩

/-- Changes the last item. -/
def repeated? (g : Group) (f : Regex → Regex) : Option Group :=
  match g.items with
  | [] => none
  | r :: rest => some { g with items := f r :: rest }

def regex (g : Group) : Regex :=
  g.alternatives.foldr .alt (sequence g.items.reverse)

end Group

/-- Reads the rest of an expression inside the current group; `outer` are the groups around it,
innermost first. -/
def readFrom (outer : List Group) (g : Group) : List Char → Option Regex
  | [] => if outer.isEmpty then some g.regex else none
  | '(' :: rest => readFrom (g :: outer) .start rest
  | ')' :: rest =>
    match outer with
    | [] => none
    | g' :: outer => readFrom outer (g'.push g.regex) rest
  | '|' :: rest => readFrom outer g.next rest
  | '*' :: rest => (g.repeated? .star).bind fun g => readFrom outer g rest
  | '+' :: rest => (g.repeated? plus).bind fun g => readFrom outer g rest
  | '?' :: rest => (g.repeated? opt).bind fun g => readFrom outer g rest
  | '^' :: rest => readFrom outer (g.push .start) rest
  | '$' :: rest => readFrom outer (g.push .finish) rest
  | '[' :: low :: '-' :: high :: ']' :: rest => readFrom outer (g.push (.range low high)) rest
  | '\\' :: 'd' :: rest => readFrom outer (g.push digit) rest
  | '\\' :: c :: rest => if c.isAlphanum then none else readFrom outer (g.push (.range c c)) rest
  | c :: rest => if c ∈ ".[]{}".toList then none else readFrom outer (g.push (.range c c)) rest

def ofText? (pattern : String) : Option Regex :=
  readFrom [] .start pattern.toList

/-! ## Matching -/

/-- `r` matches a part of a text that stands between the part before it and the part after it. -/
inductive Matches : Regex → List Char → List Char → List Char → Prop
  | empty {b a} : Matches .empty b [] a
  | range {low high c b a} (h : low ≤ c ∧ c ≤ high) : Matches (.range low high) b [c] a
  | start {a} : Matches .start [] [] a
  | finish {b} : Matches .finish b [] []
  | seq {r s b x y a} (hr : Matches r b x (y ++ a)) (hs : Matches s (b ++ x) y a) :
    Matches (.seq r s) b (x ++ y) a
  | left {r s b x a} (h : Matches r b x a) : Matches (.alt r s) b x a
  | right {r s b x a} (h : Matches s b x a) : Matches (.alt r s) b x a
  | done {r b a} : Matches (.star r) b [] a
  | more {r b x y a} (hr : Matches r b x (y ++ a)) (hs : Matches (.star r) (b ++ x) y a) :
    Matches (.star r) b (x ++ y) a

/-- `r` matches some part of the text. -/
def Finds (r : Regex) (text : String) : Prop :=
  ∃ b x a, text.toList = b ++ x ++ a ∧ r.Matches b x a

section
variable {r s : Regex} {low high : Char} {b x a : List Char}

@[simp] theorem matches_empty : Matches .empty b x a ↔ x = [] :=
  ⟨fun h => by cases h; rfl, fun h => h ▸ .empty⟩

@[simp] theorem matches_range :
    Matches (.range low high) b x a ↔ ∃ c, x = [c] ∧ low ≤ c ∧ c ≤ high :=
  ⟨fun h => by cases h with | range h => exact ⟨_, rfl, h⟩, fun ⟨_, hx, h⟩ => hx ▸ .range h⟩

@[simp] theorem matches_start : Matches .start b x a ↔ b = [] ∧ x = [] :=
  ⟨fun h => by cases h; exact ⟨rfl, rfl⟩, fun ⟨hb, hx⟩ => hb ▸ hx ▸ .start⟩

@[simp] theorem matches_finish : Matches .finish b x a ↔ x = [] ∧ a = [] :=
  ⟨fun h => by cases h; exact ⟨rfl, rfl⟩, by rintro ⟨rfl, rfl⟩; exact .finish⟩

@[simp] theorem matches_seq : Matches (.seq r s) b x a ↔
    ∃ y z, x = y ++ z ∧ Matches r b y (z ++ a) ∧ Matches s (b ++ y) z a :=
  ⟨fun h => by cases h with | seq hr hs => exact ⟨_, _, rfl, hr, hs⟩,
    fun ⟨_, _, hx, hr, hs⟩ => hx ▸ .seq hr hs⟩

@[simp] theorem matches_alt : Matches (.alt r s) b x a ↔ Matches r b x a ∨ Matches s b x a :=
  ⟨fun h => by cases h with | left h => exact .inl h | right h => exact .inr h,
    fun h => h.elim .left .right⟩

/-- A repeated range matches texts of any length with characters between the bounds. -/
theorem matches_star_range :
    Matches (.star (.range low high)) b x a ↔ ∀ c ∈ x, low ≤ c ∧ c ≤ high := by
  constructor
  · intro h
    generalize hr : Regex.star (.range low high) = r at h
    induction h with
    | more hone _ _ ih =>
      cases hr
      obtain ⟨c, rfl, hc⟩ := matches_range.1 hone
      intro d hd
      rcases List.mem_cons.1 hd with rfl | hd
      · exact hc
      · exact ih rfl d hd
    | done => simp
    | _ => cases hr
  · intro h
    induction x generalizing b with
    | nil => exact .done
    | cons c x ih =>
      exact .more (.range (h c List.mem_cons_self)) (ih fun d hd => h d (List.mem_cons_of_mem _ hd))

theorem matches_seq_assoc {t : Regex} :
    Matches (.seq (.seq r s) t) b x a ↔ Matches (.seq r (.seq s t)) b x a := by
  constructor
  · intro h
    obtain ⟨_, w, rfl, h, ht⟩ := matches_seq.1 h
    obtain ⟨y, z, rfl, hr, hs⟩ := matches_seq.1 h
    rw [List.append_assoc]
    exact .seq (by simpa using hr) (.seq hs (by simpa using ht))
  · intro h
    obtain ⟨y, _, rfl, hr, h⟩ := matches_seq.1 h
    obtain ⟨z, w, rfl, hs, ht⟩ := matches_seq.1 h
    rw [← List.append_assoc]
    exact .seq (.seq (by simpa using hr) hs) (by simpa using ht)

theorem matches_seq_start : Matches (.seq .start r) b x a ↔ b = [] ∧ Matches r [] x a := by
  constructor
  · intro h
    obtain ⟨_, _, rfl, hs, h⟩ := matches_seq.1 h
    obtain ⟨rfl, rfl⟩ := matches_start.1 hs
    exact ⟨rfl, h⟩
  · rintro ⟨rfl, h⟩
    exact .seq .start h

theorem matches_seq_finish : Matches (.seq r .finish) b x a ↔ a = [] ∧ Matches r b x [] := by
  constructor
  · intro h
    obtain ⟨_, _, rfl, h, hf⟩ := matches_seq.1 h
    obtain ⟨rfl, rfl⟩ := matches_finish.1 hf
    exact ⟨rfl, by simpa using h⟩
  · rintro ⟨rfl, h⟩
    simpa using Matches.seq (y := []) (by simpa using h) .finish

/-- An expression that is tied to both ends has to match the whole text. -/
theorem finds_anchored {text : String} :
    Finds (.seq .start (.seq r .finish)) text ↔ Matches r [] text.toList [] := by
  simp only [Finds, matches_seq_start, matches_seq_finish]
  constructor
  · rintro ⟨_, x, _, ht, rfl, rfl, h⟩
    simpa [ht] using h
  · intro h
    exact ⟨[], text.toList, [], by simp, rfl, rfl, h⟩

end

/-! ## Numerals -/

/-- Zero, or a digit from one on and then any digits. -/
def natural : Regex :=
  .alt (.range '0' '0') (.seq (.range '1' '9') (.star digit))

theorem ofText?_unsignedKeyPattern :
    ofText? Schema.unsignedKeyPattern = some (.seq .start (.seq natural .finish)) := by
  decide +kernel

theorem ofText?_signedKeyPattern :
    ofText? Schema.signedKeyPattern
      = some (.seq .start (.seq (opt (.range '-' '-')) (.seq natural .finish))) := by
  decide +kernel

theorem toNat_digit : ∀ j < 10, (Numeral.digit j).toNat = 48 + j := by
  decide

/-- The decimal digits from one digit on are a range of characters. -/
theorem between_digits (l : Nat) (hl : l < 10) (c : Char) :
    Numeral.digit l ≤ c ∧ c ≤ Numeral.digit 9 ↔ ∃ j, l ≤ j ∧ j < 10 ∧ c = Numeral.digit j := by
  rw [Char.le_def, Char.le_def, UInt32.le_iff_toNat_le, UInt32.le_iff_toNat_le]
  change (Numeral.digit l).toNat ≤ c.toNat ∧ c.toNat ≤ (Numeral.digit 9).toNat ↔ _
  rw [toNat_digit l hl, toNat_digit 9 (by decide)]
  constructor
  · rintro ⟨h1, h2⟩
    refine ⟨c.toNat - 48, by omega, by omega, Char.toNat_inj.1 ?_⟩
    rw [toNat_digit _ (by omega)]
    omega
  · rintro ⟨j, h1, h2, rfl⟩
    rw [toNat_digit j h2]
    omega

theorem matches_natural {b x a : List Char} :
    Matches natural b x a ↔ ∃ n, x = Numeral.numeral 10 n := by
  have zero : ∀ c : Char, '0' ≤ c ∧ c ≤ '0' ↔ c = Numeral.digit 0 := fun c =>
    ⟨fun h => Char.le_antisymm h.2 h.1, fun h => h ▸ ⟨Char.le_refl _, Char.le_refl _⟩⟩
  have any : ∀ c : Char, '0' ≤ c ∧ c ≤ '9' ↔ ∃ j < 10, c = Numeral.digit j := fun c =>
    (between_digits 0 (by decide) c).trans (by simp)
  have first : ∀ c : Char, '1' ≤ c ∧ c ≤ '9' ↔ ∃ j, 1 ≤ j ∧ j < 10 ∧ c = Numeral.digit j :=
    between_digits 1 (by decide)
  rw [Numeral.exists_numeral_iff (by decide)]
  simp only [natural, digit, matches_alt, matches_range, matches_seq, matches_star_range, zero,
    first, any]
  constructor
  · rintro (⟨c, rfl, rfl⟩ | ⟨_, ds, rfl, ⟨_, rfl, k, hk, hk10, rfl⟩, hds⟩)
    · exact ⟨0, [], rfl, by simp, fun _ => rfl⟩
    · obtain ⟨ks, rfl, hks⟩ := Numeral.exists_digits hds
      exact ⟨k, ks, rfl, by simpa using ⟨hk10, hks⟩, fun h0 => absurd h0 (by omega)⟩
  · rintro ⟨k, ks, rfl, hks, h0⟩
    rcases Nat.eq_zero_or_pos k with rfl | hk
    · obtain rfl := h0 rfl
      exact .inl ⟨_, rfl, rfl⟩
    · refine .inr ⟨[Numeral.digit k], ks.map Numeral.digit, rfl,
        ⟨_, rfl, k, hk, hks k List.mem_cons_self, rfl⟩, ?_⟩
      intro c hc
      obtain ⟨j, hj, rfl⟩ := List.mem_map.1 hc
      exact ⟨j, hks j (List.mem_cons_of_mem _ hj), rfl⟩

/-- **Unsigned keys.** The pattern matches the numerals of the natural numbers. -/
theorem matches_unsignedKeyPattern {text : String} :
    (∃ r, ofText? Schema.unsignedKeyPattern = some r ∧ r.Finds text)
      ↔ ∃ n, text.toList = Numeral.numeral 10 n := by
  simp only [ofText?_unsignedKeyPattern, Option.some.injEq, exists_eq_left', finds_anchored,
    matches_natural]

/-- **Signed keys.** The pattern matches the numerals of the natural numbers, with or without a
minus sign in front. -/
theorem matches_signedKeyPattern {text : String} :
    (∃ r, ofText? Schema.signedKeyPattern = some r ∧ r.Finds text)
      ↔ ∃ n, text.toList = Numeral.numeral 10 n ∨ text.toList = '-' :: Numeral.numeral 10 n := by
  have minus : ∀ c : Char, '-' ≤ c ∧ c ≤ '-' ↔ c = '-' := fun c =>
    ⟨fun h => Char.le_antisymm h.2 h.1, fun h => h ▸ ⟨Char.le_refl _, Char.le_refl _⟩⟩
  have whole : Finds (.seq .start (.seq (opt (.range '-' '-')) (.seq natural .finish))) text
      ↔ Matches (.seq (opt (.range '-' '-')) natural) [] text.toList [] := by
    rw [← finds_anchored]
    simp only [Finds, matches_seq_start, matches_seq_assoc]
  simp only [ofText?_signedKeyPattern, Option.some.injEq, exists_eq_left', whole]
  simp only [opt, matches_seq, matches_alt, matches_range, matches_empty, minus, matches_natural]
  constructor
  · rintro ⟨_, _, ht, ⟨_, rfl, rfl⟩ | rfl, n, rfl⟩
    · exact ⟨n, .inr ht⟩
    · exact ⟨n, .inl ht⟩
  · rintro ⟨n, h | h⟩
    · exact ⟨[], _, h, .inr rfl, n, rfl⟩
    · exact ⟨['-'], _, h, .inl ⟨_, rfl, rfl⟩, n, rfl⟩

/-- Every pattern of a schema is read; the one of durations is not taken apart any further. -/
example : (ofText? WellKnown.durationPattern).isSome = true := by
  decide +kernel

end Regex
end McpCatalog
