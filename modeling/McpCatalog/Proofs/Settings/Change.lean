import McpCatalog.Proofs.Numeral
import McpCatalog.Settings.Parameter
/-!
# Changes of settings

Each key of a parameter stands for one field of the settings, and a text under it for a value of
that field. Keys that are all different change different fields, so that their order makes no
difference.

Results:
* `natural_eq_some_iff`: which texts are numbers.
* `withPair_eq_ok_iff`: a pair changes the field of its key and nothing else.
* `foldlM_withPair_eq_ok_iff`: pairs with different keys change the fields of their keys and nothing
  else.
-/
namespace McpCatalog

/-! ## Names -/

theorem Format.ofName?_eq_some_iff {text : String} {format : Format} :
    ofName? text = some format ↔ text = format.name := by
  constructor
  · unfold ofName?
    split <;> rintro ⟨⟩ <;> rfl
  · rintro rfl
    cases format <;> rfl

theorem Diagnostics.ofName?_eq_some_iff {text : String} {diagnostics : Diagnostics} :
    ofName? text = some diagnostics ↔ text = diagnostics.name := by
  constructor
  · unfold ofName?
    split <;> rintro ⟨⟩ <;> rfl
  · rintro rfl
    cases diagnostics <;> rfl

namespace Settings

/-! ## Numbers -/

/-- The text is the numeral of the number, which fits in 64 bits, behind zeros and perhaps a plus
sign. -/
def IsNumber (text : String) (n : Nat) : Prop :=
  n < UInt64.size ∧ ∃ sign zeros, (sign = [] ∨ sign = ['+']) ∧
    text.toList = sign ++ (List.replicate zeros '0' ++ Numeral.numeral 10 n)

/-- The digits of a number, which can have a plus sign in front. -/
def unsigned : List Char → List Char
  | '+' :: digits => digits
  | digits => digits

theorem unsigned_of_isDigit {cs : List Char} (h : ∀ c ∈ cs, c.isDigit = true) :
    unsigned cs = cs := by
  cases cs with
  | nil => rfl
  | cons c cs =>
    unfold unsigned
    split
    · rename_i heq
      cases heq
      cases h '+' List.mem_cons_self
    · rfl

theorem exists_unsigned (cs : List Char) :
    ∃ sign, (sign = [] ∨ sign = ['+']) ∧ cs = sign ++ unsigned cs := by
  unfold unsigned
  split
  · exact ⟨['+'], .inr rfl, rfl⟩
  · exact ⟨[], .inl rfl, rfl⟩

theorem foldl_eq_value {cs : List Char} (h : ∀ c ∈ cs, c.isDigit = true) (n : Nat) :
    cs.foldl (fun n c => 10 * n + (c.toNat - '0'.toNat)) n
      = cs.foldl (fun n c => 10 * n + Numeral.digitValue c) n := by
  induction cs generalizing n with
  | nil => rfl
  | cons c cs ih =>
    have hc : Numeral.digitValue c = c.toNat - '0'.toNat := if_pos (h c List.mem_cons_self)
    rw [List.foldl_cons, List.foldl_cons, hc, ih fun d hd => h d (List.mem_cons_of_mem _ hd)]

theorem natural_eq_ite (text : String) :
    natural text =
      if (unsigned text.toList).isEmpty ∨ !(unsigned text.toList).all Char.isDigit then none
      else
        let n := (unsigned text.toList).foldl (fun n c => 10 * n + (c.toNat - '0'.toNat)) 0
        if n < UInt64.size then some n else none := rfl

theorem natural_eq_some {text : String} {n : Nat} :
    natural text = some n ↔
      unsigned text.toList ≠ [] ∧ (∀ c ∈ unsigned text.toList, c.isDigit = true) ∧
        Numeral.value 10 (unsigned text.toList) = n ∧ n < UInt64.size := by
  rw [natural_eq_ite]
  generalize unsigned text.toList = digits
  by_cases h : digits ≠ [] ∧ ∀ c ∈ digits, c.isDigit = true
  · rw [if_neg (by simpa using h), foldl_eq_value h.2]
    change (if Numeral.value 10 digits < UInt64.size then some (Numeral.value 10 digits) else none)
      = some n ↔ _
    constructor
    · intro hn
      obtain ⟨hlt, ⟨⟩⟩ := Option.ite_none_right_eq_some.1 hn
      exact ⟨h.1, h.2, rfl, hlt⟩
    · intro ⟨_, _, hvalue, hlt⟩
      rw [hvalue, if_pos hlt]
  · rw [if_pos (by simpa [Decidable.imp_iff_not_or] using h)]
    constructor
    · intro hn
      cases hn
    · intro ⟨hne, hdigits, _⟩
      exact absurd ⟨hne, hdigits⟩ h

/-- A text is read as a number exactly if it is one. -/
theorem natural_eq_some_iff {text : String} {n : Nat} :
    natural text = some n ↔ IsNumber text n := by
  rw [natural_eq_some]
  constructor
  · intro ⟨hne, hdigits, hvalue, hlt⟩
    obtain ⟨sign, hsign, htext⟩ := exists_unsigned text.toList
    obtain ⟨zeros, m, hzeros⟩ := Numeral.exists_zeros hne hdigits
    rw [hzeros, Numeral.value_zeros] at hvalue
    subst hvalue
    rw [hzeros] at htext
    exact ⟨hlt, sign, zeros, hsign, htext⟩
  · intro ⟨hlt, sign, zeros, hsign, htext⟩
    have hdigits : ∀ c ∈ List.replicate zeros '0' ++ Numeral.numeral 10 n, c.isDigit = true := by
      intro c hc
      rcases List.mem_append.1 hc with hc | hc
      · rw [List.eq_of_mem_replicate hc]
        rfl
      · exact Numeral.isDigit_of_mem hc
    have hunsigned : unsigned text.toList
        = List.replicate zeros '0' ++ Numeral.numeral 10 n := by
      rw [htext]
      rcases hsign with rfl | rfl
      · exact unsigned_of_isDigit hdigits
      · rfl
    rw [hunsigned]
    exact ⟨by simp [Numeral.numeral_ne_nil], hdigits, Numeral.value_zeros zeros n, hlt⟩

/-! ## Keys -/

/-- What a parameter can give a value to. -/
inductive Key where
  /-- The file with the settings to start from. -/
  | config
  | suffix
  | nameLimit
  | format
  | diagnostics
  | diagnosticsFile
  deriving DecidableEq

namespace Key

def name : Key → String
  | config => "config"
  | suffix => "suffix"
  | nameLimit => "max_tool_name_len"
  | format => "format"
  | diagnostics => "diagnostics"
  | diagnosticsFile => "diagnostics_file"

/-- What the settings have under a key. The file to start from leaves no trace in them. -/
abbrev Field : Key → Type
  | config => Unit
  | suffix => Option String
  | nameLimit => Nat
  | format => Format
  | diagnostics => Diagnostics
  | diagnosticsFile => Option String

def get : (k : Key) → Settings → k.Field
  | config, _ => ()
  | suffix, s => s.suffix
  | nameLimit, s => s.nameLimit
  | format, s => s.format
  | diagnostics, s => s.diagnostics
  | diagnosticsFile, s => s.diagnosticsFile

def set : (k : Key) → k.Field → Settings → Settings
  | config, _, s => s
  | suffix, x, s => { s with suffix := x }
  | nameLimit, x, s => { s with nameLimit := x }
  | format, x, s => { s with format := x }
  | diagnostics, x, s => { s with diagnostics := x }
  | diagnosticsFile, x, s => { s with diagnosticsFile := x }

/-- What a text under the key asks for. -/
def Means : (k : Key) → (text : String) → k.Field → Prop
  | config, _, _ => True
  | suffix, text, x => x = some text
  | nameLimit, text, x => IsNumber text x
  | format, text, x => text = x.name
  | diagnostics, text, x => text = x.name
  | diagnosticsFile, text, x => x = some text

theorem name_injective : Function.Injective name := by
  intro k l h
  cases k <;> cases l <;> simp [name] at h ⊢

theorem get_set_self (k : Key) (x : k.Field) (s : Settings) : k.get (k.set x s) = x := by
  cases k <;> rfl

theorem get_set_of_ne {k l : Key} (h : l ≠ k) (x : k.Field) (s : Settings) :
    l.get (k.set x s) = l.get s := by
  cases k <;> cases l <;> simp [get, set] at h ⊢

end Key

/-- Settings have nothing but what is under the keys. -/
theorem ext_get {s t : Settings} (h : ∀ k : Key, k.get s = k.get t) : s = t := by
  cases s
  cases t
  obtain rfl := h .suffix
  obtain rfl := h .nameLimit
  obtain rfl := h .format
  obtain rfl := h .diagnostics
  obtain rfl := h .diagnosticsFile
  rfl

/-! ## Pairs -/

theorem bind_eq_ok_iff {α β : Type} {x : Except Error α} {f : α → Except Error β} {b : β} :
    x >>= f = .ok b ↔ ∃ a, x = .ok a ∧ f a = .ok b := by
  cases x <;> simp [bind, Except.bind]

theorem orError_map_eq_ok_iff {α : Type} {error : Error} {x : Option α} {f : α → Settings}
    {s : Settings} : (orError error x).map f = .ok s ↔ ∃ a, x = some a ∧ s = f a := by
  cases x <;> simp [orError, Except.map, eq_comm]

/-- A pair changes the field of its key to what its text asks for, and nothing else. -/
theorem withPair_eq_ok_iff {k : Key} {text : String} {s t : Settings} :
    withPair s (k.name, text) = .ok t ↔ ∃ x, k.Means text x ∧ t = k.set x s := by
  cases k with
  | config => simp [withPair, Key.name, Key.Means, Key.set, eq_comm]
  | suffix => simp [withPair, Key.name, Key.Means, Key.set, eq_comm]
  | nameLimit =>
    refine orError_map_eq_ok_iff.trans ?_
    simp only [natural_eq_some_iff]
    rfl
  | format =>
    refine orError_map_eq_ok_iff.trans ?_
    simp only [Format.ofName?_eq_some_iff]
    rfl
  | diagnostics =>
    refine orError_map_eq_ok_iff.trans ?_
    simp only [Diagnostics.ofName?_eq_some_iff]
    rfl
  | diagnosticsFile => simp [withPair, Key.name, Key.Means, Key.set, eq_comm]

theorem exists_key_of_withPair {key text : String} {s t : Settings}
    (h : withPair s (key, text) = .ok t) : ∃ k : Key, key = k.name := by
  unfold withPair at h
  split at h <;> rename_i heq
  · exact ⟨.config, congrArg Prod.fst heq⟩
  · exact ⟨.suffix, congrArg Prod.fst heq⟩
  · exact ⟨.nameLimit, congrArg Prod.fst heq⟩
  · exact ⟨.format, congrArg Prod.fst heq⟩
  · exact ⟨.diagnostics, congrArg Prod.fst heq⟩
  · exact ⟨.diagnosticsFile, congrArg Prod.fst heq⟩
  · cases h

theorem exists_key_of_mem {ps : List (String × String)} {s t : Settings}
    (h : ps.foldlM withPair s = .ok t) : ∀ e ∈ ps, ∃ k : Key, e.1 = k.name := by
  induction ps generalizing s with
  | nil => simp
  | cons e ps ih =>
    rw [List.foldlM_cons, bind_eq_ok_iff] at h
    obtain ⟨u, hu, ht⟩ := h
    exact List.forall_mem_cons.2 ⟨exists_key_of_withPair hu, ih ht⟩

/-! ## Lists of keys -/

/-- Each key that has a value is in the list with it, once. -/
structure Lists {α : Type} (values : Key → Option α) (es : List (Key × α)) : Prop where
  nodup : (es.map Prod.fst).Nodup
  mem_iff : ∀ k a, (k, a) ∈ es ↔ values k = some a

theorem lookup_eq_none_iff_not_mem {κ α : Type} [DecidableEq κ] {k : κ} {es : List (κ × α)} :
    es.lookup k = none ↔ k ∉ es.map Prod.fst := by
  rw [List.lookup_eq_none_iff, List.mem_map, not_exists]
  refine forall_congr' fun e => ?_
  rw [bne_iff_ne, not_and, ne_comm]

theorem Lists.lookup_eq {α : Type} {values : Key → Option α} {es : List (Key × α)}
    (h : Lists values es) (k : Key) : es.lookup k = values k := by
  cases hk : es.lookup k with
  | none =>
    symm
    rw [Option.eq_none_iff_forall_ne_some]
    intro a ha
    have hmem : (k, a) ∈ es := (h.mem_iff k a).2 ha
    exact lookup_eq_none_iff_not_mem.1 hk (List.mem_map_of_mem hmem)
  | some a =>
    obtain ⟨l₁, l₂, rfl, -⟩ := List.lookup_eq_some_iff.1 hk
    exact ((h.mem_iff k a).1 (by simp)).symm

/-! ## Pairs with different keys -/

/-- How a field changes: to what the text asks for, if there is one, or not at all. -/
def Key.Becomes (k : Key) (text : Option String) (x y : k.Field) : Prop :=
  match text with
  | some text => k.Means text y
  | none => y = x

/-- The field of each key with a text is as the text asks for, and the others are as before. -/
def Replaces (texts : Key → Option String) (s t : Settings) : Prop :=
  ∀ k : Key, k.Becomes (texts k) (k.get s) (k.get t)

theorem replaces_none {s t : Settings} : Replaces (fun _ => none) s t ↔ t = s :=
  ⟨ext_get, fun h k => congrArg k.get h⟩

/-- A first pair makes its change, and the other pairs go on from there: they leave the field of its
key alone. -/
theorem replaces_cons {k : Key} {text : String} {es : List (Key × String)} {s t : Settings}
    (h : es.lookup k = none) :
    Replaces (((k, text) :: es).lookup ·) s t ↔
      ∃ x, k.Means text x ∧ Replaces (es.lookup ·) (k.set x s) t := by
  have hother : ∀ l, l ≠ k → ((k, text) :: es).lookup l = es.lookup l := fun l hl => by
    rw [List.lookup_cons, beq_false_of_ne hl]
  constructor
  · intro hr
    have hk := hr k
    simp only [List.lookup_cons_self] at hk
    refine ⟨k.get t, hk, fun l => ?_⟩
    by_cases hl : l = k
    · subst hl
      simp only [h, Key.get_set_self]
      rfl
    · have hl' := hr l
      simp only [hother l hl] at hl'
      rwa [Key.get_set_of_ne hl]
  · intro ⟨x, hx, hr⟩ l
    by_cases hl : l = k
    · subst hl
      have hk := hr l
      simp only [h, Key.get_set_self] at hk
      simp only [List.lookup_cons_self]
      exact hk ▸ hx
    · have hl' := hr l
      rw [Key.get_set_of_ne hl] at hl'
      simpa only [hother l hl] using hl'

/-- What is under a key, with the name of the key. -/
def Key.named {α : Type} (e : Key × α) : String × α :=
  (e.1.name, e.2)

theorem foldlM_withPair_eq_ok_iff {es : List (Key × String)} (h : (es.map Prod.fst).Nodup)
    {s t : Settings} :
    (es.map Key.named).foldlM withPair s = .ok t ↔ Replaces (es.lookup ·) s t := by
  induction es generalizing s with
  | nil =>
    refine Iff.trans ?_ replaces_none.symm
    simp [pure, Except.pure, eq_comm]
  | cons e es ih =>
    obtain ⟨k, text⟩ := e
    obtain ⟨hk, hes⟩ := List.nodup_cons.1 h
    rw [replaces_cons (lookup_eq_none_iff_not_mem.2 hk), List.map_cons, List.foldlM_cons,
      bind_eq_ok_iff]
    constructor
    · intro ⟨u, hu, ht⟩
      obtain ⟨x, hx, rfl⟩ := withPair_eq_ok_iff.1 hu
      exact ⟨x, hx, (ih hes).1 ht⟩
    · intro ⟨x, hx, ht⟩
      exact ⟨k.set x s, withPair_eq_ok_iff.2 ⟨x, hx, rfl⟩, (ih hes).2 ht⟩

end Settings
end McpCatalog
