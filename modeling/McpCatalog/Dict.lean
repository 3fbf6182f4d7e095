/-!
# Dictionaries ordered by name

A dictionary keeps its entries strictly ordered by key, so that two dictionaries
with the same look-ups are equal and the order of insertion leaves no trace. Keys
are ordered by code points, which is the order of their UTF-8 bytes.

Results:
* `get?_insert_self`, `get?_insert_of_ne`: an insertion is seen at its key only.
* `get?_ext`: a dictionary is determined by its look-ups.
* `mem_keys_iff`: the keys are the names with a look-up.
* `unvisited_cons_lt`: a walk over a dictionary that meets no name twice ends.
-/
namespace McpCatalog

/-! ## Ordered entries -/

namespace Entries

variable {α β : Type}

/-- Puts an entry in its place, over the one with the same key if there is one. -/
def insert (k : String) (v : α) : List (String × α) → List (String × α)
  | [] => [(k, v)]
  | (k', v') :: rest =>
    if k < k' then (k, v) :: (k', v') :: rest
    else if k = k' then (k, v) :: rest
    else (k', v') :: insert k v rest

/-- Every key is smaller than those behind it. -/
abbrev Ordered (es : List (String × α)) : Prop :=
  es.Pairwise fun a b => a.1 < b.1

theorem lt_of_not_lt_of_ne {a b : String} (h : ¬ a < b) (hne : a ≠ b) : b < a :=
  Decidable.byContradiction fun h' =>
    hne (String.le_antisymm (String.not_lt.1 h') (String.not_lt.1 h))

theorem mem_insert {k : String} {v : α} {e : String × α} {es : List (String × α)}
    (h : e ∈ insert k v es) : e = (k, v) ∨ e ∈ es := by
  induction es with
  | nil => simpa [insert] using h
  | cons hd tl ih =>
    rw [insert] at h
    split at h
    · simpa using h
    · split at h
      · rcases List.mem_cons.1 h with h | h
        · exact .inl h
        · exact .inr (List.mem_cons_of_mem _ h)
      · rcases List.mem_cons.1 h with h | h
        · exact .inr (h ▸ List.mem_cons_self)
        · exact (ih h).imp_right (List.mem_cons_of_mem _)

theorem ordered_insert (k : String) (v : α) {es : List (String × α)} (h : Ordered es) :
    Ordered (insert k v es) := by
  induction es with
  | nil => simp [insert]
  | cons hd tl ih =>
    rw [insert]
    have ⟨hlt, htl⟩ := List.pairwise_cons.1 h
    split
    · next hk =>
      refine List.pairwise_cons.2 ⟨fun e he => ?_, h⟩
      rcases List.mem_cons.1 he with he | he
      · exact he ▸ hk
      · exact String.lt_trans hk (hlt e he)
    · next hk =>
      split
      · next heq => exact List.pairwise_cons.2 ⟨fun e he => heq ▸ hlt e he, htl⟩
      · next hne =>
        refine List.pairwise_cons.2 ⟨fun e he => ?_, ih htl⟩
        rcases mem_insert he with he | he
        · exact he ▸ lt_of_not_lt_of_ne hk hne
        · exact hlt e he

theorem lookup_cons_of_ne {k k₀ : String} (v₀ : α) (es : List (String × α)) (h : k ≠ k₀) :
    ((k₀, v₀) :: es).lookup k = es.lookup k := by
  rw [List.lookup_cons, beq_eq_false_iff_ne.2 h]

theorem lookup_insert_self (k : String) (v : α) (es : List (String × α)) :
    (insert k v es).lookup k = some v := by
  induction es with
  | nil => simp [insert]
  | cons hd tl ih =>
    obtain ⟨k₀, v₀⟩ := hd
    simp only [insert]
    split
    · simp
    · split
      · simp
      · next hne => rw [lookup_cons_of_ne v₀ _ hne, ih]

theorem lookup_insert_of_ne {k k' : String} (v : α) (hne : k' ≠ k) (es : List (String × α)) :
    (insert k v es).lookup k' = es.lookup k' := by
  induction es with
  | nil => simp [insert, hne]
  | cons hd tl ih =>
    obtain ⟨k₀, v₀⟩ := hd
    simp only [insert]
    split
    · rw [lookup_cons_of_ne v _ hne]
    · split
      · next heq => subst heq; rw [lookup_cons_of_ne v _ hne, lookup_cons_of_ne v₀ _ hne]
      · simp only [List.lookup_cons, ih]

theorem lookup_eq_none_of_lt {k : String} {es : List (String × α)}
    (h : ∀ e ∈ es, k < e.1) : es.lookup k = none := by
  induction es with
  | nil => rfl
  | cons hd tl ih =>
    obtain ⟨k₀, v₀⟩ := hd
    have hlt : k < k₀ := h (k₀, v₀) List.mem_cons_self
    have hne : k ≠ k₀ := fun he => String.lt_irrefl k₀ (he ▸ hlt)
    rw [lookup_cons_of_ne v₀ _ hne]
    exact ih fun e he => h e (List.mem_cons_of_mem _ he)

theorem le_key_of_lookup {k k₀ : String} {v₀ : α} {es : List (String × α)}
    (ho : Ordered ((k₀, v₀) :: es)) (h : (((k₀, v₀) :: es).lookup k).isSome = true) :
    ¬ k < k₀ := fun hlt => by
  have hnone : ((k₀, v₀) :: es).lookup k = none := lookup_eq_none_of_lt fun e he =>
    (List.mem_cons.1 he).elim (fun h' => h' ▸ hlt)
      fun h' => String.lt_trans hlt ((List.pairwise_cons.1 ho).1 e h')
  simp [hnone] at h

theorem ext_lookup {es fs : List (String × α)} (he : Ordered es) (hf : Ordered fs)
    (h : ∀ k, es.lookup k = fs.lookup k) : es = fs := by
  induction es generalizing fs with
  | nil =>
    cases fs with
    | nil => rfl
    | cons hd tl => obtain ⟨k₀, v₀⟩ := hd; simpa using h k₀
  | cons hd tl ih =>
    obtain ⟨k₀, v₀⟩ := hd
    cases fs with
    | nil => simpa using h k₀
    | cons hd' tl' =>
      obtain ⟨k₁, v₁⟩ := hd'
      have hk : k₀ = k₁ := Decidable.byContradiction fun hne =>
        le_key_of_lookup he (by rw [h]; simp)
          (lt_of_not_lt_of_ne (le_key_of_lookup hf (by rw [← h]; simp)) hne)
      subst hk
      have hv : v₀ = v₁ := by simpa using h k₀
      have htail : tl = tl' := by
        refine ih he.of_cons hf.of_cons fun k => ?_
        by_cases hkk : k = k₀
        · rw [lookup_eq_none_of_lt fun e hm => hkk ▸ (List.pairwise_cons.1 he).1 e hm,
            lookup_eq_none_of_lt fun e hm => hkk ▸ (List.pairwise_cons.1 hf).1 e hm]
        · rw [← lookup_cons_of_ne v₀ tl hkk, ← lookup_cons_of_ne v₁ tl' hkk, h]
      rw [hv, htail]

end Entries

/-! ## Dictionaries -/

/-- A finite map from names to values. -/
structure Dict (α : Type) where
  entries : List (String × α)
  ordered : Entries.Ordered entries

namespace Dict

variable {α β : Type}

def empty : Dict α :=
  ⟨[], .nil⟩

instance : Inhabited (Dict α) := ⟨empty⟩

instance : EmptyCollection (Dict α) := ⟨empty⟩

def get? (d : Dict α) (k : String) : Option α :=
  d.entries.lookup k

def contains (d : Dict α) (k : String) : Bool :=
  (d.get? k).isSome

def insert (d : Dict α) (k : String) (v : α) : Dict α :=
  ⟨Entries.insert k v d.entries, Entries.ordered_insert k v d.ordered⟩

def keys (d : Dict α) : List String :=
  d.entries.map (·.1)

def size (d : Dict α) : Nat :=
  d.entries.length

def isEmpty (d : Dict α) : Bool :=
  d.entries.isEmpty

/-- The dictionary of some entries; of those with one key the last counts. -/
def ofList (es : List (String × α)) : Dict α :=
  es.foldl (fun d e => d.insert e.1 e.2) empty

@[simp] theorem get?_empty (k : String) : (empty : Dict α).get? k = none := rfl

@[simp] theorem get?_insert_self (d : Dict α) (k : String) (v : α) :
    (d.insert k v).get? k = some v :=
  Entries.lookup_insert_self k v d.entries

theorem get?_insert_of_ne (d : Dict α) {k k' : String} (v : α) (h : k' ≠ k) :
    (d.insert k v).get? k' = d.get? k' :=
  Entries.lookup_insert_of_ne v h d.entries

theorem get?_insert (d : Dict α) (k k' : String) (v : α) :
    (d.insert k v).get? k' = if k' = k then some v else d.get? k' := by
  split
  · next h => rw [h, get?_insert_self]
  · next h => exact get?_insert_of_ne d v h

theorem get?_ext {d e : Dict α} (h : ∀ k, d.get? k = e.get? k) : d = e := by
  cases d with
  | mk es he =>
    cases e with
    | mk fs hf =>
      have : es = fs := Entries.ext_lookup he hf h
      subst this
      rfl

theorem mem_keys_iff {d : Dict α} {k : String} : k ∈ d.keys ↔ (d.get? k).isSome = true := by
  obtain ⟨es, h⟩ := d
  simp only [keys, get?]
  clear h
  induction es with
  | nil => simp
  | cons hd tl ih =>
    obtain ⟨k₀, v₀⟩ := hd
    by_cases hk : k = k₀
    · simp [hk]
    · rw [Entries.lookup_cons_of_ne v₀ tl hk, ← ih]
      simp [hk]

/-! ## Walks -/

/-- How many names of the dictionary are not on a path. A walk that goes on only from names
of the dictionary that it did not meet before has no more steps. -/
def unvisited (d : Dict α) (path : List String) : Nat :=
  (d.keys.filter fun k => !path.contains k).length

theorem unvisited_cons_lt {d : Dict α} {path : List String} {k : String} {v : α}
    (hv : d.get? k = some v) (hk : k ∉ path) : d.unvisited (k :: path) < d.unvisited path := by
  have hmem : k ∈ d.keys := mem_keys_iff.2 (by simp [hv])
  have h : d.keys.filter (fun n => !(k :: path).contains n)
      = (d.keys.filter fun n => !path.contains n).filter fun n => !decide (n = k) := by
    rw [List.filter_filter]
    congr 1
    funext n
    simp [Bool.not_or]
  rw [unvisited, unvisited, h]
  exact List.length_filter_lt_length_iff_exists.2 ⟨k, by simp [hmem, hk], by simp⟩

end Dict

/-- A set of names. -/
abbrev NameSet := Dict Unit

end McpCatalog
