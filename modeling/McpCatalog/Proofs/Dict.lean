import McpCatalog.Json.Value
/-!
# Entries of dictionaries

What the entries of a dictionary are, in terms of its look-ups and of the list it was
made from.

Results:
* `mem_entries_iff`: the entries are the keys with their look-ups.
* `mem_entries_ofList`: a list without a repeated key has the entries of its dictionary.
* `pairwise_keys`: the keys are strictly increasing.
* `ext_contains`: a set of names is determined by the names in it.
* `mem_keys_foldl`, `mem_keys_ofList`: the keys are those that were put in.
* `get?_ofList_map`, `entries_ofList_map`: the dictionary with other keys or values.
-/
namespace McpCatalog

variable {α : Type}

namespace Entries

theorem mem_iff_lookup {es : List (String × α)} (ho : Ordered es) (k : String) (v : α) :
    (k, v) ∈ es ↔ es.lookup k = some v := by
  induction es with
  | nil => simp
  | cons hd tl ih =>
    obtain ⟨k₀, v₀⟩ := hd
    obtain ⟨hlt, htl⟩ := List.pairwise_cons.1 ho
    by_cases hk : k = k₀
    · subst hk
      have hnot : (k, v) ∉ tl := fun h => String.lt_irrefl k (hlt _ h)
      simp [hnot, eq_comm]
    · rw [lookup_cons_of_ne v₀ tl hk, List.mem_cons, ← ih htl]
      simp [hk]

end Entries

namespace Dict

theorem mem_entries_iff {d : Dict α} {k : String} {v : α} :
    (k, v) ∈ d.entries ↔ d.get? k = some v :=
  Entries.mem_iff_lookup d.ordered k v

theorem pairwise_keys (d : Dict α) : d.keys.Pairwise (· < ·) :=
  List.pairwise_map.2 d.ordered

theorem nodup_keys (d : Dict α) : d.keys.Nodup := by
  refine d.pairwise_keys.imp ?_
  intro a b hlt heq
  exact String.lt_irrefl a (heq ▸ hlt)

theorem ext_contains {d e : NameSet} (h : ∀ k, d.contains k = e.contains k) : d = e := by
  refine get?_ext fun k => ?_
  have hk := h k
  simp only [contains] at hk
  cases hd : d.get? k <;> cases he : e.get? k <;> simp_all

/-- Of two insertions under one key the last counts. -/
theorem insert_insert (d : Dict α) (k : String) (v w : α) :
    (d.insert k v).insert k w = d.insert k w := by
  apply get?_ext
  intro k'
  simp only [get?_insert]
  split <;> rfl

theorem mem_keys_foldl {es : List (String × α)} {d : Dict α} {k : String} :
    k ∈ (es.foldl (fun d e => d.insert e.1 e.2) d).keys ↔ k ∈ es.map (·.1) ∨ k ∈ d.keys := by
  induction es generalizing d with
  | nil => simp
  | cons e es ih =>
    rw [List.foldl_cons, ih, mem_keys_iff, get?_insert, List.map_cons, List.mem_cons, mem_keys_iff]
    by_cases hk : k = e.1 <;> simp [hk]

theorem mem_keys_ofList {es : List (String × α)} {k : String} :
    k ∈ (ofList es).keys ↔ k ∈ es.map (·.1) := by
  rw [ofList, mem_keys_foldl]
  simp [empty, keys]

theorem mem_keys_foldl_insert {names : List String} {d : NameSet} {t : String} :
    t ∈ (names.foldl (fun d n => d.insert n ()) d).keys ↔ t ∈ names ∨ t ∈ d.keys := by
  have hkeys : (names.map fun n => (n, ())).map (·.1) = names := by simp [Function.comp_def]
  have hentries : t ∈ ((names.map fun n => (n, ())).foldl (fun d e => d.insert e.1 e.2) d).keys
      ↔ t ∈ (names.map fun n => (n, ())).map (·.1) ∨ t ∈ d.keys := mem_keys_foldl
  rwa [List.foldl_map, hkeys] at hentries

/-- There is no entry but those that were put in. -/
theorem mem_of_mem_foldl {es : List (String × α)} {d : Dict α} {e : String × α}
    (h : e ∈ (es.foldl (fun d e => d.insert e.1 e.2) d).entries) : e ∈ es ∨ e ∈ d.entries := by
  induction es generalizing d with
  | nil => exact .inr h
  | cons e' es ih =>
    rcases ih h with hes | hd
    · exact .inl (List.mem_cons_of_mem _ hes)
    · rcases Entries.mem_insert hd with rfl | hd
      · exact .inl List.mem_cons_self
      · exact .inr hd

theorem mem_of_mem_ofList {es : List (String × α)} {e : String × α}
    (h : e ∈ (ofList es).entries) : e ∈ es :=
  (mem_of_mem_foldl h).resolve_right List.not_mem_nil

theorem get?_foldl_insert {es : List (String × α)} (hn : (es.map (·.1)).Nodup) (d : Dict α)
    (k : String) (v : α) :
    (es.foldl (fun d e => d.insert e.1 e.2) d).get? k = some v
      ↔ (k, v) ∈ es ∨ k ∉ es.map (·.1) ∧ d.get? k = some v := by
  induction es generalizing d with
  | nil => simp
  | cons e es ih =>
    obtain ⟨k₀, v₀⟩ := e
    obtain ⟨hnot, hn⟩ := List.nodup_cons.1 hn
    rw [List.foldl_cons, ih hn, get?_insert]
    by_cases hk : k = k₀
    · subst hk
      have hmem : (k, v) ∉ es := fun h => hnot (List.mem_map.2 ⟨_, h, rfl⟩)
      simp [hnot, hmem, eq_comm]
    · simp [hk]

theorem mem_entries_ofList {es : List (String × α)} (hn : (es.map (·.1)).Nodup)
    (e : String × α) : e ∈ (ofList es).entries ↔ e ∈ es := by
  obtain ⟨k, v⟩ := e
  rw [mem_entries_iff, ofList, get?_foldl_insert hn]
  simp

/-- Entries that are in order stay as they are. -/
theorem entries_ofList {es : List (String × α)} (ho : Entries.Ordered es) :
    (ofList es).entries = es := by
  have hn : (es.map (·.1)).Nodup := by
    refine List.pairwise_map.2 (ho.imp fun {a b} hlt heq => ?_)
    exact String.lt_irrefl a.1 (heq ▸ hlt)
  refine Entries.ext_lookup (ofList es).ordered ho fun k => Option.ext fun v => ?_
  rw [← Entries.mem_iff_lookup ho, ← mem_entries_ofList hn, mem_entries_iff]
  rfl

/-! ## Other keys and values -/

/-- Where keys are renamed, each to a key of its own, the values are found under the new keys. -/
theorem get?_ofList_map {β : Type} {rename : String → String}
    (hrename : Function.Injective rename) (f : String × α → β) (es : List (String × α))
    (k : String) :
    (ofList (es.map fun e => (rename e.1, f e))).get? (rename k)
      = ((ofList es).get? k).map fun v => f (k, v) := by
  suffices hrun : ∀ (d : Dict β) (d' : Dict α),
      d.get? (rename k) = (d'.get? k).map (fun v => f (k, v)) →
      ((es.map fun e => (rename e.1, f e)).foldl (fun d e => d.insert e.1 e.2) d).get? (rename k)
        = ((es.foldl (fun d e => d.insert e.1 e.2) d').get? k).map fun v => f (k, v) from
    hrun empty empty rfl
  induction es with
  | nil =>
    intro d d' h
    exact h
  | cons e es ih =>
    intro d d' h
    rw [List.map_cons, List.foldl_cons, List.foldl_cons]
    apply ih
    rw [get?_insert, get?_insert]
    by_cases hk : k = e.1
    · subst hk
      simp
    · rw [if_neg hk, if_neg fun heq => hk (hrename heq), h]

/-- Where values are changed, the entries are those of the keys with the new values. -/
theorem entries_ofList_map {β : Type} (f : α → β) (es : List (String × α)) :
    (ofList (es.map fun e => (e.1, f e.2))).entries
      = (ofList es).entries.map fun e => (e.1, f e.2) := by
  have hordered : Entries.Ordered ((ofList es).entries.map fun e => (e.1, f e.2)) :=
    List.pairwise_map.2 (ofList es).ordered
  refine Entries.ext_lookup (ofList _).ordered hordered fun k => Option.ext fun w => ?_
  have hget : (ofList (es.map fun e => (e.1, f e.2))).get? k = ((ofList es).get? k).map f :=
    get?_ofList_map (fun _ _ => id) (fun e => f e.2) es k
  rw [← Entries.mem_iff_lookup hordered, ← get?, hget, Option.map_eq_some_iff, List.mem_map]
  constructor
  · rintro ⟨v, hv, rfl⟩
    exact ⟨(k, v), mem_entries_iff.2 hv, rfl⟩
  · rintro ⟨⟨k', v⟩, hmem, heq⟩
    obtain ⟨rfl, rfl⟩ := Prod.mk.inj heq
    exact ⟨v, mem_entries_iff.1 hmem, rfl⟩

end Dict

/-- The members of an object made from members with different names. -/
theorem Json.mem_members {ms : List (String × Json)} (hn : (ms.map (·.1)).Nodup)
    (e : String × Json) : e ∈ Json.members ms ↔ e ∈ ms :=
  Dict.mem_entries_ofList hn e

end McpCatalog
