import McpCatalog.Proofs.Dict
import McpCatalog.Proofs.Json.Reading
/-!
# Reading canonical texts

A canonical text has the members of every object in the order of their names as they are written,
and of members with one name only the last. That is all that the text does not keep: it is read
back as the value with the members of its objects put in this order.

Results:
* `quoted_injective`: a name can be told from how it is written.
* `mem_canonicalOrder`: a member is written if and only if it is the last one with its name.
* `toList_canonical_obj`: the text of an object.
* `read?_compact`: a compact text is read back as the value.
* `canonical_eq_compact`, `read?_canonical`: a canonical text is the compact text of the value in
  order, and is read back as such.
-/
namespace McpCatalog.Json

/-! ## Members in order -/

/-- The member of an object that counts: the last one with the name. -/
def member? (ms : List (String × Json)) (name : String) : Option Json :=
  (Dict.ofList ms).get? name

/-- The members in the order of their names as they are written, each name once. -/
def canonicalOrder (ms : List (String × Json)) : List (String × Json) :=
  (Dict.ofList (ms.map fun m => (quoted m.1, m))).entries.map (·.2)

theorem quoted_injective : Function.Injective quoted := by
  intro s t h
  rw [quoted, quoted, String.ofList_inj, List.cons.injEq] at h
  have hs := string?_escape s.toList []
  rw [h.2, string?_escape, Option.some.injEq, Prod.mk.injEq] at hs
  exact String.toList_inj.1 hs.1.symm

theorem mem_of_mem_canonicalOrder {ms : List (String × Json)} {m : String × Json}
    (h : m ∈ canonicalOrder ms) : m ∈ ms := by
  obtain ⟨e, he, rfl⟩ := List.mem_map.1 h
  obtain ⟨m, hm, rfl⟩ := List.mem_map.1 (Dict.mem_of_mem_ofList he)
  exact hm

theorem mem_canonicalOrder {ms : List (String × Json)} {name : String} {v : Json} :
    (name, v) ∈ canonicalOrder ms ↔ member? ms name = some v := by
  have hget := Dict.get?_ofList_map quoted_injective (fun m => m) ms name
  constructor
  · intro h
    obtain ⟨⟨key, m⟩, he, rfl⟩ := List.mem_map.1 h
    obtain ⟨m, -, heq⟩ := List.mem_map.1 (Dict.mem_of_mem_ofList he)
    obtain ⟨rfl, rfl⟩ := Prod.mk.inj heq
    rw [Dict.mem_entries_iff, hget] at he
    obtain ⟨w, hw, heq⟩ := Option.map_eq_some_iff.1 he
    rw [← (Prod.mk.inj heq).2]
    exact hw
  · intro h
    have he : (quoted name, name, v) ∈ (Dict.ofList (ms.map fun m => (quoted m.1, m))).entries := by
      rw [Dict.mem_entries_iff, hget]
      exact Option.map_eq_some_iff.2 ⟨v, h, rfl⟩
    exact List.mem_map.2 ⟨_, he, rfl⟩

/-- The order of the members does not depend on their values. -/
theorem canonicalOrder_map (f : Json → Json) (ms : List (String × Json)) :
    canonicalOrder (ms.map fun m => (m.1, f m.2))
      = (canonicalOrder ms).map fun m => (m.1, f m.2) := by
  have hentries := Dict.entries_ofList_map (fun m : String × Json => (m.1, f m.2))
    (ms.map fun m => (quoted m.1, m))
  rw [List.map_map] at hentries
  rw [canonicalOrder, canonicalOrder, List.map_map, List.map_map]
  exact (congrArg (List.map (·.2)) hentries).trans (List.map_map ..)

/-! ## Canonical texts -/

theorem canonicalItems_eq (items : List Json) : canonicalItems items = items.map canonical := by
  induction items with
  | nil => rfl
  | cons v items ih => rw [canonicalItems, ih, List.map_cons]

theorem quotedMembers_eq (ms : List (String × Json)) :
    quotedMembers ms = ms.map fun m => (quoted m.1, m.2.canonical) := by
  induction ms with
  | nil => rfl
  | cons m ms ih => rw [quotedMembers, ih, List.map_cons]

theorem canonicalMembers_eq (ms : List (String × Json)) :
    canonicalMembers (quotedMembers ms)
      = (canonicalOrder ms).map fun m => quoted m.1 ++ ":" ++ m.2.canonical := by
  have hentries := Dict.entries_ofList_map (fun m : String × Json => m.2.canonical)
    (ms.map fun m => (quoted m.1, m))
  rw [List.map_map] at hentries
  rw [canonicalMembers, quotedMembers_eq, canonicalOrder, List.map_map]
  refine (congrArg _ hentries).trans ?_
  rw [List.map_map]
  refine List.map_congr_left fun e he => ?_
  obtain ⟨m, -, rfl⟩ := List.mem_map.1 (Dict.mem_of_mem_ofList he)
  rfl

theorem toList_canonical_arr (items : List Json) : (arr items).canonical.toList
    = '[' :: ([','].intercalate (items.map fun v => v.canonical.toList) ++ [']']) := by
  rw [canonical, canonicalItems_eq]
  simp [Function.comp_def]

theorem toList_canonical_obj (ms : List (String × Json)) : (obj ms).canonical.toList
    = '\x7b' :: ([','].intercalate ((canonicalOrder ms).map fun m =>
        (quoted m.1).toList ++ ':' :: m.2.canonical.toList) ++ ['\x7d']) := by
  rw [canonical, canonicalMembers_eq]
  simp [Function.comp_def]

/-! ## Compact texts -/

theorem compactItems_eq (items : List Json) : compactItems items = items.map compact := by
  induction items with
  | nil => rfl
  | cons v items ih => rw [compactItems, ih, List.map_cons]

theorem compactMembers_eq (ms : List (String × Json)) :
    compactMembers ms = ms.map fun m => quoted m.1 ++ ":" ++ m.2.compact := by
  induction ms with
  | nil => rfl
  | cons m ms ih => rw [compactMembers, ih, List.map_cons]

theorem toList_compact_arr (items : List Json) : (arr items).compact.toList
    = ['['] ++ [','].intercalate (items.map fun v => v.compact.toList) ++ [']'] := by
  rw [compact, compactItems_eq]
  simp [Function.comp_def]

theorem toList_compact_obj (ms : List (String × Json)) : (obj ms).compact.toList
    = ['\x7b'] ++ [','].intercalate (ms.map fun m =>
        (quoted m.1).toList ++ ([':'] ++ m.2.compact.toList)) ++ ['\x7d'] := by
  rw [compact, compactMembers_eq]
  simp [Function.comp_def]

/-- A compact text is spelled out by the tokens of the value. -/
theorem spells_compact (v : Json) : Spells NoDigit v.tokens v.compact.toList := by
  have hspace : ∀ c ∈ ([] : List Char), isSpace c = true := fun c hc => nomatch hc
  induction v using induct with
  | null => exact spells_null.weaken
  | bool b => exact (spells_bool b).weaken
  | int n => exact spells_int n
  | str s => exact (spells_str s).weaken
  | arr items ih =>
    have hopening : mark? '[' = some .openArray := rfl
    have hclosing : mark? ']' = some .closeArray := rfl
    have hitems : List.Forall₂ (Spells NoDigit) (items.map tokens)
        (items.map fun v => v.compact.toList) := by
      rw [List.forall₂_map_left_iff, List.forall₂_map_right_iff, List.forall₂_same]
      exact ih
    rw [tokens, tokensOfItems_eq, toList_compact_arr]
    exact (spells_enclosed hopening hclosing hspace hspace
      (spells_intercalate hspace hitems)).weaken
  | obj ms ih =>
    have hopening : mark? '\x7b' = some .openObject := rfl
    have hclosing : mark? '\x7d' = some .closeObject := rfl
    have hcolon : Spells Anything [.colon] [':'] := spells_mark rfl
    have hmembers : List.Forall₂ (Spells NoDigit)
        (ms.map fun m => [.str m.1, .colon] ++ m.2.tokens)
        (ms.map fun m => (quoted m.1).toList ++ ([':'] ++ m.2.compact.toList)) := by
      rw [List.forall₂_map_left_iff, List.forall₂_map_right_iff, List.forall₂_same]
      exact fun m hm => (spells_str m.1).andThen (hcolon.andThen (ih m hm))
    rw [tokens, tokensOfMembers_eq, toList_compact_obj]
    exact (spells_enclosed hopening hclosing hspace hspace
      (spells_intercalate hspace hmembers)).weaken

/-- A value is read back from its compact text. -/
theorem read?_compact (v : Json) : read? v.compact = some v :=
  read?_eq_some_iff.2 (spells_compact v).tokens?

/-! ## Values in order -/

mutual

/-- The value with the members of every object at every depth in canonical order. -/
def normal : Json → Json
  | .null => .null
  | .bool b => .bool b
  | .int n => .int n
  | .str s => .str s
  | .arr items => .arr (normalItems items)
  | .obj ms => .obj (canonicalOrder (normalMembers ms))

def normalItems : List Json → List Json
  | [] => []
  | v :: rest => v.normal :: normalItems rest

def normalMembers : List (String × Json) → List (String × Json)
  | [] => []
  | (k, v) :: rest => (k, v.normal) :: normalMembers rest

end

theorem normalItems_eq (items : List Json) : normalItems items = items.map normal := by
  induction items with
  | nil => rfl
  | cons v items ih => rw [normalItems, ih, List.map_cons]

theorem normalMembers_eq (ms : List (String × Json)) :
    normalMembers ms = ms.map fun m => (m.1, m.2.normal) := by
  induction ms with
  | nil => rfl
  | cons m ms ih => rw [normalMembers, ih, List.map_cons]

theorem normal_arr (items : List Json) : (arr items).normal = .arr (items.map normal) := by
  rw [normal, normalItems_eq]

theorem normal_obj (ms : List (String × Json)) :
    (obj ms).normal = .obj ((canonicalOrder ms).map fun m => (m.1, m.2.normal)) := by
  rw [normal, normalMembers_eq, canonicalOrder_map]

/-- A canonical text is the compact text of the value in order. -/
theorem canonical_eq_compact (v : Json) : v.canonical = v.normal.compact := by
  induction v using induct with
  | null => rfl
  | bool b => rfl
  | int n => rfl
  | str s => rfl
  | arr items ih =>
    have hitems : items.map canonical = (items.map normal).map compact := by
      rw [List.map_map]
      exact List.map_congr_left ih
    rw [canonical, canonicalItems_eq, normal_arr, compact, compactItems_eq, hitems]
  | obj ms ih =>
    have hmembers : (canonicalOrder ms).map (fun m => quoted m.1 ++ ":" ++ m.2.canonical)
        = ((canonicalOrder ms).map fun m => (m.1, m.2.normal)).map
          fun m => quoted m.1 ++ ":" ++ m.2.compact := by
      rw [List.map_map]
      exact List.map_congr_left fun m hm => by rw [ih m (mem_of_mem_canonicalOrder hm)]; rfl
    rw [canonical, canonicalMembers_eq, normal_obj, compact, compactMembers_eq, hmembers]

/-- A canonical text is read back as the value with its members in order. -/
theorem read?_canonical (v : Json) : read? v.canonical = some v.normal := by
  rw [canonical_eq_compact, read?_compact]

end McpCatalog.Json
