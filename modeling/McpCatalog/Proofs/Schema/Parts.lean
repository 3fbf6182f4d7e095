import McpCatalog.Proofs.Schema.Unfolding
import McpCatalog.Proofs.Schema.Validation
/-!
# What a schema says of a field

A field of a message stands in one of two places of its schema: among the properties, or
among the alternatives of a group. A message that refers to others has their schemas
inside its own, and so on to any depth.

Results:
* `declares_ofMembers`, `requires_ofMembers`, `offersBoth_ofMembers`: which names stand
  among the properties, among the required ones, and beside each other in one group.
* `within_messageShape`: whatever is unfolded inside a message is a message of the pool.
-/
namespace McpCatalog

/-! ## Names in a schema -/

namespace Json

/-- The name is a key of `properties`. -/
def Declares (s : Json) (name : String) : Prop :=
  ∃ ps, s.get? "properties" = some (.obj ps) ∧ name ∈ ps.map (·.1)

/-- The name is listed by `required`. -/
def Requires (s : Json) (name : String) : Prop :=
  ∃ names, s.get? "required" = some (.arr names) ∧ .str name ∈ names

/-- One of the schemas of `oneOf` is the alternative for the name. -/
def Offers (s : Json) (name : String) : Prop :=
  ∃ alternatives, s.get? "oneOf" = some (.arr alternatives) ∧
    ∃ a ∈ alternatives, a.Declares name ∧ a.Requires name

/-- One of the schemas of `anyOf` has alternatives for both names. -/
def OffersBoth (s : Json) (name name' : String) : Prop :=
  ∃ groups, s.get? "anyOf" = some (.arr groups) ∧ ∃ g ∈ groups, g.Offers name ∧ g.Offers name'

theorem get?_object (ms : List (String × Json)) (k : String) :
    (object ms).get? k = (Dict.ofList ms).get? k := rfl

theorem mem_names_members {ms : List (String × Json)} {name : String} :
    name ∈ (members ms).map (·.1) ↔ name ∈ ms.map (·.1) :=
  Dict.mem_keys_ofList

end Json

namespace Schema

theorem declares_alternative {name n : String} {s : Json} :
    (alternative name s).Declares n ↔ n = name := by
  simp [Json.Declares, alternative, Json.get?_object, Dict.ofList, Dict.get?_insert,
    object_singleton]

theorem requires_alternative {name n : String} {s : Json} :
    (alternative name s).Requires n ↔ n = name := by
  simp [Json.Requires, alternative, Json.get?_object, Dict.ofList, Json.strings]

section
variable {required : Requirement} {fields : List Field} {schema : Field → Json}

theorem get?_oneOf_groupSchema {g : String} :
    (groupSchema schema fields g).get? "oneOf"
      = some (.arr ((groupMembers g fields).map fun f => alternative f.name (schema f))) := by
  simp [groupSchema, Json.get?_object, Dict.ofList]

theorem offers_groupSchema {g name : String} :
    (groupSchema schema fields g).Offers name
      ↔ ∃ f ∈ fields, f.declaredOneof = some g ∧ f.name = name := by
  rw [Json.Offers, get?_oneOf_groupSchema]
  constructor
  · rintro ⟨_, ⟨⟩, a, ha, hdeclares, -⟩
    obtain ⟨f, hf, rfl⟩ := List.mem_map.1 ha
    obtain ⟨hf, hg⟩ := mem_groupMembers.1 hf
    exact ⟨f, hf, hg, (declares_alternative.1 hdeclares).symm⟩
  · rintro ⟨f, hf, hg, rfl⟩
    exact ⟨_, rfl, _, List.mem_map_of_mem (mem_groupMembers.2 ⟨hf, hg⟩),
      declares_alternative.2 rfl, requires_alternative.2 rfl⟩

theorem get?_properties_ofMembers :
    (ofMembers (fields.map fun f => (f.head required, schema f))).get? "properties"
      = some (.object ((freeFields fields).map fun f => (f.name, schema f))) := by
  rw [ofMembers_map_head, Json.get?_object]
  split <;> simp [Dict.ofList, Dict.get?_insert]

theorem get?_required_ofMembers :
    (ofMembers (fields.map fun f => (f.head required, schema f))).get? "required"
      = some (.strings (((freeFields fields).filter required).map (·.name))) := by
  rw [ofMembers_map_head, Json.get?_object]
  split <;> simp [Dict.ofList, Dict.get?_insert]

theorem get?_anyOf_ofMembers :
    (ofMembers (fields.map fun f => (f.head required, schema f))).get? "anyOf"
      = if groupNames fields = [] then none
        else some (.arr ((groupNames fields).map (groupSchema schema fields))) := by
  rw [ofMembers_map_head, Json.get?_object]
  by_cases h : groupNames fields = [] <;> simp [h, Dict.ofList, Dict.get?_insert]

theorem declares_ofMembers {name : String} :
    (ofMembers (fields.map fun f => (f.head required, schema f))).Declares name
      ↔ ∃ f ∈ fields, f.declaredOneof = none ∧ f.name = name := by
  have hnames : name ∈ ((freeFields fields).map fun f => (f.name, schema f)).map (·.1)
      ↔ ∃ f ∈ fields, f.declaredOneof = none ∧ f.name = name := by
    simp [mem_freeFields, and_assoc]
  rw [Json.Declares, get?_properties_ofMembers, ← hnames, ← Json.mem_names_members]
  constructor
  · rintro ⟨_, ⟨⟩, hname⟩
    exact hname
  · intro hname
    exact ⟨_, rfl, hname⟩

theorem requires_ofMembers {name : String} :
    (ofMembers (fields.map fun f => (f.head required, schema f))).Requires name
      ↔ ∃ f ∈ fields, (f.declaredOneof = none ∧ required f = true) ∧ f.name = name := by
  have hnames : .str name ∈ (((freeFields fields).filter required).map (·.name)).map Json.str
      ↔ ∃ f ∈ fields, (f.declaredOneof = none ∧ required f = true) ∧ f.name = name := by
    simp [mem_freeFields, and_assoc]
  rw [Json.Requires, get?_required_ofMembers, ← hnames]
  constructor
  · rintro ⟨_, ⟨⟩, hname⟩
    exact hname
  · intro hname
    exact ⟨_, rfl, hname⟩

theorem offersBoth_ofMembers {name name' : String} :
    (ofMembers (fields.map fun f => (f.head required, schema f))).OffersBoth name name'
      ↔ ∃ g, (∃ f ∈ fields, f.declaredOneof = some g ∧ f.name = name) ∧
          ∃ f ∈ fields, f.declaredOneof = some g ∧ f.name = name' := by
  rw [Json.OffersBoth, get?_anyOf_ofMembers]
  constructor
  · rintro ⟨groups, hgroups, s, hs, hname, hname'⟩
    obtain ⟨-, rfl⟩ : groupNames fields ≠ [] ∧
        (groupNames fields).map (groupSchema schema fields) = groups := by
      by_cases hne : groupNames fields = [] <;> simp [hne] at hgroups ⊢
      exact hgroups
    obtain ⟨g, -, rfl⟩ := List.mem_map.1 hs
    exact ⟨g, offers_groupSchema.1 hname, offers_groupSchema.1 hname'⟩
  · rintro ⟨g, hname, hname'⟩
    obtain ⟨f, hf, hg, -⟩ := id hname
    have hmem : g ∈ groupNames fields := mem_groupNames.2 ⟨f, hf, hg⟩
    rw [if_neg (List.ne_nil_of_mem hmem)]
    exact ⟨_, rfl, _, List.mem_map_of_mem hmem, offers_groupSchema.2 hname,
      offers_groupSchema.2 hname'⟩

end
end Schema

/-! ## Shapes inside others -/

/-- The shape is part of another one, or is it. -/
inductive Shape.Within (s : Shape) : Shape → Prop
  | refl : Within s s
  | member {fullName : String} {members : List (Head × Shape)} {h : Head} {t : Shape}
    (hmem : (h, t) ∈ members) (ht : Within s t) : Within s (.message fullName members)
  | list {item : Shape} (ht : Within s item) : Within s (.list item)
  | map {key : FieldKind} {value : Shape} (ht : Within s value) : Within s (.map key value)

section
variable {pool : Pool} {required : Requirement} {n : String} {ms : List (Head × Shape)}

theorem within_itemShape {reference : String → Shape} {kind : FieldKind} {typeName : Option String}
    (h : Shape.Within (.message n ms) (Field.itemShape pool reference kind typeName)) :
    ∃ t, Shape.Within (.message n ms) (reference t) := by
  by_cases hm : kind.isMessage = true
  · cases typeName with
    | none =>
      rw [itemShape_untyped hm] at h
      cases h
    | some t =>
      rw [itemShape_message hm] at h
      exact ⟨t, h⟩
  · rw [Bool.not_eq_true] at hm
    by_cases he : kind = .enum
    · subst he
      rw [itemShape_enum] at h
      cases h
    · rw [itemShape_scalar hm he] at h
      cases h

theorem within_shape {reference : String → Shape} {f : Field}
    (h : Shape.Within (.message n ms) (f.shape pool reference)) :
    ∃ t, Shape.Within (.message n ms) (reference t) := by
  induction f using Field.values_induction with
  | map f key value hc ih =>
    rw [shape_map hc] at h
    cases h with
    | map ht => exact ih ht
  | list f hc =>
    rw [shape_list hc, shape_singular rfl] at h
    cases h with
    | list ht => exact within_itemShape ht
  | singular f hc =>
    rw [shape_singular hc] at h
    exact within_itemShape h

theorem within_members {reference : String → Shape} {fields : List Field} {h : Head} {s : Shape}
    (hmem : (h, s) ∈ fields.map fun f => (f.head required, f.shape pool reference))
    (hs : Shape.Within (.message n ms) s) : ∃ t, Shape.Within (.message n ms) (reference t) := by
  obtain ⟨f, -, heq⟩ := List.mem_map.1 hmem
  obtain ⟨-, rfl⟩ := Prod.mk.inj heq
  exact within_shape hs

/-- What is unfolded inside a reference is unfolded from the pool, at its own path. -/
theorem within_reference {path : List String} {t : String}
    (h : Shape.Within (.message n ms) (pool.reference required path t)) :
    ∃ path' m, pool.message? n = some m ∧ .message n ms = pool.messageShape required path' m := by
  induction hu : pool.messages.unvisited path using Nat.strongRecOn generalizing path t with
  | ind u ih =>
    subst hu
    rw [Pool.reference_eq] at h
    split at h
    · cases h
    · split at h
      · cases h
      · next hp =>
        split at h
        · cases h
        · next m hm =>
          have hname := Pool.fullName_of_message? hm
          rw [Pool.messageShape, hname] at h
          cases h with
          | refl => exact ⟨path, m, hm, by rw [Pool.messageShape, hname]⟩
          | member hmem hs =>
            obtain ⟨t', ht'⟩ := within_members hmem hs
            exact ih _ (Dict.unvisited_cons_lt hm hp) ht' rfl

/-- Inside a message of the pool every message is one of the pool. -/
theorem within_messageShape {path : List String} {n₀ : String} {m₀ : Message}
    (hm₀ : pool.message? n₀ = some m₀)
    (h : Shape.Within (.message n ms) (pool.messageShape required path m₀)) :
    ∃ path' m, pool.message? n = some m ∧ .message n ms = pool.messageShape required path' m := by
  rw [Pool.messageShape] at h
  cases h with
  | refl => exact ⟨path, m₀, Pool.fullName_of_message? hm₀ ▸ hm₀, rfl⟩
  | member hmem hs =>
    obtain ⟨t, ht⟩ := within_members hmem hs
    exact within_reference ht

end
end McpCatalog
