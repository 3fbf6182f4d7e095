import Mathlib.Data.List.Induction
import Mathlib.Data.List.Nodup
import McpCatalog.Proofs.Schema.Exclusion
import McpCatalog.Proofs.Schema.Parts
/-!
# Where the fields of a message stand

The builder takes the fields of a message one after the other. A field outside of the groups becomes
a property, and a required name if it has to be present. A field of a group becomes an alternative:
it is put behind those of its group, and the first one opens the group, behind all groups before.

Results:
* `pairwise_idxOf_eraseDups`: a list without its repetitions is in the order of first occurrence.
* `Gathered.Holds.take`, `Gathered.holds_foldl`: what the builder has gathered, after one field and
  after any number of fields.
* `Schema.ofMembers_eq_gathered`: the schema of a message is made of what is gathered.
* `perm_groups`: the fields outside of the groups and those of the groups are all fields, once each.
* `Message.partitioned_messageSchema`: every field has one place in the schema of its message.
-/
namespace McpCatalog

/-! ## First occurrences -/

section
variable {α : Type} [BEq α] [LawfulBEq α]

theorem eraseDups_concat (l : List α) (a : α) :
    (l ++ [a]).eraseDups = if l.contains a then l.eraseDups else l.eraseDups ++ [a] := by
  rw [List.eraseDups_append]
  by_cases h : a ∈ l <;> simp [List.removeAll, List.eraseDups_cons, h]

/-- Without its repetitions, a list is in the order in which its elements first occur. -/
theorem pairwise_idxOf_eraseDups (l : List α) :
    l.eraseDups.Pairwise fun a b => l.idxOf a < l.idxOf b := by
  induction l using List.reverseRecOn with
  | nil => exact .nil
  | append_singleton l a ih =>
    have hold : l.eraseDups.Pairwise fun b c => (l ++ [a]).idxOf b < (l ++ [a]).idxOf c := by
      refine ih.imp_of_mem fun {b c} hb hc hlt => ?_
      rwa [List.idxOf_append_of_mem (List.mem_eraseDups.1 hb),
        List.idxOf_append_of_mem (List.mem_eraseDups.1 hc)]
    rw [eraseDups_concat]
    split
    · exact hold
    · next ha =>
      have ha : a ∉ l := by simpa using ha
      refine List.pairwise_append.2 ⟨hold, List.pairwise_singleton _ a, fun b hb c hc => ?_⟩
      obtain rfl := List.mem_singleton.1 hc
      have hb : b ∈ l := List.mem_eraseDups.1 hb
      rw [List.idxOf_append_of_mem hb, List.idxOf_append_of_notMem ha]
      exact Nat.lt_add_right _ (List.idxOf_lt_length_of_mem hb)

theorem nodup_eraseDups (l : List α) : l.eraseDups.Nodup :=
  (pairwise_idxOf_eraseDups l).imp fun hlt heq => by simp [heq] at hlt

end

namespace Schema

/-! ## Field by field -/

/-- What the builder has while it takes the fields of a message: the properties, the names that
are required, and the groups with their alternatives. -/
structure Gathered where
  properties : Dict Json
  required : List String
  groups : List (String × List Json)

namespace Gathered

def start : Gathered :=
  ⟨.empty, [], []⟩

/-- Puts an alternative into its group. -/
def offer (g : String) (a : Json) : List (String × List Json) → List (String × List Json)
  | [] => [(g, [a])]
  | (g', alternatives) :: rest =>
    if g' = g then (g', alternatives ++ [a]) :: rest else (g', alternatives) :: offer g a rest

/-- Takes one more field, with its schema. -/
def take (s : Gathered) (m : Head × Json) : Gathered :=
  match m.1.oneof with
  | some g => { s with groups := offer g (alternative m.1.name m.2) s.groups }
  | none => { s with
      properties := s.properties.insert m.1.name m.2
      required := if m.1.required then s.required ++ [m.1.name] else s.required }

/-- The schema of a message with these properties, required names and groups. -/
def schema (s : Gathered) : Json :=
  .object ([("type", .str "object"), ("properties", .ofDict s.properties),
      ("required", .strings s.required)]
    ++ if s.groups.isEmpty then []
      else [("anyOf", .arr (s.groups.map fun g =>
        .object [("$comment", .str groupComment), ("oneOf", .arr g.2)]))])

/-- What has been gathered of the given fields. -/
structure Holds (members : List (Head × Json)) (s : Gathered) : Prop where
  properties : s.properties = Dict.ofList ((free members).map fun m => (m.1.name, m.2))
  required : s.required = ((free members).filter fun m => m.1.required).map fun m => m.1.name
  groups : s.groups = (Schema.groups members).map fun g =>
    (g, (group g members).map fun m => alternative m.1.name m.2)

/-! ## Groups -/

section
variable {names : List String} {alternatives : String → List Json} {g : String} {a : Json}

theorem offer_of_not_mem (h : g ∉ names) :
    offer g a (names.map fun n => (n, alternatives n))
      = (names.map fun n => (n, alternatives n)) ++ [(g, [a])] := by
  induction names with
  | nil => rfl
  | cons n names ih =>
    obtain ⟨hn, hnames⟩ := not_or.1 (List.mem_cons.not.1 h)
    simp only [List.map_cons, offer, if_neg (Ne.symm hn), ih hnames, List.cons_append]

theorem offer_of_mem (h : g ∈ names) (hnodup : names.Nodup) :
    offer g a (names.map fun n => (n, alternatives n))
      = names.map fun n => (n, if n = g then alternatives n ++ [a] else alternatives n) := by
  induction names with
  | nil => simp at h
  | cons n names ih =>
    obtain ⟨hn, hnodup⟩ := List.nodup_cons.1 hnodup
    by_cases heq : n = g
    · subst heq
      have hrest : (names.map fun n' => (n', alternatives n')) = names.map fun n' =>
          (n', if n' = n then alternatives n' ++ [a] else alternatives n') :=
        List.map_congr_left fun n' hn' => by rw [if_neg fun e : n' = n => hn (e ▸ hn')]
      simp only [List.map_cons, offer, if_true, hrest]
    · have hg : g ∈ names := (List.mem_cons.1 h).resolve_left (Ne.symm heq)
      simp only [List.map_cons, offer, if_neg heq, ih hg hnodup]

end

section
variable {members : List (Head × Json)} {m : Head × Json} {g : String}

theorem mem_groups : g ∈ Schema.groups members ↔ ∃ m ∈ members, m.1.oneof = some g := by
  simp [Schema.groups]

theorem group_eq_nil (h : g ∉ Schema.groups members) : group g members = [] := by
  rw [mem_groups, not_exists] at h
  simpa [group, List.filter_eq_nil_iff] using fun h' s hmem heq => h (h', s) ⟨hmem, heq⟩

theorem group_concat (g' : String) (hm : m.1.oneof = some g) :
    group g' (members ++ [m]) = group g' members ++ if g' = g then [m] else [] := by
  by_cases h : g' = g
  · simp [group, hm, h]
  · simp [group, hm, h, Ne.symm h]

theorem groups_concat (hm : m.1.oneof = some g) : Schema.groups (members ++ [m])
    = if g ∈ Schema.groups members then Schema.groups members
      else Schema.groups members ++ [g] := by
  have hlist : ((members ++ [m]).filterMap fun m => m.1.oneof)
      = (members.filterMap fun m => m.1.oneof) ++ [g] := by
    simp [hm]
  rw [Schema.groups, hlist, eraseDups_concat]
  simp only [List.contains_iff_mem, Schema.groups, List.mem_eraseDups]

/-! ## After each field -/

theorem Holds.take {s : Gathered} (h : s.Holds members) : (s.take m).Holds (members ++ [m]) := by
  cases hm : m.1.oneof with
  | none =>
    have hfree : free (members ++ [m]) = free members ++ [m] := by simp [free, hm]
    have hgroups : Schema.groups (members ++ [m]) = Schema.groups members := by
      simp [Schema.groups, hm]
    have hgroup (g : String) : group g (members ++ [m]) = group g members := by simp [group, hm]
    constructor
    · simp [Gathered.take, hm, hfree, h.properties, Dict.ofList]
    · cases hr : m.1.required <;> simp [Gathered.take, hm, hfree, h.required, hr]
    · simp only [Gathered.take, hm, h.groups, hgroups, hgroup]
  | some g =>
    have hfree : free (members ++ [m]) = free members := by simp [free, hm]
    refine ⟨by simp only [Gathered.take, hm, hfree, h.properties],
      by simp only [Gathered.take, hm, hfree, h.required], ?_⟩
    simp only [Gathered.take, hm, h.groups, groups_concat hm, group_concat _ hm]
    by_cases hg : g ∈ Schema.groups members
    · rw [offer_of_mem hg (nodup_eraseDups _), if_pos hg]
      refine List.map_congr_left fun n _ => ?_
      by_cases hn : n = g <;> simp [hn]
    · rw [offer_of_not_mem hg, if_neg hg, List.map_append, List.map_singleton, if_pos rfl,
        group_eq_nil hg]
      refine congrArg (· ++ _) (List.map_congr_left fun n hn => ?_)
      rw [if_neg fun e : n = g => hg (e ▸ hn), List.append_nil]

theorem holds_foldl (members : List (Head × Json)) :
    (members.foldl Gathered.take start).Holds members := by
  induction members using List.reverseRecOn with
  | nil => exact ⟨rfl, rfl, rfl⟩
  | append_singleton members m ih =>
    rw [List.foldl_append]
    exact ih.take

end
end Gathered

/-- The schema of a message is made of what is gathered of its fields. -/
theorem ofMembers_eq_gathered (members : List (Head × Json)) :
    ofMembers members = (members.foldl Gathered.take .start).schema := by
  have h := Gathered.holds_foldl members
  rw [Gathered.schema, h.properties, h.required, h.groups, List.isEmpty_map, List.map_map]
  rfl

end Schema

/-! ## Places of names -/

namespace Json

def keys : Json → List String
  | .obj ms => ms.map (·.1)
  | _ => []

def elements : Json → List Json
  | .arr vs => vs
  | _ => []

/-- The names that `properties` has, in order. -/
def propertyKeys (s : Json) : List String :=
  (s.get? "properties").elim [] keys

/-- The schemas that the keyword lists. -/
def listed (s : Json) (keyword : String) : List Json :=
  (s.get? keyword).elim [] elements

/-- Every name that the schema of a message places: the properties, and those of all alternatives
of all groups. -/
def places (s : Json) : List String :=
  s.propertyKeys ++ (s.listed "anyOf").flatMap fun entry =>
    (entry.listed "oneOf").flatMap propertyKeys

end Json

/-! ## Groups in order -/

namespace Message
variable (m : Message)

/-- Where the first field of the group stands. -/
def firstOf (g : String) : Nat :=
  m.fields.findIdx fun f => f.declaredOneof == some g

/-- The groups of the message, in the order of their first fields. -/
structure GroupsInOrder (groups : List String) : Prop where
  mem_iff : ∀ g, g ∈ groups ↔ ∃ f ∈ m.fields, f.declaredOneof = some g
  inOrder : groups.Pairwise fun g g' => m.firstOf g < m.firstOf g'

/-- The entry of a group has its fields as alternatives, in the order of the message: each has one
property, which it requires. -/
structure ListsGroup (schema : Field → Json) (g : String) (entry : Json) : Prop where
  oneOf : entry.get? "oneOf" = some (.arr ((groupMembers g m.fields).map fun f =>
    .obj [("properties", .obj [(f.name, schema f)]), ("required", .arr [.str f.name])]))
  ne_nil : groupMembers g m.fields ≠ []

/-- The fields of the message have their places in the schema `s`, each with its own schema. -/
structure Partitioned (required : Requirement) (schema : Field → Json) (s : Json) : Prop where
  properties : ∃ ps, s.get? "properties" = some (.obj ps) ∧
    ps.Perm ((freeFields m.fields).map fun f => (f.name, schema f))
  required : ∃ names, s.get? "required" = some (.arr (names.map .str)) ∧
    names = ((freeFields m.fields).filter required).map (·.name) ∧ names.Nodup ∧
    ∀ n ∈ names, n ∈ s.propertyKeys
  ungrouped : s.get? "anyOf" = none ↔ ∀ f ∈ m.fields, f.declaredOneof = none
  grouped : ∀ v, s.get? "anyOf" = some v → ∃ groups entries, v = .arr entries ∧ entries ≠ [] ∧
    m.GroupsInOrder groups ∧ List.Forall₂ (m.ListsGroup schema) groups entries
  places : s.places.Perm (m.fields.map (·.name))
  nodup : s.places.Nodup

end Message

/-- What comes first among the values comes first in the list. -/
theorem findIdx_lt_of_idxOf_filterMap {α : Type} {h : α → Option String} {g g' : String}
    {l : List α} (hlt : (l.filterMap h).idxOf g < (l.filterMap h).idxOf g') :
    l.findIdx (fun x => h x == some g) < l.findIdx (fun x => h x == some g') := by
  induction l with
  | nil => simp at hlt
  | cons x l ih =>
    cases hx : h x with
    | none =>
      rw [List.filterMap_cons_none hx] at hlt
      simpa [List.findIdx_cons, hx] using ih hlt
    | some c =>
      rw [List.filterMap_cons_some hx, List.idxOf_cons, List.idxOf_cons] at hlt
      have hne : (c == g') = false := by
        cases hg : c == g' with
        | true => simp [hg] at hlt
        | false => rfl
      cases hc : c == g with
      | true => simp [List.findIdx_cons, hx, hc, hne]
      | false => simpa [List.findIdx_cons, hx, hc, hne] using ih (by simpa [hc, hne] using hlt)

theorem groupsInOrder (m : Message) : m.GroupsInOrder (groupNames m.fields) where
  mem_iff _ := mem_groupNames
  inOrder := (pairwise_idxOf_eraseDups _).imp findIdx_lt_of_idxOf_filterMap

/-- The fields outside of the groups and those of each group are all fields. -/
theorem perm_groups {fields : List Field} (hn : fields.Nodup) :
    (freeFields fields ++ (groupNames fields).flatMap fun g => groupMembers g fields).Perm
      fields := by
  have hdisjoint : (groupNames fields).Pairwise fun g g' =>
      (groupMembers g fields).Disjoint (groupMembers g' fields) := by
    refine (nodup_eraseDups _).imp fun hne f hf hf' => hne ?_
    exact Option.some.inj ((mem_groupMembers.1 hf).2.symm.trans (mem_groupMembers.1 hf').2)
  have hgroups : ((groupNames fields).flatMap fun g => groupMembers g fields).Nodup :=
    List.nodup_flatMap.2 ⟨fun g _ => hn.filter _, hdisjoint⟩
  have hfree : (freeFields fields).Disjoint
      ((groupNames fields).flatMap fun g => groupMembers g fields) := by
    intro f hf hf'
    obtain ⟨g, -, hg⟩ := List.mem_flatMap.1 hf'
    have heq := (mem_freeFields.1 hf).2.symm.trans (mem_groupMembers.1 hg).2
    cases heq
  have hall : (freeFields fields ++ (groupNames fields).flatMap fun g =>
      groupMembers g fields).Nodup := List.Nodup.append (hn.filter _) hgroups hfree
  refine (List.perm_ext_iff_of_nodup hall hn).2 fun f => ?_
  rw [List.mem_append, List.mem_flatMap, mem_freeFields]
  constructor
  · rintro (⟨hf, -⟩ | ⟨g, -, hg⟩)
    · exact hf
    · exact (mem_groupMembers.1 hg).1
  · intro hf
    cases hg : f.declaredOneof with
    | none => exact .inl ⟨hf, rfl⟩
    | some g => exact .inr ⟨g, mem_groupNames.2 ⟨f, hf, hg⟩, mem_groupMembers.2 ⟨hf, hg⟩⟩

namespace Schema
variable {required : Requirement} {schema : Field → Json} {fields : List Field}

theorem alternative_eq (name : String) (s : Json) : alternative name s
    = .obj [("properties", .obj [(name, s)]), ("required", .arr [.str name])] := by
  have ho : Entries.Ordered [("properties", Json.obj [(name, s)]), ("required", .strings [name])] :=
    List.pairwise_pair.2 (show "properties" < "required" by decide)
  exact congrArg Json.obj (Dict.entries_ofList ho)

theorem propertyKeys_alternative (name : String) (s : Json) :
    (alternative name s).propertyKeys = [name] := by
  rw [alternative_eq]
  rfl

theorem flatMap_propertyKeys_groupSchema (g : String) :
    ((groupSchema schema fields g).listed "oneOf").flatMap Json.propertyKeys
      = (groupMembers g fields).map (·.name) := by
  rw [Json.listed, get?_oneOf_groupSchema, Option.elim_some, Json.elements, List.flatMap_map]
  simp only [propertyKeys_alternative]
  exact List.map_eq_flatMap.symm

theorem listed_anyOf_ofMembers :
    (ofMembers (fields.map fun f => (f.head required, schema f))).listed "anyOf"
      = (groupNames fields).map (groupSchema schema fields) := by
  rw [Json.listed, get?_anyOf_ofMembers]
  by_cases h : groupNames fields = [] <;> simp [h, Json.elements]

theorem propertyKeys_ofMembers :
    (ofMembers (fields.map fun f => (f.head required, schema f))).propertyKeys
      = (Json.members ((freeFields fields).map fun f => (f.name, schema f))).map (·.1) := by
  rw [Json.propertyKeys, get?_properties_ofMembers]
  rfl

/-- Members with different names are the members of their object. -/
theorem perm_members {ms : List (String × Json)} (hn : (ms.map (·.1)).Nodup) :
    (Json.members ms).Perm ms :=
  (List.perm_ext_iff_of_nodup (List.Nodup.of_map _ (Dict.ofList ms).nodup_keys)
    (List.Nodup.of_map _ hn)).2 (Json.mem_members hn)

theorem perm_places {m : Message} (hm : m.DistinctNames) :
    (ofMembers (m.fields.map fun f => (f.head required, schema f))).places.Perm
      (m.fields.map (·.name)) := by
  have hfree : ((freeFields m.fields).map fun f => (f.name, schema f)).map (·.1)
      = (freeFields m.fields).map (·.name) := by
    simp
  have hproperties :
      (ofMembers (m.fields.map fun f => (f.head required, schema f))).propertyKeys.Perm
        ((freeFields m.fields).map (·.name)) := by
    rw [propertyKeys_ofMembers, ← hfree]
    exact (perm_members (hfree ▸ hm.free)).map _
  have hgroups : (((groupNames m.fields).map (groupSchema schema m.fields)).flatMap fun entry =>
      (entry.listed "oneOf").flatMap Json.propertyKeys)
      = ((groupNames m.fields).flatMap fun g => groupMembers g m.fields).map (·.name) := by
    simp only [List.flatMap_map, flatMap_propertyKeys_groupSchema, List.map_flatMap]
  rw [Json.places, listed_anyOf_ofMembers, hgroups]
  refine (hproperties.append_right _).trans ?_
  rw [← List.map_append]
  exact (perm_groups hm.nodup).map _

/-- Each field has its place in the schema of its message. -/
theorem partitioned_ofMembers (required : Requirement) (schema : Field → Json) {m : Message}
    (hm : m.DistinctNames) : m.Partitioned required schema
      (ofMembers (m.fields.map fun f => (f.head required, schema f))) where
  properties :=
    ⟨_, get?_properties_ofMembers, perm_members (by simpa [Function.comp_def] using hm.free)⟩
  required := by
    refine ⟨_, get?_required_ofMembers, rfl, ?_, ?_⟩
    · exact hm.free.sublist (List.filter_sublist.map _)
    · intro n hn
      obtain ⟨f, hf, rfl⟩ := List.mem_map.1 hn
      rw [propertyKeys_ofMembers, Json.mem_names_members]
      simpa using ⟨f, (List.mem_filter.1 hf).1, rfl⟩
  ungrouped := by
    have hgroups : ¬ groupNames m.fields ≠ [] ↔ ∀ f ∈ m.fields, f.declaredOneof = none := by
      rw [groupNames_ne_nil]
      simp
    rw [get?_anyOf_ofMembers, ← hgroups]
    simp
  grouped := by
    intro v hv
    rw [get?_anyOf_ofMembers] at hv
    split at hv
    · cases hv
    · next hne =>
      obtain rfl := Option.some.inj hv
      refine ⟨_, _, rfl, by simpa using hne, groupsInOrder m, ?_⟩
      refine List.forall₂_map_right_iff.2 (List.forall₂_same.2 fun g hg => ?_)
      obtain ⟨f, hf, hfg⟩ := mem_groupNames.1 hg
      refine ⟨?_, List.ne_nil_of_mem (mem_groupMembers.2 ⟨hf, hfg⟩)⟩
      simp only [get?_oneOf_groupSchema, alternative_eq]
  places := perm_places hm
  nodup := (perm_places hm).nodup_iff.2 hm

end Schema

/-- **The places of the fields.** Every field of a message stands in one place of its schema, in
order, as the builder gathers them; and so it does in the schema of a message inside others. -/
theorem Message.partitioned_messageSchema (b : Builder) (m : Message) (hm : m.DistinctNames) :
    m.Partitioned b.required (b.memberSchema m) (b.messageSchema m).1 ∧
      (b.messageSchema m).1 = ((m.fields.map fun f =>
        (f.head b.required, b.memberSchema m f)).foldl Schema.Gathered.take .start).schema ∧
      ∀ path, m.Partitioned b.required
        (fun f => (f.shape b.pool (b.pool.reference b.required (m.fullName :: path))).schema)
        (b.pool.messageShape b.required path m).schema := by
  have hat : ∀ path, m.Partitioned b.required
      (fun f => (f.shape b.pool (b.pool.reference b.required (m.fullName :: path))).schema)
      (b.pool.messageShape b.required path m).schema := by
    intro path
    rw [schema_messageShape]
    exact Schema.partitioned_ofMembers b.required _ hm
  refine ⟨hat [], ?_, hat⟩
  rw [← Schema.ofMembers_eq_gathered]
  exact schema_messageShape [] m

/-- A message whose two groups stand between each other and between ordinary fields. -/
def searchMessage : Message :=
  ⟨"shop.Search", [(Field.ofKind "sku" .string).withOneof ⟨"item", false⟩,
    Field.ofKind "limit" .int32,
    (Field.ofKind "region" .string).withOneof ⟨"place", false⟩,
    (Field.ofKind "name" .string).withOneof ⟨"item", false⟩,
    (Field.ofKind "cursor" .bytes).withOneof ⟨"_cursor", true⟩]⟩

/-- The groups are found, and each field has its place. -/
theorem partitioned_searchMessage :
    searchMessage.DistinctNames ∧ groupNames searchMessage.fields = ["item", "place"] ∧
      (freeFields searchMessage.fields).map (·.name) = ["limit", "cursor"] ∧
      searchMessage.Partitioned (fun f => f.name == "limit")
        ((Builder.new .empty fun f => f.name == "limit").memberSchema searchMessage)
        ((Builder.new .empty fun f => f.name == "limit").messageSchema searchMessage).1 := by
  have hm : searchMessage.DistinctNames := by
    simp [Message.DistinctNames, searchMessage, Field.ofKind, Field.withOneof]
  exact ⟨hm, by decide, by decide, (Message.partitioned_messageSchema (.new .empty _) _ hm).1⟩

end McpCatalog
