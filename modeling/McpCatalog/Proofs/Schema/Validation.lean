import McpCatalog.Proofs.Dict
import McpCatalog.Proofs.Schema.Pattern
import McpCatalog.Schema.Lowering
/-!
# Which documents a schema accepts

The meaning of a schema after Draft 2020-12 of JSON Schema, as far as the schemas of
messages use it: `type`, `enum`, `pattern`, `properties`, `required`,
`propertyNames`, `additionalProperties`, `items`, `anyOf` and `oneOf`. Every other
keyword is a remark and asks nothing of a document. A keyword speaks of the values of
its type only: `properties` holds of every value that is not an object.

The members of a document are a list in which a name may occur more than once; then
each of its values has to be right.

Results:
* `accepts_obj`: a document is accepted if every keyword holds of it.
* `accepts_ofScalar`, `accepts_ofEnum_some`, `accepts_ofEnum_none`, `accepts_ofList`,
  `accepts_ofMap`: what the schemas of fields accept.
* `accepts_ofMembers`: what the schema of a message accepts.
-/
namespace McpCatalog

/-! ## Documents -/

/-- A JSON document, with exact numbers. -/
inductive Document where
  | null
  | bool (b : Bool)
  | num (q : Rat)
  | str (s : String)
  | arr (items : List Document)
  | obj (members : List (String × Document))
  deriving Inhabited

namespace Document

/-- The document is of a type that JSON Schema names. A number without a fraction is an integer
as well. -/
def HasType (t : String) : Document → Prop
  | .null => t = "null"
  | .bool _ => t = "boolean"
  | .num q => t = "number" ∨ t = "integer" ∧ q.den = 1
  | .str _ => t = "string"
  | .arr _ => t = "array"
  | .obj _ => t = "object"

/-- The document is the value; only scalars are compared, as nothing else is listed. -/
def Is : Document → Json → Prop
  | .null, .null => True
  | .bool a, .bool b => a = b
  | .num q, .int n => q = n
  | .str s, .str t => s = t
  | _, _ => False

/-- Members of an object have a name among them. -/
def Has (ms : List (String × Document)) (name : String) : Prop :=
  ∃ v, (name, v) ∈ ms

/-- Members give a name values, at least one, all of which are right. -/
def Sets (ms : List (String × Document)) (name : String) (fits : Document → Prop) : Prop :=
  Has ms name ∧ ∀ v, (name, v) ∈ ms → fits v

theorem hasType_array {v : Document} : v.HasType "array" ↔ ∃ vs, v = .arr vs := by
  cases v <;> simp [HasType]

theorem hasType_object {v : Document} : v.HasType "object" ↔ ∃ ms, v = .obj ms := by
  cases v <;> simp [HasType]

theorem hasType_string {v : Document} : v.HasType "string" ↔ ∃ s, v = .str s := by
  cases v <;> simp [HasType]

theorem is_str {v : Document} {s : String} : v.Is (.str s) ↔ v = .str s := by
  cases v <;> simp [Is]

end Document

/-! ## One of several -/

/-- The property holds at one place of the list and at no other. -/
def ExactlyOne {α : Type} (p : α → Prop) (l : List α) : Prop :=
  ∃ before a after, l = before ++ a :: after ∧ p a ∧ ∀ b ∈ before ++ after, ¬ p b

section
variable {α β : Type}

theorem exactlyOne_congr {p q : α → Prop} {l : List α} (h : ∀ a ∈ l, p a ↔ q a) :
    ExactlyOne p l ↔ ExactlyOne q l := by
  constructor <;> rintro ⟨before, a, after, rfl, ha, hno⟩ <;>
    refine ⟨before, a, after, rfl, ?_, fun b hb hp => hno b hb ?_⟩
  · exact (h a (by simp)).1 ha
  · exact (h b (by rcases List.mem_append.1 hb with hb | hb <;> simp [hb])).2 hp
  · exact (h a (by simp)).2 ha
  · exact (h b (by rcases List.mem_append.1 hb with hb | hb <;> simp [hb])).1 hp

theorem exactlyOne_map {p : β → Prop} {f : α → β} {l : List α} :
    ExactlyOne p (l.map f) ↔ ExactlyOne (fun a => p (f a)) l := by
  constructor
  · rintro ⟨_, _, _, h, ha, hno⟩
    obtain ⟨before, _, rfl, rfl, hrest⟩ := List.map_eq_append_iff.1 h
    obtain ⟨a, after, rfl, rfl, rfl⟩ := List.map_eq_cons_iff.1 hrest
    refine ⟨before, a, after, rfl, ha, fun b hb => hno (f b) ?_⟩
    rw [← List.map_append]
    exact List.mem_map_of_mem hb
  · rintro ⟨before, a, after, rfl, ha, hno⟩
    refine ⟨before.map f, f a, after.map f, by simp, ha, fun b hb => ?_⟩
    rw [← List.map_append] at hb
    obtain ⟨c, hc, rfl⟩ := List.mem_map.1 hb
    exact hno c hc

/-- In a list without repetitions, one place is one element. -/
theorem exactlyOne_iff {p : α → Prop} {l : List α} (hn : l.Nodup) :
    ExactlyOne p l ↔ ∃ a ∈ l, p a ∧ ∀ b ∈ l, p b → b = a := by
  constructor
  · rintro ⟨before, a, after, rfl, ha, hno⟩
    refine ⟨a, by simp, ha, fun b hb hp => ?_⟩
    rcases List.mem_append.1 hb with hb | hb
    · exact absurd hp (hno b (List.mem_append_left _ hb))
    · rcases List.mem_cons.1 hb with rfl | hb
      · rfl
      · exact absurd hp (hno b (List.mem_append_right _ hb))
  · rintro ⟨a, hmem, ha, hone⟩
    obtain ⟨before, after, rfl⟩ := List.append_of_mem hmem
    refine ⟨before, a, after, rfl, ha, fun b hb hp => ?_⟩
    have hne : a ∉ before ++ after := by
      obtain ⟨-, hcons, hdisjoint⟩ := List.nodup_append.1 hn
      rw [List.mem_append]
      rintro (h | h)
      · exact hdisjoint a h a List.mem_cons_self rfl
      · exact (List.nodup_cons.1 hcons).1 h
    have hb' : b ∈ before ++ a :: after := by
      rcases List.mem_append.1 hb with hb | hb <;> simp [hb]
    exact hne (hone b hb' hp ▸ hb)

theorem ExactlyOne.exists_mem {p : α → Prop} {l : List α} (h : ExactlyOne p l) :
    ∃ a ∈ l, p a := by
  obtain ⟨before, a, after, rfl, ha, -⟩ := h
  exact ⟨a, by simp, ha⟩

end

/-! ## Validation -/

/-- Every keyword of a schema holds of a document, where `has name s` says that the keyword
stands in the schema with the value `s`, and `accepts` is the meaning of the schemas inside. -/
structure Keywords (accepts : Json → Document → Prop) (has : String → Json → Prop)
    (v : Document) : Prop where
  type : ∀ t, has "type" (.str t) → v.HasType t := by simp
  enum : ∀ values, has "enum" (.arr values) → ∃ x ∈ values, v.Is x := by simp
  pattern : ∀ p, has "pattern" (.str p) → ∀ s, v = .str s →
    ∃ r, Regex.ofText? p = some r ∧ r.Finds s := by simp
  properties : ∀ ps, has "properties" (.obj ps) → ∀ ms, v = .obj ms →
    ∀ n s w, (n, s) ∈ ps → (n, w) ∈ ms → accepts s w := by simp
  required : ∀ names, has "required" (.arr names) → ∀ ms, v = .obj ms →
    ∀ n, .str n ∈ names → Document.Has ms n := by simp
  propertyNames : ∀ s, has "propertyNames" s → ∀ ms, v = .obj ms →
    ∀ n w, (n, w) ∈ ms → accepts s (.str n) := by simp
  /-- Members that are named by `properties` are not additional. -/
  additionalProperties : ∀ s, has "additionalProperties" s → ∀ ms, v = .obj ms →
    ∀ n w, (n, w) ∈ ms → (∀ ps, has "properties" (.obj ps) → ∀ t, (n, t) ∉ ps) →
      accepts s w := by simp
  items : ∀ s, has "items" s → ∀ vs, v = .arr vs → ∀ w ∈ vs, accepts s w := by simp
  anyOf : ∀ ss, has "anyOf" (.arr ss) → ∃ s ∈ ss, accepts s v := by simp
  oneOf : ∀ ss, has "oneOf" (.arr ss) → ExactlyOne (fun s => accepts s v) ss := by simp

/-- The document is valid for the schema. -/
def Accepts : Json → Document → Prop
  | .bool b, _ => b = true
  | .obj ks, v =>
    Keywords (fun s w => ∃ _ : sizeOf s < sizeOf ks, Accepts s w) (fun k s => (k, s) ∈ ks) v
  | _, _ => False
termination_by s => sizeOf s
decreasing_by
  simp only [Json.obj.sizeOf_spec]
  omega

section
variable {accepts accepts' : Json → Document → Prop} {has : String → Json → Prop} {v : Document}

/-- The keywords ask only about the schemas inside of them. -/
theorem Keywords.congr
    (h : ∀ k s', has k s' → ∀ s, sizeOf s ≤ sizeOf s' → ∀ w, accepts s w ↔ accepts' s w)
    (hk : Keywords accepts has v) : Keywords accepts' has v where
  type := hk.type
  enum := hk.enum
  pattern := hk.pattern
  properties := fun ps hps ms hv n s w hs hw =>
    (h _ _ hps s (by have := List.sizeOf_lt_of_mem hs; simp at this ⊢; omega) w).1
      (hk.properties ps hps ms hv n s w hs hw)
  required := hk.required
  propertyNames := fun s hs ms hv n w hw =>
    (h _ _ hs s (Nat.le_refl _) _).1 (hk.propertyNames s hs ms hv n w hw)
  additionalProperties := fun s hs ms hv n w hw hno =>
    (h _ _ hs s (Nat.le_refl _) w).1 (hk.additionalProperties s hs ms hv n w hw hno)
  items := fun s hs vs hv w hw => (h _ _ hs s (Nat.le_refl _) w).1 (hk.items s hs vs hv w hw)
  anyOf := fun ss hss => by
    obtain ⟨s, hs, hv⟩ := hk.anyOf ss hss
    exact ⟨s, hs, (h _ _ hss s (by have := List.sizeOf_lt_of_mem hs; simp; omega) v).1 hv⟩
  oneOf := fun ss hss => (exactlyOne_congr fun s hs =>
    h _ _ hss s (by have := List.sizeOf_lt_of_mem hs; simp; omega) v).1 (hk.oneOf ss hss)

end

theorem accepts_obj {ks : List (String × Json)} {v : Document} :
    Accepts (.obj ks) v ↔ Keywords Accepts (fun k s => (k, s) ∈ ks) v := by
  have small : ∀ k s', (k, s') ∈ ks → ∀ s : Json, sizeOf s ≤ sizeOf s' → sizeOf s < sizeOf ks := by
    intro k s' hs' s hle
    have := List.sizeOf_lt_of_mem hs'
    simp at this
    omega
  rw [Accepts]
  constructor <;> refine Keywords.congr fun k s' hs' s hle w => ?_
  · exact ⟨fun ⟨_, h⟩ => h, fun h => ⟨small k s' hs' s hle, h⟩⟩
  · exact ⟨fun h => ⟨small k s' hs' s hle, h⟩, fun ⟨_, h⟩ => h⟩

/-- The order in which the keywords are given does not matter. -/
theorem accepts_object {ks : List (String × Json)} (hn : (ks.map (·.1)).Nodup) {v : Document} :
    Accepts (.object ks) v ↔ Keywords Accepts (fun k s => (k, s) ∈ ks) v := by
  rw [Json.object, accepts_obj]
  simp only [Json.mem_members hn]

/-! ## Fields of messages -/

/-- The fields of the group `g`, in the order of the message. -/
def groupMembers (g : String) (fields : List Field) : List Field :=
  fields.filter fun f => f.declaredOneof == some g

/-- The fields outside of the groups. -/
def freeFields (fields : List Field) : List Field :=
  fields.filter fun f => f.declaredOneof.isNone

/-- The names of the groups, in the order of their first fields. -/
def groupNames (fields : List Field) : List String :=
  (fields.filterMap (·.declaredOneof)).eraseDups

theorem mem_freeFields {fields : List Field} {f : Field} :
    f ∈ freeFields fields ↔ f ∈ fields ∧ f.declaredOneof = none := by
  simp [freeFields]

theorem mem_groupNames {g : String} {fields : List Field} :
    g ∈ groupNames fields ↔ ∃ f ∈ fields, f.declaredOneof = some g := by
  simp [groupNames]

theorem groupNames_ne_nil {fields : List Field} :
    groupNames fields ≠ [] ↔ ∃ f ∈ fields, f.declaredOneof ≠ none := by
  constructor
  · intro h
    obtain ⟨g, hg⟩ := List.exists_mem_of_ne_nil _ h
    obtain ⟨f, hf, hfg⟩ := mem_groupNames.1 hg
    exact ⟨f, hf, by simp [hfg]⟩
  · rintro ⟨f, hf, hne⟩
    obtain ⟨g, hg⟩ := Option.ne_none_iff_exists'.1 hne
    exact List.ne_nil_of_mem (mem_groupNames.2 ⟨f, hf, hg⟩)

theorem mem_groupMembers {g : String} {fields : List Field} {f : Field} :
    f ∈ groupMembers g fields ↔ f ∈ fields ∧ f.declaredOneof = some g := by
  simp [groupMembers]

/-- The members of an object suit the fields of a message, where `fits` says which values suit a
field. -/
structure FieldsFit (required : Requirement) (fits : Field → Document → Prop)
    (fields : List Field) (ms : List (String × Document)) : Prop where
  /-- Of a field outside of the groups every value suits. -/
  free : ∀ f ∈ fields, f.declaredOneof = none → ∀ w, (f.name, w) ∈ ms → fits f w
  /-- A required field outside of the groups is there. -/
  required : ∀ f ∈ fields, f.declaredOneof = none → required f = true → Document.Has ms f.name
  /-- If there are groups, then exactly one field of some group is there with a value that
  suits. -/
  choice : (∃ f ∈ fields, f.declaredOneof ≠ none) →
    ∃ g, ExactlyOne (fun f => Document.Sets ms f.name (fits f)) (groupMembers g fields)

/-- Only the values that stand in the object matter. -/
theorem FieldsFit.congr {required : Requirement} {fits fits' : Field → Document → Prop}
    {fields : List Field} {ms : List (String × Document)}
    (h : ∀ f ∈ fields, ∀ w, (f.name, w) ∈ ms → (fits f w ↔ fits' f w)) :
    FieldsFit required fits fields ms ↔ FieldsFit required fits' fields ms := by
  have sets : ∀ g, ExactlyOne (fun f => Document.Sets ms f.name (fits f)) (groupMembers g fields)
      ↔ ExactlyOne (fun f => Document.Sets ms f.name (fits' f)) (groupMembers g fields) := by
    refine fun g => exactlyOne_congr fun f hf => and_congr_right fun _ => ?_
    exact forall_congr' fun w => imp_congr_right (h f (mem_groupMembers.1 hf).1 w)
  constructor <;> rintro ⟨hfree, hreq, hchoice⟩
  · refine ⟨fun f hf hn w hw => (h f hf w hw).1 (hfree f hf hn w hw), hreq, fun hg => ?_⟩
    obtain ⟨g, hg⟩ := hchoice hg
    exact ⟨g, (sets g).1 hg⟩
  · refine ⟨fun f hf hn w hw => (h f hf w hw).2 (hfree f hf hn w hw), hreq, fun hg => ?_⟩
    obtain ⟨g, hg⟩ := hchoice hg
    exact ⟨g, (sets g).2 hg⟩

namespace Schema

/-! ## Schemas of fields -/

theorem accepts_empty {v : Document} : Accepts (.object []) v :=
  (accepts_object (by simp)).2 {}

theorem accepts_comment {text : String} {v : Document} :
    Accepts (.object [("$comment", .str text)]) v :=
  (accepts_object (by simp)).2 {}

theorem accepts_type {t : String} {v : Document} :
    Accepts (.object [("type", .str t)]) v ↔ v.HasType t := by
  rw [accepts_object (by simp)]
  exact ⟨fun h => h.type t (by simp), fun h => { type := by simpa using h }⟩

/-- Where the values of the type are strings, the remarks on how they are written ask nothing. -/
theorem accepts_ofScalar {kind : FieldKind} {v : Document} :
    Accepts (ofScalar kind) v ↔ v.HasType kind.jsonType.name := by
  unfold ofScalar
  split
  · rw [accepts_object (by simp)]
    exact ⟨fun h => h.type _ (by simp), fun h => { type := by simpa using h }⟩
  · exact accepts_type

theorem accepts_strings {names : List String} {v : Document} :
    Accepts (.object [("type", .str "string"), ("enum", .strings names)]) v
      ↔ ∃ n ∈ names, v = .str n := by
  rw [accepts_object (by simp)]
  constructor
  · intro h
    obtain ⟨x, hx, hv⟩ := h.enum (names.map .str) (by simp [Json.strings])
    obtain ⟨n, hn, rfl⟩ := List.mem_map.1 hx
    exact ⟨n, hn, Document.is_str.1 hv⟩
  · rintro ⟨n, hn, rfl⟩
    exact
      { type := by simp [Document.HasType]
        enum := fun values hvalues => by
          obtain rfl : values = names.map .str := by simpa [Json.strings] using hvalues
          exact ⟨.str n, List.mem_map_of_mem hn, Document.is_str.2 rfl⟩ }

theorem accepts_pattern {p : String} {v : Document} :
    Accepts (.object [("type", .str "string"), ("pattern", .str p)]) v
      ↔ ∃ s, v = .str s ∧ ∃ r, Regex.ofText? p = some r ∧ r.Finds s := by
  rw [accepts_object (by simp)]
  constructor
  · intro h
    obtain ⟨s, rfl⟩ := Document.hasType_string.1 (h.type "string" (by simp))
    exact ⟨s, rfl, h.pattern p (by simp) s rfl⟩
  · rintro ⟨s, rfl, hs⟩
    exact { type := by simp [Document.HasType], pattern := by simpa using hs }

theorem accepts_ofEnum_some {names : List String} {v : Document} :
    Accepts (ofEnum (some names)) v ↔ ∃ n ∈ names, v = .str n :=
  accepts_strings

theorem accepts_ofEnum_none {v : Document} : Accepts (ofEnum none) v ↔ ∃ s, v = .str s :=
  accepts_type.trans Document.hasType_string

theorem accepts_ofList {item : Json} {v : Document} :
    Accepts (ofList item) v ↔ ∃ vs, v = .arr vs ∧ ∀ w ∈ vs, Accepts item w := by
  rw [ofList, accepts_object (by simp)]
  constructor
  · intro h
    obtain ⟨vs, rfl⟩ := Document.hasType_array.1 (h.type "array" (by simp))
    exact ⟨vs, rfl, h.items item (by simp) vs rfl⟩
  · rintro ⟨vs, rfl, h⟩
    exact { type := by simp [Document.HasType], items := by simpa using h }

theorem accepts_ofMap {key : FieldKind} {value : Json} {v : Document} :
    Accepts (ofMap key value) v ↔ ∃ ms, v = .obj ms ∧
      ∀ k w, (k, w) ∈ ms → Accepts (keyConstraint key) (.str k) ∧ Accepts value w := by
  rw [ofMap, accepts_object (by simp)]
  constructor
  · intro h
    obtain ⟨ms, rfl⟩ := Document.hasType_object.1 (h.type "object" (by simp))
    exact ⟨ms, rfl, fun k w hw => ⟨h.propertyNames _ (by simp) ms rfl k w hw,
      h.additionalProperties value (by simp) ms rfl k w hw (by simp)⟩⟩
  · rintro ⟨ms, rfl, h⟩
    exact
      { type := by simp [Document.HasType]
        propertyNames := fun s hs ms' hms k w hw => by
          obtain rfl : s = keyConstraint key := by simpa using hs
          obtain rfl := Document.obj.inj hms
          exact (h k w hw).1
        additionalProperties := fun s hs ms' hms k w hw _ => by
          obtain rfl : s = value := by simpa using hs
          obtain rfl := Document.obj.inj hms
          exact (h k w hw).2 }

/-! ## Schemas of messages -/

theorem object_singleton (name : String) (s : Json) : Json.object [(name, s)] = .obj [(name, s)] :=
  rfl

theorem accepts_alternative {name : String} {s : Json} {ms : List (String × Document)} :
    Accepts (alternative name s) (.obj ms) ↔ Document.Sets ms name (Accepts s) := by
  rw [alternative, object_singleton, accepts_object (by simp)]
  constructor
  · intro h
    exact ⟨h.required [.str name] (by simp [Json.strings]) ms rfl name (by simp),
      fun w hw => h.properties [(name, s)] (by simp) ms rfl name s w (by simp) hw⟩
  · rintro ⟨hhas, h⟩
    exact
      { properties := fun ps hps ms' hms n t w ht hw => by
          obtain rfl : ps = [(name, s)] := by simpa using hps
          obtain rfl := Document.obj.inj hms
          obtain ⟨rfl, rfl⟩ : n = name ∧ t = s := by simpa using ht
          exact h w hw
        required := fun names hnames ms' hms n hn => by
          obtain rfl : names = [.str name] := by simpa [Json.strings] using hnames
          obtain rfl := Document.obj.inj hms
          obtain rfl : n = name := by simpa using hn
          exact hhas }

section
variable {required : Requirement} {fields : List Field} {schema : Field → Json}

/-- The entry of `anyOf` for a group of fields. -/
def groupSchema (schema : Field → Json) (fields : List Field) (g : String) : Json :=
  .object [("$comment", .str groupComment),
    ("oneOf", .arr ((groupMembers g fields).map fun f => alternative f.name (schema f)))]

/-- The schema of a message in terms of its fields. -/
theorem ofMembers_map_head :
    ofMembers (fields.map fun f => (f.head required, schema f))
      = .object ([("type", .str "object"),
          ("properties", .object ((freeFields fields).map fun f => (f.name, schema f))),
          ("required", .strings (((freeFields fields).filter required).map (·.name)))]
          ++ if (groupNames fields).isEmpty then []
            else [("anyOf", .arr ((groupNames fields).map (groupSchema schema fields)))]) := by
  have entries : groupEntry (fields.map fun f => (f.head required, schema f))
      = groupSchema schema fields := by
    funext g
    simp only [groupEntry, groupSchema, group, groupMembers, List.filter_map, List.map_map]
    rfl
  have names : groups (fields.map fun f => (f.head required, schema f)) = groupNames fields := by
    simp only [groups, groupNames, List.filterMap_map]
    rfl
  rw [ofMembers, entries, names]
  simp only [free, freeFields, List.filter_map, List.map_map]
  rfl

theorem accepts_groupSchema {g : String} {ms : List (String × Document)} :
    Accepts (groupSchema schema fields g) (.obj ms)
      ↔ ExactlyOne (fun f => Document.Sets ms f.name (Accepts (schema f)))
          (groupMembers g fields) := by
  have one : ExactlyOne (fun s => Accepts s (.obj ms))
      ((groupMembers g fields).map fun f => alternative f.name (schema f))
      ↔ ExactlyOne (fun f => Document.Sets ms f.name (Accepts (schema f)))
          (groupMembers g fields) := by
    simp only [exactlyOne_map, accepts_alternative]
  rw [groupSchema, accepts_object (by simp), ← one]
  constructor
  · intro h
    exact h.oneOf _ (by simp)
  · intro h
    exact
      { oneOf := fun ss hss => by
          obtain rfl : ss = (groupMembers g fields).map fun f => alternative f.name (schema f) := by
            simpa using hss
          exact h }

/-- **The schema of a message.** It accepts the objects whose members suit the fields, each by the
schema of the field. -/
theorem accepts_ofMembers (hn : ((freeFields fields).map (·.name)).Nodup) {v : Document} :
    Accepts (ofMembers (fields.map fun f => (f.head required, schema f))) v
      ↔ ∃ ms, v = .obj ms ∧ FieldsFit required (fun f => Accepts (schema f)) fields ms := by
  have properties : ∀ n s,
      (n, s) ∈ Json.members ((freeFields fields).map fun f => (f.name, schema f))
      ↔ ∃ f ∈ fields, f.declaredOneof = none ∧ f.name = n ∧ schema f = s := by
    intro n s
    rw [Json.mem_members (by simpa [Function.comp_def] using hn)]
    simp [mem_freeFields, and_assoc]
  rw [ofMembers_map_head, accepts_object (by split <;> simp)]
  constructor
  · intro h
    obtain ⟨ms, rfl⟩ := Document.hasType_object.1 (h.type "object" (by simp))
    refine ⟨ms, rfl, ?_, ?_, ?_⟩
    · intro f hf hfree w hw
      exact h.properties _ (by simp; rfl) ms rfl f.name _ w
        ((properties _ _).2 ⟨f, hf, hfree, rfl, rfl⟩) hw
    · intro f hf hfree hreq
      refine h.required _ (by simp; rfl) ms rfl f.name ?_
      exact List.mem_map_of_mem (List.mem_map_of_mem
        (List.mem_filter.2 ⟨mem_freeFields.2 ⟨hf, hfree⟩, hreq⟩))
    · intro hgroups
      obtain ⟨s, hs, hv⟩ := h.anyOf ((groupNames fields).map (groupSchema schema fields))
        (by simp [groupNames_ne_nil.2 hgroups])
      obtain ⟨g, -, rfl⟩ := List.mem_map.1 hs
      exact ⟨g, accepts_groupSchema.1 hv⟩
  · rintro ⟨ms, rfl, h⟩
    exact
      { type := by simp [Document.HasType]
        properties := fun ps hps ms' hms n s w hs hw => by
          obtain rfl : ps = Json.members ((freeFields fields).map fun f => (f.name, schema f)) := by
            simpa [Json.object] using hps
          obtain rfl := Document.obj.inj hms
          obtain ⟨f, hf, hfree, rfl, rfl⟩ := (properties n s).1 hs
          exact h.free f hf hfree w hw
        required := fun names hnames ms' hms n hn => by
          obtain rfl : names = (((freeFields fields).filter required).map (·.name)).map .str := by
            simpa [Json.strings] using hnames
          obtain rfl := Document.obj.inj hms
          obtain ⟨_, hx, he⟩ := List.mem_map.1 hn
          obtain ⟨f, hf, rfl⟩ := List.mem_map.1 hx
          obtain ⟨hf, hreq⟩ := List.mem_filter.1 hf
          obtain ⟨hf, hfree⟩ := mem_freeFields.1 hf
          exact Json.str.inj he ▸ h.required f hf hfree hreq
        anyOf := fun ss hss => by
          obtain ⟨hne, rfl⟩ : groupNames fields ≠ [] ∧
              ss = (groupNames fields).map (groupSchema schema fields) := by
            by_cases hne : groupNames fields = [] <;> simp [hne] at hss ⊢
            exact hss
          obtain ⟨g, hg⟩ := h.choice (groupNames_ne_nil.1 hne)
          obtain ⟨f, hf, -⟩ := hg.exists_mem
          obtain ⟨hf, hfg⟩ := mem_groupMembers.1 hf
          exact ⟨_, List.mem_map_of_mem (mem_groupNames.2 ⟨f, hf, hfg⟩), accepts_groupSchema.2 hg⟩ }

end

end Schema
end McpCatalog
