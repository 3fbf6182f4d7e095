import McpCatalog.Proofs.Json.Inside
import McpCatalog.Proofs.Schema.Naming
import McpCatalog.Proofs.Schema.Parts
/-!
# What stands inside a schema

At any depth a schema has truth values, strings, lists and objects that are put in order. The
members of such an object are called by names that belong to schemas, or by the name of a field,
and then they are objects again; a comment says what the alternatives of a group are or at which
name the schema was cut.

Results:
* `parts_schema`: what stands inside the schema of a shape.
* `not_commented_of_cuts_eq_nil`: in a schema that was not cut no comment says so.
* `name_of_within_messageShape`: the names in a message are names of fields of the pool.
-/
namespace McpCatalog

open Json (Inside)

namespace Schema

/-- The names that schemas give to members whatever the fields are called. -/
def fixedNames : List String :=
  ["type", "properties", "required", "anyOf", "oneOf", "items", "propertyNames",
   "additionalProperties", "enum", "pattern", "format", "contentEncoding", "nullable", "@type",
   "value"]

/-- What a member of an object inside a schema can be, where `N` holds of the names of fields and
`C` of the names at which the schema is cut. -/
inductive Member (N C : String → Prop) : String → Json → Prop
  | fixed {name : String} {v : Json} (h : name ∈ fixedNames) : Member N C name v
  | groupComment : Member N C "$comment" (.str groupComment)
  | backComment {t : String} (ht : C t) : Member N C "$comment" (.str (backComment t))
  | property {name : String} {ms : List (String × Json)} (h : N name) :
    Member N C name (.object ms)

/-- What a value inside a schema can be. -/
inductive Part (N C : String → Prop) : Json → Prop
  | bool (b : Bool) : Part N C (.bool b)
  | str (s : String) : Part N C (.str s)
  | arr (items : List Json) : Part N C (.arr items)
  | object {ms : List (String × Json)} (h : ∀ m ∈ ms, Member N C m.1 m.2) : Part N C (.object ms)

/-- Everything inside the value can be inside a schema. -/
def Parts (N C : String → Prop) (v : Json) : Prop :=
  ∀ w, Inside w v → Part N C w

/-- The two sorts of comments are told apart by their first character. -/
theorem backComment_ne_groupComment (t : String) : backComment t ≠ groupComment := by
  have hback : (backComment t).toList.head? = some 'r' := by
    unfold backComment
    simp
  have hgroup : groupComment.toList.head? = some 'O' := by decide +kernel
  intro h
  rw [h, hgroup] at hback
  cases hback

variable {N C : String → Prop}

/-- The members of an object inside a schema are in order, each of a known sort. -/
theorem Part.members {ms : List (String × Json)} (h : Part N C (.obj ms)) :
    Entries.Ordered ms ∧ ∀ m ∈ ms, Member N C m.1 m.2 := by
  generalize hv : Json.obj ms = v at h
  cases h with
  | object h =>
    obtain rfl := Json.obj.inj hv
    exact ⟨Json.ordered_members _, fun m hm => h m (Dict.mem_of_mem_ofList hm)⟩
  | _ => cases hv

/-! ## Values made from others -/

@[simp] theorem parts_bool (b : Bool) : Parts N C (.bool b) := by
  intro w hw
  rw [Json.inside_bool_iff.1 hw]
  exact .bool b

@[simp] theorem parts_str (s : String) : Parts N C (.str s) := by
  intro w hw
  rw [Json.inside_str_iff.1 hw]
  exact .str s

theorem parts_arr {items : List Json} (h : ∀ v ∈ items, Parts N C v) : Parts N C (.arr items) := by
  intro w hw
  rcases Json.inside_arr_iff.1 hw with rfl | ⟨v, hv, hw⟩
  · exact .arr items
  · exact h v hv w hw

@[simp] theorem parts_strings (names : List String) : Parts N C (.strings names) := by
  refine parts_arr fun v hv => ?_
  obtain ⟨name, -, rfl⟩ := List.mem_map.1 hv
  exact parts_str name

theorem parts_object {ms : List (String × Json)}
    (h : ∀ m ∈ ms, Member N C m.1 m.2 ∧ Parts N C m.2) : Parts N C (.object ms) := by
  intro w hw
  rcases Json.of_inside_object hw with rfl | ⟨m, hm, hw⟩
  · exact .object fun m hm => (h m hm).1
  · exact (h m hm).2 w hw

/-- Members with fixed names need no condition but that on their values. -/
theorem parts_object_fixed {ms : List (String × Json)} (hnames : ∀ m ∈ ms, m.1 ∈ fixedNames)
    (h : ∀ m ∈ ms, Parts N C m.2) : Parts N C (.object ms) :=
  parts_object fun m hm => ⟨.fixed (hnames m hm), h m hm⟩

/-! ## Schemas without schemas in them -/

theorem parts_wellKnown (w : WellKnown) : Parts N C w.schema := by
  have hempty : Parts N C (.object []) := parts_object (by simp)
  have htype (name : String) : Parts N C (.object [("type", .str name)]) :=
    parts_object_fixed (by simp [fixedNames]) (by simp)
  have hproperties : Parts N C
      (.object [("@type", .object [("type", .str "string")]), ("value", .object [])]) :=
    parts_object_fixed (by simp [fixedNames]) (by simp [hempty, htype])
  cases w <;> exact parts_object_fixed (by simp [fixedNames]) (by simp [hempty, hproperties])

theorem parts_ofScalar (kind : FieldKind) : Parts N C (ofScalar kind) := by
  unfold ofScalar
  split
  · exact parts_object_fixed (by simp [fixedNames]) (by simp)
  · exact parts_object_fixed (by simp [fixedNames]) (by simp)

theorem parts_ofEnum (names : Option (List String)) : Parts N C (ofEnum names) := by
  cases names with
  | none => exact parts_object_fixed (by simp [fixedNames]) (by simp)
  | some names => exact parts_object_fixed (by simp [fixedNames]) (by simp)

theorem parts_keyConstraint (key : FieldKind) : Parts N C (keyConstraint key) := by
  unfold keyConstraint
  split
  · exact parts_object_fixed (by simp [fixedNames]) (by simp)
  · split
    · exact parts_object_fixed (by simp [fixedNames]) (by simp)
    · split
      · exact parts_object_fixed (by simp [fixedNames]) (by simp)
      · exact parts_object_fixed (by simp [fixedNames]) (by simp)

/-! ## Schemas made from others -/

section
variable {s : Json}

theorem parts_ofMap (key : FieldKind) (h : Parts N C s) : Parts N C (ofMap key s) :=
  parts_object_fixed (by simp [fixedNames]) (by simp [parts_keyConstraint, h])

theorem parts_ofList (h : Parts N C s) : Parts N C (ofList s) :=
  parts_object_fixed (by simp [fixedNames]) (by simp [h])

/-- Properties are named after fields, and each of them is an object. -/
theorem parts_properties {ps : List (String × Json)}
    (h : ∀ p ∈ ps, N p.1 ∧ (∃ ms, p.2 = .object ms) ∧ Parts N C p.2) : Parts N C (.object ps) := by
  refine parts_object fun p hp => ?_
  obtain ⟨hname, ⟨ms, hms⟩, hparts⟩ := h p hp
  exact ⟨hms ▸ .property hname, hparts⟩

theorem parts_alternative {name : String} (hname : N name) (hobject : ∃ ms, s = .object ms)
    (h : Parts N C s) : Parts N C (alternative name s) := by
  have hproperties : Parts N C (.object [(name, s)]) :=
    parts_properties (by simp [hname, hobject, h])
  exact parts_object_fixed (by simp [fixedNames]) (by simp [hproperties])

end

section
variable {members : List (Head × Json)}

theorem parts_groupEntry
    (h : ∀ m ∈ members, N m.1.name ∧ (∃ ms, m.2 = .object ms) ∧ Parts N C m.2) (name : String) :
    Parts N C (groupEntry members name) := by
  have halternatives : Parts N C (.arr ((group name members).map fun m =>
      alternative m.1.name m.2)) := by
    refine parts_arr fun v hv => ?_
    obtain ⟨m, hm, rfl⟩ := List.mem_map.1 hv
    obtain ⟨hname, hobject, hparts⟩ := h m (List.mem_filter.1 hm).1
    exact parts_alternative hname hobject hparts
  have hname {v : Json} : Member N C "oneOf" v := .fixed (by simp [fixedNames])
  exact parts_object (by simp [Member.groupComment, hname, halternatives])

theorem parts_ofMembers
    (h : ∀ m ∈ members, N m.1.name ∧ (∃ ms, m.2 = .object ms) ∧ Parts N C m.2) :
    Parts N C (ofMembers members) := by
  have hproperties : Parts N C (.object ((free members).map fun m => (m.1.name, m.2))) := by
    refine parts_properties fun p hp => ?_
    obtain ⟨m, hm, rfl⟩ := List.mem_map.1 hp
    exact h m (List.mem_filter.1 hm).1
  have hgroups : Parts N C (.arr ((groups members).map (groupEntry members))) := by
    refine parts_arr fun v hv => ?_
    obtain ⟨name, -, rfl⟩ := List.mem_map.1 hv
    exact parts_groupEntry h name
  unfold ofMembers
  split
  · exact parts_object_fixed (by simp [fixedNames]) (by simp [hproperties])
  · exact parts_object_fixed (by simp [fixedNames]) (by simp [hproperties, hgroups])

end
end Schema

/-! ## Schemas of shapes -/

/-- A schema is an object. -/
theorem Shape.schema_eq_object (s : Shape) : ∃ ms, s.schema = .object ms := by
  cases s with
  | wellKnown w => cases w <;> exact ⟨_, rfl⟩
  | enum names => cases names <;> exact ⟨_, rfl⟩
  | _ => exact ⟨_, rfl⟩

/-- What stands inside the schema of a shape. -/
theorem Shape.parts_schema {N C : String → Prop} (s : Shape)
    (hnames : ∀ n ms, Shape.Within (.message n ms) s → ∀ m ∈ ms, N m.1.name)
    (hcuts : ∀ t ∈ s.cuts, C t) : Schema.Parts N C s.schema := by
  induction s using Shape.induct with
  | scalar kind => exact Schema.parts_ofScalar kind
  | enum names => exact Schema.parts_ofEnum names
  | wellKnown w => exact Schema.parts_wellKnown w
  | back t =>
    have ht : C t := hcuts t (by simp [Shape.cuts])
    exact Schema.parts_object (by simp [Schema.Member.backComment ht])
  | unresolved => exact Schema.parts_object (by simp)
  | message name ms ih =>
    rw [schema_message]
    refine Schema.parts_ofMembers fun e he => ?_
    obtain ⟨m, hm, rfl⟩ := List.mem_map.1 he
    refine ⟨hnames name ms .refl m hm, m.2.schema_eq_object, ih m hm ?_ ?_⟩
    · exact fun n ms' h => hnames n ms' (.member hm h)
    · intro t ht
      refine hcuts t ?_
      rw [Shape.cuts, cutsOfMembers_eq]
      exact List.mem_flatMap.2 ⟨m, hm, ht⟩
  | list item ih =>
    exact Schema.parts_ofList (ih (fun n ms h => hnames n ms (.list h)) hcuts)
  | map key value ih =>
    exact Schema.parts_ofMap key (ih (fun n ms h => hnames n ms (.map h)) hcuts)

/-- Where a schema was not cut, no comment in it says so. -/
theorem Shape.not_commented_of_cuts_eq_nil {s : Shape} (h : s.cuts = [])
    {ms : List (String × Json)} (hms : Inside (.obj ms) s.schema) (t : String) :
    ("$comment", .str (Schema.backComment t)) ∉ ms := by
  intro hm
  have hparts : Schema.Parts (fun _ => True) (fun _ => False) s.schema :=
    s.parts_schema (fun _ _ _ _ _ => trivial) (by simp [h])
  have hmember := (hparts _ hms).members.2 _ hm
  generalize hv : Json.str (Schema.backComment t) = v at hmember
  cases hmember with
  | fixed hname => simp [Schema.fixedNames] at hname
  | groupComment => exact Schema.backComment_ne_groupComment t (Json.str.inj hv)
  | backComment ht => exact ht
  | property => cases hv

/-- Inside a message, the names of members are those of its own fields and of the fields of messages
of the pool. -/
theorem name_of_within_messageShape {pool : Pool} {required : Requirement} {path : List String}
    {m₀ : Message} {n : String} {ms : List (Head × Shape)}
    (h : Shape.Within (.message n ms) (pool.messageShape required path m₀)) {x : Head × Shape}
    (hx : x ∈ ms) :
    ∃ m, (m = m₀ ∨ pool.message? n = some m) ∧ ∃ f ∈ m.fields, f.name = x.1.name := by
  have hfield {path : List String} {m : Message}
      (heq : .message n ms = pool.messageShape required path m) :
      ∃ f ∈ m.fields, f.name = x.1.name := by
    obtain ⟨-, rfl⟩ := Shape.message.inj heq
    obtain ⟨f, hf, rfl⟩ := List.mem_map.1 hx
    exact ⟨f, hf, rfl⟩
  generalize hs : pool.messageShape required path m₀ = s at h
  cases h with
  | refl => exact ⟨m₀, .inl rfl, hfield hs.symm⟩
  | member hmem hs' =>
    obtain ⟨-, rfl⟩ := Shape.message.inj hs
    obtain ⟨t, ht⟩ := within_members hmem hs'
    obtain ⟨path', m, hm, heq⟩ := within_reference ht
    exact ⟨m, .inr hm, hfield heq⟩
  | list => cases hs
  | map => cases hs

end McpCatalog
