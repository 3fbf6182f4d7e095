import McpCatalog.Proofs.Dict
import McpCatalog.Schema.Builder
/-!
# Names in schemas

An object of a schema is made from members that are put in order by their names, where of those with
one name the last counts. So no object in a schema has two members of one name, at any depth and
whatever the fields of a message are called.

Results:
* `distinct_object`: an object made from values without repeated names.
* `distinct_schema`: the schema of a shape has no repeated name.
* `distinct_messageSchema`: nor has the schema of a message.
-/
namespace McpCatalog

namespace Json

mutual

/-- No object in the value has two members of one name. -/
def Distinct : Json → Prop
  | .arr items => DistinctItems items
  | .obj ms => (ms.map (·.1)).Nodup ∧ DistinctMembers ms
  | _ => True

def DistinctItems : List Json → Prop
  | [] => True
  | v :: rest => v.Distinct ∧ DistinctItems rest

def DistinctMembers : List (String × Json) → Prop
  | [] => True
  | (_, v) :: rest => v.Distinct ∧ DistinctMembers rest

end

theorem distinct_arr {items : List Json} (h : ∀ v ∈ items, v.Distinct) : (arr items).Distinct := by
  induction items with
  | nil => trivial
  | cons v items ih =>
    exact ⟨h v List.mem_cons_self, ih fun w hw => h w (List.mem_cons_of_mem _ hw)⟩

theorem distinct_obj {ms : List (String × Json)} (hnames : (ms.map (·.1)).Nodup)
    (h : ∀ m ∈ ms, m.2.Distinct) : (obj ms).Distinct := by
  refine ⟨hnames, ?_⟩
  clear hnames
  induction ms with
  | nil => trivial
  | cons m ms ih =>
    exact ⟨h m List.mem_cons_self, ih fun m' hm' => h m' (List.mem_cons_of_mem _ hm')⟩

/-- An object that is put in order has no repeated name, if the values in it have none. -/
theorem distinct_object {ms : List (String × Json)} (h : ∀ m ∈ ms, m.2.Distinct) :
    (object ms).Distinct :=
  distinct_obj (Dict.ofList ms).nodup_keys fun m hm => h m (Dict.mem_of_mem_ofList hm)

theorem distinct_strings (names : List String) : (strings names).Distinct := by
  refine distinct_arr fun v hv => ?_
  obtain ⟨name, -, rfl⟩ := List.mem_map.1 hv
  trivial

end Json

open Json (distinct_arr distinct_object distinct_strings)

/-! ## Schemas without schemas in them -/

@[simp] theorem Json.distinct_bool (b : Bool) : (Json.bool b).Distinct := trivial

@[simp] theorem Json.distinct_str (s : String) : (Json.str s).Distinct := trivial

theorem WellKnown.distinct_schema (w : WellKnown) : w.schema.Distinct := by
  have hempty : (Json.object []).Distinct := distinct_object (by simp)
  have htype (name : String) : (Json.object [("type", .str name)]).Distinct :=
    distinct_object (by simp)
  have hproperties : (Json.object
      [("@type", .object [("type", .str "string")]), ("value", .object [])]).Distinct :=
    distinct_object (by simp [hempty, htype])
  cases w <;> exact distinct_object (by simp [hempty, hproperties, distinct_strings])

namespace Schema

theorem distinct_ofScalar (kind : FieldKind) : (ofScalar kind).Distinct := by
  unfold ofScalar
  split
  · exact distinct_object (by simp)
  · exact distinct_object (by simp)

theorem distinct_ofEnum (names : Option (List String)) : (ofEnum names).Distinct := by
  cases names with
  | none => exact distinct_object (by simp)
  | some names => exact distinct_object (by simp [distinct_strings])

theorem distinct_keyConstraint (key : FieldKind) : (keyConstraint key).Distinct := by
  unfold keyConstraint
  split
  · exact distinct_object (by simp [distinct_strings])
  · split
    · exact distinct_object (by simp)
    · split
      · exact distinct_object (by simp)
      · exact distinct_object (by simp)

/-! ## Schemas made from others -/

section
variable {s : Json}

theorem distinct_ofMap (key : FieldKind) (h : s.Distinct) : (ofMap key s).Distinct :=
  distinct_object (by simp [distinct_keyConstraint, h])

theorem distinct_ofList (h : s.Distinct) : (ofList s).Distinct :=
  distinct_object (by simp [h])

theorem distinct_alternative (name : String) (h : s.Distinct) : (alternative name s).Distinct := by
  have hproperties : (Json.object [(name, s)]).Distinct := distinct_object (by simp [h])
  exact distinct_object (by simp [hproperties, distinct_strings])

end

section
variable {members : List (Head × Json)}

theorem distinct_groupEntry (h : ∀ m ∈ members, m.2.Distinct) (name : String) :
    (groupEntry members name).Distinct := by
  have halternatives : (Json.arr ((group name members).map fun m =>
      alternative m.1.name m.2)).Distinct := by
    refine distinct_arr fun v hv => ?_
    obtain ⟨m, hm, rfl⟩ := List.mem_map.1 hv
    exact distinct_alternative m.1.name (h m (List.mem_filter.1 hm).1)
  exact distinct_object (by simp [halternatives])

theorem distinct_ofMembers (h : ∀ m ∈ members, m.2.Distinct) : (ofMembers members).Distinct := by
  have hproperties : (Json.object ((free members).map fun m => (m.1.name, m.2))).Distinct := by
    refine distinct_object fun e he => ?_
    obtain ⟨m, hm, rfl⟩ := List.mem_map.1 he
    exact h m (List.mem_filter.1 hm).1
  have hgroups : (Json.arr ((groups members).map (groupEntry members))).Distinct := by
    refine distinct_arr fun v hv => ?_
    obtain ⟨name, -, rfl⟩ := List.mem_map.1 hv
    exact distinct_groupEntry h name
  unfold ofMembers
  split
  · exact distinct_object (by simp [hproperties, distinct_strings])
  · exact distinct_object (by simp [hproperties, hgroups, distinct_strings])

end

end Schema

/-! ## Schemas of shapes -/

namespace Shape

/-- What holds of a message if it holds of its members, and of lists and maps if it holds of the
values in them, holds of all shapes. -/
theorem induct {P : Shape → Prop} (scalar : ∀ kind, P (.scalar kind))
    (enum : ∀ names, P (.enum names)) (wellKnown : ∀ w, P (.wellKnown w))
    (back : ∀ t, P (.back t)) (unresolved : P .unresolved)
    (message : ∀ name (ms : List (Head × Shape)), (∀ m ∈ ms, P m.2) → P (.message name ms))
    (list : ∀ item, P item → P (.list item)) (map : ∀ key value, P value → P (.map key value))
    (s : Shape) : P s :=
  @Shape.rec P (fun ms => ∀ m ∈ ms, P m.2) (fun m => P m.2) scalar enum wellKnown back unresolved
    message list map (fun _ hm => nomatch hm)
    (fun _ _ hm hrest => List.forall_mem_cons.2 ⟨hm, hrest⟩) (fun _ _ hs => hs) s

/-- The schema of a shape has no repeated name. -/
theorem distinct_schema (s : Shape) : s.schema.Distinct := by
  induction s using induct with
  | scalar kind => exact Schema.distinct_ofScalar kind
  | enum names => exact Schema.distinct_ofEnum names
  | wellKnown w => exact w.distinct_schema
  | back t => exact distinct_object (by simp)
  | unresolved => exact distinct_object (by simp)
  | message name ms ih =>
    rw [schema_message]
    refine Schema.distinct_ofMembers fun e he => ?_
    obtain ⟨m, hm, rfl⟩ := List.mem_map.1 he
    exact ih m hm
  | list item ih => exact Schema.distinct_ofList ih
  | map key value ih => exact Schema.distinct_ofMap key ih

end Shape

/-- The schema of a message has no repeated name. -/
theorem Builder.distinct_messageSchema (b : Builder) (m : Message) :
    (b.messageSchema m).1.Distinct :=
  Shape.distinct_schema _

end McpCatalog
