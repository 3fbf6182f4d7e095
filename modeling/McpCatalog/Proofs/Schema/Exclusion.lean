import Mathlib.Data.List.Nodup
import Mathlib.Tactic.ByContra
import Mathlib.Tactic.Choose
import McpCatalog.Proofs.Schema.Typing
/-!
# Fields that exclude each other

Of the fields of a group a document may set one at most. The schema of a message asks
for some group of which exactly one field is there with a value of its type, and it
asks nothing of the other fields that belong to groups. So two fields of one group can
be there together: beside a field of another group, or beside each other if one of
them has a value of another type.

Results:
* `accepts_null_iff`: a field that takes `null` is open, and an open field takes every
  value.
* `excludes_iff`: the fields of a group exclude each other except where two of them
  can be mixed, which `Mixes` spells out.
* `not_excludes_pairMessage`: the schema of a message with two groups accepts an object
  with both fields of one of them.
-/
namespace McpCatalog

/-! ## Open fields -/

/-- Every value is right for the field: it holds one message, which is the well-known type for any
value, or is being unfolded already, or is not known. -/
def Field.Open (pool : Pool) (path : List String) (f : Field) : Prop :=
  f.cardinality = .singular ∧ f.kind.isMessage = true ∧ ∀ t, f.typeName = some t →
    WellKnown.ofName? t = some .value ∨
      WellKnown.ofName? t = none ∧ (t ∈ path ∨ pool.message? t = none)

theorem Schema.accepts_wellKnown_null {w : WellKnown} : Accepts w.schema .null ↔ w = .value := by
  constructor
  · intro h
    -- every other schema names the type of its values
    cases w with
    | value => rfl
    | _ =>
      have htype := ((accepts_object (by simp)).1 h).type
      simp [Document.HasType] at htype
  · intro h
    subst h
    exact Schema.accepts_empty

section
variable {pool : Pool} {required : Requirement} {path : List String} {f : Field}

theorem isObject_of_accepts_messageShape {m : Message} {v : Document}
    (h : Accepts (pool.messageShape required path m).schema v) : ∃ ms, v = .obj ms := by
  rw [schema_messageShape, Schema.ofMembers_map_head, accepts_object (by split <;> simp)] at h
  exact Document.hasType_object.1 (h.type "object" (by simp))

theorem Field.Open.accepts (h : f.Open pool path) (v : Document) :
    Accepts (f.shape pool (pool.reference required path)).schema v := by
  obtain ⟨hc, hm, ht⟩ := h
  rw [shape_singular hc]
  cases hn : f.typeName with
  | none =>
    rw [itemShape_untyped hm]
    exact Schema.accepts_empty
  | some t =>
    rw [itemShape_message hm, accepts_reference]
    rcases ht t hn with hw | ⟨hw, hp | hnone⟩
    · refine ⟨fun w hw' => ?_, fun hw' => by simp [hw] at hw'⟩
      obtain rfl := Option.some.inj (hw.symm.trans hw')
      exact Schema.accepts_empty
    · exact ⟨fun w hw' => by simp [hw] at hw', fun _ hp' => absurd hp hp'⟩
    · exact ⟨fun w hw' => by simp [hw] at hw', fun _ _ m hm' => by simp [hnone] at hm'⟩

/-- Null is of no other type that a field can have. -/
theorem accepts_null_iff :
    Accepts (f.shape pool (pool.reference required path)).schema .null ↔ f.Open pool path := by
  refine ⟨fun h => ?_, fun h => h.accepts .null⟩
  cases hc : f.cardinality with
  | map key value =>
    rw [shape_map hc, Shape.schema, Schema.accepts_ofMap] at h
    simp at h
  | list =>
    rw [shape_list hc, Shape.schema, Schema.accepts_ofList] at h
    simp at h
  | singular =>
    rw [shape_singular hc] at h
    by_cases hm : f.kind.isMessage = true
    · refine ⟨hc, hm, fun t ht => ?_⟩
      rw [ht, itemShape_message hm, accepts_reference] at h
      obtain ⟨hknown, hmessage⟩ := h
      cases hw : WellKnown.ofName? t with
      | some w => exact .inl (congrArg some (Schema.accepts_wellKnown_null.1 (hknown w hw)))
      | none =>
        refine .inr ⟨rfl, or_iff_not_imp_left.2 fun hp => Option.eq_none_iff_forall_ne_some.2 ?_⟩
        intro m hm'
        have hobject := isObject_of_accepts_messageShape (hmessage hw hp m hm')
        simp at hobject
    · rw [Bool.not_eq_true] at hm
      by_cases he : f.kind = .enum
      · rw [he, itemShape_enum, Shape.schema, accepts_enum] at h
        simp at h
      · rw [itemShape_scalar hm he, Shape.schema, Schema.accepts_ofScalar] at h
        cases hk : f.kind.jsonType <;> simp [hk, JsonType.name, Document.HasType] at h

end

/-! ## Objects from fields and values -/

/-- The members of an object that gives the fields their values. -/
def Document.membersOf (values : List (Field × Document)) : List (String × Document) :=
  values.map fun x => (x.1.name, x.2)

theorem Message.DistinctNames.eq_of_name {m : Message} (hm : m.DistinctNames) {f f' : Field}
    (hf : f ∈ m.fields) (hf' : f' ∈ m.fields) (h : f.name = f'.name) : f = f' :=
  List.inj_on_of_nodup_map hm hf hf' h

theorem Message.DistinctNames.nodup {m : Message} (hm : m.DistinctNames) : m.fields.Nodup :=
  List.Nodup.of_map _ hm

theorem Message.DistinctNames.groupMembers {m : Message} (hm : m.DistinctNames) (g : String) :
    (groupMembers g m.fields).Nodup :=
  hm.nodup.filter _

theorem mem_membersOf {m : Message} (hm : m.DistinctNames) {values : List (Field × Document)}
    (hvalues : ∀ x ∈ values, x.1 ∈ m.fields) {f : Field} (hf : f ∈ m.fields) {w : Document} :
    (f.name, w) ∈ Document.membersOf values ↔ (f, w) ∈ values := by
  unfold Document.membersOf
  constructor
  · intro h
    obtain ⟨⟨f', w'⟩, hmem, heq⟩ := List.mem_map.1 h
    obtain ⟨hname, rfl⟩ := Prod.mk.inj heq
    obtain rfl := hm.eq_of_name (hvalues _ hmem) hf hname
    exact hmem
  · intro h
    exact List.mem_map.2 ⟨(f, w), h, rfl⟩

theorem nodup_membersOf {m : Message} (hm : m.DistinctNames) {values : List (Field × Document)}
    (hvalues : ∀ x ∈ values, x.1 ∈ m.fields) (hn : (values.map (·.1)).Nodup) :
    ((Document.membersOf values).map (·.1)).Nodup := by
  have hnames : (Document.membersOf values).map (·.1) = (values.map (·.1)).map (·.name) := by
    simp [Document.membersOf, Function.comp_def]
  rw [hnames]
  refine List.Nodup.map_on ?_ hn
  intro f hf f' hf' heq
  obtain ⟨x, hx, rfl⟩ := List.mem_map.1 hf
  obtain ⟨x', hx', rfl⟩ := List.mem_map.1 hf'
  exact hm.eq_of_name (hvalues x hx) (hvalues x' hx') heq

/-! ## Mixed groups -/

namespace Builder
variable (b : Builder) (m : Message)

/-- The schema of a field inside the schema of the message. -/
def memberSchema (f : Field) : Json :=
  (f.shape b.pool (b.pool.reference b.required [m.fullName])).schema

/-- There is a value for the field. -/
def Fillable (f : Field) : Prop :=
  ∃ v, Accepts (b.memberSchema m f) v

/-- An object that the schema of the message accepts has at most one field of the group. -/
def Excludes (g : String) : Prop :=
  ∀ ms : List (String × Document), (ms.map (·.1)).Nodup → Accepts (b.messageSchema m).1 (.obj ms) →
    ∀ f ∈ groupMembers g m.fields, ∀ f' ∈ groupMembers g m.fields,
      Document.Has ms f.name → Document.Has ms f'.name → f = f'

/-- What it takes for an object with two fields of the group. -/
structure Mixes (g : String) : Prop where
  several : ∃ f ∈ groupMembers g m.fields, ∃ f' ∈ groupMembers g m.fields, f ≠ f'
  /-- There are objects with the required fields at all. -/
  required : ∀ f ∈ m.fields, f.declaredOneof = none → b.required f = true → b.Fillable m f
  /-- A field of another group is set, or one of this group beside one with a value of another
  type. -/
  choice : (∃ g' ≠ g, ∃ f ∈ groupMembers g' m.fields, b.Fillable m f) ∨
    ∃ f ∈ groupMembers g m.fields, ∃ f' ∈ groupMembers g m.fields,
      f ≠ f' ∧ b.Fillable m f ∧ ¬ f'.Open b.pool [m.fullName]

variable {b m}

theorem accepts_messageSchema_obj (hm : m.DistinctNames) {ms : List (String × Document)} :
    Accepts (b.messageSchema m).1 (.obj ms) ↔
      FieldsFit b.required (fun f => Accepts (b.memberSchema m f)) m.fields ms := by
  rw [messageSchema, accepts_messageShape hm]
  simp [memberSchema]

/-- Values for the required fields outside of the groups. -/
def requiredValues (b : Builder) (m : Message) (fill : Field → Document) :
    List (Field × Document) :=
  ((freeFields m.fields).filter b.required).map fun f => (f, fill f)

theorem mem_requiredValues {fill : Field → Document} {f : Field} {w : Document} :
    (f, w) ∈ requiredValues b m fill ↔
      (f ∈ m.fields ∧ f.declaredOneof = none) ∧ b.required f = true ∧ fill f = w := by
  simp only [requiredValues, List.mem_map, List.mem_filter, mem_freeFields, Prod.mk.injEq]
  constructor
  · rintro ⟨f', ⟨hf, hreq⟩, rfl, hw⟩
    exact ⟨hf, hreq, hw⟩
  · rintro ⟨hf, hreq, hw⟩
    exact ⟨f, ⟨hf, hreq⟩, rfl, hw⟩

/-- Required fields and fields of groups are not the same. -/
theorem nodup_requiredValues_append (hm : m.DistinctNames) (fill : Field → Document)
    {values : List (Field × Document)}
    (hvalues : ∀ x ∈ values, x.1 ∈ m.fields ∧ x.1.declaredOneof ≠ none)
    (hn : (values.map (·.1)).Nodup) :
    ((requiredValues b m fill ++ values).map (·.1)).Nodup := by
  have hrequired : (requiredValues b m fill).map (·.1)
      = (freeFields m.fields).filter b.required := by
    simp [requiredValues, Function.comp_def]
  rw [List.map_append, hrequired]
  refine List.nodup_append.2 ⟨(hm.nodup.filter _).filter _, hn, ?_⟩
  rintro f hf f' hf' rfl
  obtain ⟨x, hx, rfl⟩ := List.mem_map.1 hf'
  exact (hvalues x hx).2 (mem_freeFields.1 (List.mem_filter.1 hf).1).2

/-- Values for fields of groups make an object that is accepted, if the required fields can be
filled and exactly one field of some group has values that suit. -/
theorem exists_accepted (hm : m.DistinctNames)
    (hrequired : ∀ f ∈ m.fields, f.declaredOneof = none → b.required f = true → b.Fillable m f)
    (values : List (Field × Document))
    (hvalues : ∀ x ∈ values, x.1 ∈ m.fields ∧ x.1.declaredOneof ≠ none)
    (hn : (values.map (·.1)).Nodup) (g : String)
    (hone : ExactlyOne (fun f => (∃ v, (f, v) ∈ values) ∧
      ∀ v, (f, v) ∈ values → Accepts (b.memberSchema m f) v) (groupMembers g m.fields)) :
    ∃ ms : List (String × Document), (ms.map (·.1)).Nodup ∧
      Accepts (b.messageSchema m).1 (.obj ms) ∧ ∀ x ∈ values, Document.Has ms x.1.name := by
  choose! fill hfill using hrequired
  have hall : ∀ x ∈ requiredValues b m fill ++ values, x.1 ∈ m.fields := by
    intro x hx
    rcases List.mem_append.1 hx with hx | hx
    · exact (mem_requiredValues.1 hx).1.1
    · exact (hvalues x hx).1
  have mem_all : ∀ {f w}, f ∈ m.fields →
      ((f.name, w) ∈ Document.membersOf (requiredValues b m fill ++ values)
        ↔ (f, w) ∈ requiredValues b m fill ∨ (f, w) ∈ values) := by
    intro f w hf
    rw [mem_membersOf hm hall hf, List.mem_append]
  refine ⟨Document.membersOf (requiredValues b m fill ++ values),
    nodup_membersOf hm hall (nodup_requiredValues_append hm fill hvalues hn),
    (accepts_messageSchema_obj hm).2 ⟨?_, ?_, ?_⟩, ?_⟩
  · intro f hf hfree w hw
    rcases (mem_all hf).1 hw with hw | hw
    · obtain ⟨-, hreq, rfl⟩ := mem_requiredValues.1 hw
      exact hfill f hf hfree hreq
    · exact absurd hfree (hvalues _ hw).2
  · intro f hf hfree hreq
    exact ⟨fill f, (mem_all hf).2 (.inl (mem_requiredValues.2 ⟨⟨hf, hfree⟩, hreq, rfl⟩))⟩
  · intro _
    -- the fields of groups have the values that they were given and no others
    refine ⟨g, (exactlyOne_congr fun f hf => ?_).1 hone⟩
    obtain ⟨hf, hfg⟩ := mem_groupMembers.1 hf
    have hset : ∀ w, (f, w) ∈ values ↔
        (f.name, w) ∈ Document.membersOf (requiredValues b m fill ++ values) := by
      intro w
      rw [mem_all hf, mem_requiredValues]
      simp [hfg]
    simp only [hset]
    rfl
  · intro x hx
    exact ⟨x.2, List.mem_map.2 ⟨x, List.mem_append_right _ hx, rfl⟩⟩

/-- A field that is set makes an object that is accepted, and other fields of groups are in it as
well, each with `null`: they have to be of other groups or be such that `null` does not suit. -/
theorem exists_accepted_beside (hm : m.DistinctNames)
    (hrequired : ∀ f ∈ m.fields, f.declaredOneof = none → b.required f = true → b.Fillable m f)
    {g : String} {f : Field} (hf : f ∈ groupMembers g m.fields) (hfill : b.Fillable m f)
    (others : List Field) (hothers : ∀ a ∈ others, ∃ g', a ∈ groupMembers g' m.fields)
    (hn : (f :: others).Nodup)
    (hnull : ∀ a ∈ others, a ∈ groupMembers g m.fields → ¬ a.Open b.pool [m.fullName]) :
    ∃ ms : List (String × Document), (ms.map (·.1)).Nodup ∧
      Accepts (b.messageSchema m).1 (.obj ms) ∧ ∀ a ∈ f :: others, Document.Has ms a.name := by
  obtain ⟨v, hv⟩ := hfill
  have mem_values : ∀ {a w}, (a, w) ∈ (f, v) :: others.map (fun a => (a, Document.null)) ↔
      a = f ∧ w = v ∨ a ∈ others ∧ w = .null := by
    intro a w
    simp [eq_comm]
  have hgroup : ∀ {g a}, a ∈ groupMembers g m.fields → a ∈ m.fields ∧ a.declaredOneof ≠ none := by
    intro g a ha
    obtain ⟨ha, hg⟩ := mem_groupMembers.1 ha
    exact ⟨ha, by simp [hg]⟩
  have hfields : ∀ x ∈ (f, v) :: others.map (fun a => (a, Document.null)),
      x.1 ∈ m.fields ∧ x.1.declaredOneof ≠ none := by
    rintro ⟨a, w⟩ hx
    rcases mem_values.1 hx with ⟨rfl, -⟩ | ⟨ha, -⟩
    · exact hgroup hf
    · obtain ⟨g', ha⟩ := hothers a ha
      exact hgroup ha
  have hfirst : f ∉ others := (List.nodup_cons.1 hn).1
  have hone : ExactlyOne (fun a => (∃ w, (a, w) ∈ (f, v) :: others.map (fun a => (a, .null))) ∧
      ∀ w, (a, w) ∈ (f, v) :: others.map (fun a => (a, .null)) → Accepts (b.memberSchema m a) w)
      (groupMembers g m.fields) := by
    refine (exactlyOne_iff (hm.groupMembers g)).2 ⟨f, hf, ⟨⟨v, by simp⟩, fun w hw => ?_⟩, ?_⟩
    · rcases mem_values.1 hw with ⟨-, rfl⟩ | ⟨hmem, -⟩
      · exact hv
      · exact absurd hmem hfirst
    · rintro a ha ⟨⟨w, hw⟩, haccepts⟩
      rcases mem_values.1 hw with ⟨heq, -⟩ | ⟨hmem, -⟩
      · exact heq
      · have hnull' := haccepts .null (mem_values.2 (.inr ⟨hmem, rfl⟩))
        exact absurd (accepts_null_iff.1 hnull') (hnull a hmem ha)
  have hvalues : (((f, v) :: others.map fun a => (a, Document.null)).map (·.1)).Nodup := by
    simpa [Function.comp_def] using hn
  obtain ⟨ms, hnodup, haccepted, hhas⟩ := exists_accepted hm hrequired _ hfields hvalues g hone
  refine ⟨ms, hnodup, haccepted, fun a ha => ?_⟩
  rcases List.mem_cons.1 ha with rfl | ha
  · exact hhas (a, v) (mem_values.2 (.inl ⟨rfl, rfl⟩))
  · exact hhas (a, .null) (mem_values.2 (.inr ⟨ha, rfl⟩))

theorem Mixes.not_excludes (hm : m.DistinctNames) {g : String} (h : b.Mixes m g) :
    ¬ b.Excludes m g := by
  intro hexcludes
  rcases h.choice with ⟨g', hne, f, hf, hfill⟩ | ⟨f, hf, f', hf', hne, hfill, hopen⟩
  · obtain ⟨a, ha, a', ha', haa'⟩ := h.several
    have hdisjoint : ∀ {a}, a ∈ groupMembers g m.fields → a ∉ groupMembers g' m.fields := by
      intro a ha ha'
      have heq := (mem_groupMembers.1 ha).2.symm.trans (mem_groupMembers.1 ha').2
      exact hne (Option.some.inj heq).symm
    have hfa : f ≠ a := fun heq => hdisjoint ha (heq ▸ hf)
    have hfa' : f ≠ a' := fun heq => hdisjoint ha' (heq ▸ hf)
    obtain ⟨ms, hn, haccepted, hhas⟩ := exists_accepted_beside hm h.required hf hfill [a, a']
      (by simpa using ⟨⟨g, ha⟩, ⟨g, ha'⟩⟩) (by simp [hfa, hfa', haa'])
      (by simp [hdisjoint ha, hdisjoint ha'])
    exact haa' (hexcludes ms hn haccepted a ha a' ha' (hhas a (by simp)) (hhas a' (by simp)))
  · obtain ⟨ms, hn, haccepted, hhas⟩ := exists_accepted_beside hm h.required hf hfill [f']
      (by simpa using ⟨g, hf'⟩) (by simp [hne]) (by simpa using fun _ => hopen)
    exact hne (hexcludes ms hn haccepted f hf f' hf' (hhas f (by simp)) (hhas f' (by simp)))

/-- An object with two fields of a group shows how they can be mixed. -/
theorem mixes_of_accepts (hm : m.DistinctNames) {g : String} {ms : List (String × Document)}
    (haccepted : Accepts (b.messageSchema m).1 (.obj ms)) {f f' : Field}
    (hf : f ∈ groupMembers g m.fields) (hf' : f' ∈ groupMembers g m.fields) (hne : f ≠ f')
    (hhas : Document.Has ms f.name) (hhas' : Document.Has ms f'.name) : b.Mixes m g := by
  have hfit := (accepts_messageSchema_obj hm).1 haccepted
  refine ⟨⟨f, hf, f', hf', hne⟩, ?_, ?_⟩
  · intro r hr hfree hreq
    obtain ⟨v, hv⟩ := hfit.required r hr hfree hreq
    exact ⟨v, hfit.free r hr hfree v hv⟩
  · obtain ⟨hmem, hg⟩ := mem_groupMembers.1 hf
    obtain ⟨g', hone⟩ := hfit.choice ⟨f, hmem, by simp [hg]⟩
    obtain ⟨c, hc, ⟨⟨v, hv⟩, hall⟩, hunique⟩ := (exactlyOne_iff (hm.groupMembers g')).1 hone
    have hfill : b.Fillable m c := ⟨v, hall v hv⟩
    by_cases hgg : g' = g
    · subst hgg
      -- one of the two is not the field that was chosen, so it has a value of another type
      have other : ∀ a ∈ groupMembers g' m.fields, a ≠ c → Document.Has ms a.name →
          ¬ a.Open b.pool [m.fullName] := by
        intro a ha hac hhas hopen
        exact hac (hunique a ha ⟨hhas, fun w _ => hopen.accepts w⟩)
      by_cases hfc : f = c
      · subst hfc
        exact .inr ⟨f, hf, f', hf', hne, hfill, other f' hf' (Ne.symm hne) hhas'⟩
      · exact .inr ⟨c, hc, f, hf, Ne.symm hfc, hfill, other f hf hfc hhas⟩
    · exact .inl ⟨g', hgg, c, hc, hfill⟩

/-- **Exclusion.** The fields of a group exclude each other in all objects that the schema of the
message accepts, except where they can be mixed. -/
theorem excludes_iff (b : Builder) (m : Message) (hm : m.DistinctNames) (g : String) :
    b.Excludes m g ↔ ¬ b.Mixes m g := by
  constructor
  · intro hexcludes hmixes
    exact hmixes.not_excludes hm hexcludes
  · intro hmixes ms _ haccepted f hf f' hf' hhas hhas'
    by_contra hne
    exact hmixes (mixes_of_accepts hm haccepted hf hf' hne hhas hhas')

/-- A message with one group of two fields, which may have any value. -/
def eitherMessage : Message :=
  ⟨"test.Either", [(Field.ofMessage "left" "google.protobuf.Value").withOneof ⟨"side", false⟩,
    (Field.ofMessage "right" "google.protobuf.Value").withOneof ⟨"side", false⟩]⟩

/-- Open fields of the only group cannot be mixed. -/
theorem excludes_eitherMessage :
    eitherMessage.DistinctNames ∧
      (Builder.new .empty fun _ => false).Excludes eitherMessage "side" := by
  have hm : eitherMessage.DistinctNames := by
    simp [Message.DistinctNames, eitherMessage, Field.ofMessage, Field.ofKind, Field.withOneof]
  refine ⟨hm, (excludes_iff (.new .empty fun _ => false) eitherMessage hm "side").2 fun h => ?_⟩
  rcases h.choice with ⟨g', hne, f, hf, -⟩ | ⟨-, -, f', hf', -, -, hopen⟩
  · simp [groupMembers, eitherMessage, Field.declaredOneof, Field.withOneof, Ne.symm hne] at hf
  · refine hopen ?_
    have hvalue : WellKnown.ofName? "google.protobuf.Value" = some .value := by decide
    obtain ⟨hf', -⟩ := mem_groupMembers.1 hf'
    simp only [eitherMessage, List.mem_cons, List.not_mem_nil, or_false] at hf'
    rcases hf' with rfl | rfl <;>
      exact ⟨rfl, rfl, fun t ht => .inl (Option.some.inj ht ▸ hvalue)⟩

/-- A message with a group of one field and a group of two. -/
def pairMessage : Message :=
  ⟨"test.Pair", [(Field.ofKind "a1" .string).withOneof ⟨"a", false⟩,
    (Field.ofKind "b1" .string).withOneof ⟨"b", false⟩,
    (Field.ofKind "b2" .string).withOneof ⟨"b", false⟩]⟩

/-- With `a1` the schema accepts `b1` beside `b2`. -/
theorem not_excludes_pairMessage :
    pairMessage.DistinctNames ∧
      Accepts ((Builder.new .empty fun _ => false).messageSchema pairMessage).1
        (.obj [("a1", .str "x"), ("b1", .str "y"), ("b2", .str "z")]) ∧
      ¬ (Builder.new .empty fun _ => false).Excludes pairMessage "b" := by
  have hm : pairMessage.DistinctNames := by
    simp [Message.DistinctNames, pairMessage, Field.ofKind, Field.withOneof]
  have haccepted : Accepts ((Builder.new .empty fun _ => false).messageSchema pairMessage).1
      (.obj [("a1", .str "x"), ("b1", .str "y"), ("b2", .str "z")]) := by
    refine (accepts_messageSchema_obj hm).2 ⟨?_, ?_, fun _ => ⟨"a", ?_⟩⟩
    · simp [pairMessage, Field.declaredOneof, Field.withOneof]
    · simp [pairMessage, Field.declaredOneof, Field.withOneof]
    · refine ⟨[], (Field.ofKind "a1" .string).withOneof ⟨"a", false⟩, [], rfl, ⟨?_, ?_⟩, by simp⟩
      · exact ⟨.str "x", by simp [Field.ofKind, Field.withOneof]⟩
      · intro w hw
        obtain rfl : w = .str "x" := by simpa [Field.ofKind, Field.withOneof] using hw
        rw [memberSchema, shape_singular rfl, Field.withOneof, Field.ofKind,
          itemShape_scalar rfl (by decide), Shape.schema, Schema.accepts_ofScalar]
        rfl
  refine ⟨hm, haccepted, fun hexcludes => ?_⟩
  have heq := hexcludes _ (by simp) haccepted
    ((Field.ofKind "b1" .string).withOneof ⟨"b", false⟩)
    (by simp [groupMembers, pairMessage, Field.declaredOneof, Field.withOneof])
    ((Field.ofKind "b2" .string).withOneof ⟨"b", false⟩)
    (by simp [groupMembers, pairMessage, Field.declaredOneof, Field.withOneof])
    ⟨.str "y", by simp [Field.ofKind, Field.withOneof]⟩
    ⟨.str "z", by simp [Field.ofKind, Field.withOneof]⟩
  simp [Field.ofKind, Field.withOneof] at heq

end Builder
end McpCatalog
