import McpCatalog.Proofs.Schema.Locality
/-!
# Groups that were made up

A group that was made up for one optional field is not a group of alternatives. Two pools that
differ in such groups only give every message the same shape.

Results:
* `Field.shape_bare`, `Field.head_bare`: a field without such a group looks the same.
* `Pool.Alike.reference_eq`, `Pool.Alike.messageShape_eq`: shapes from two pools.
-/
namespace McpCatalog

/-! ## Fields -/

namespace Field

/-- The group of the field, unless it was made up. -/
def realOneof (f : Field) : Option Oneof :=
  f.oneof.filter (!·.synthetic)

/-- The field without a group that was made up, and the values of a map likewise. -/
def bare : Field → Field
  | ⟨name, fullName, kind, .map key value, typeName, oneof⟩ =>
    ⟨name, fullName, kind, .map key value.bare, typeName, oneof.filter (!·.synthetic)⟩
  | f => { f with oneof := f.realOneof }

variable {f : Field}

theorem bare_map {key : FieldKind} {value : Field} (hc : f.cardinality = .map key value) :
    f.bare = { f with cardinality := .map key value.bare, oneof := f.realOneof } := by
  cases f
  obtain rfl := hc
  rw [bare]
  rfl

theorem bare_item (hc : ∀ key value, f.cardinality ≠ .map key value) :
    f.bare = { f with oneof := f.realOneof } := by
  obtain ⟨_, _, _, cardinality, _, _⟩ := f
  cases cardinality with
  | map key value => exact absurd rfl (hc key value)
  | _ => rw [bare]; simp

theorem bare_eq (f : Field) :
    ∃ cardinality, f.bare = { f with cardinality, oneof := f.realOneof } := by
  cases hc : f.cardinality with
  | map key value => exact ⟨_, bare_map hc⟩
  | _ => exact ⟨_, bare_item (by simp [hc])⟩

theorem declaredOneof_realOneof (f : Field) :
    { f with oneof := f.realOneof }.declaredOneof = f.declaredOneof := by
  unfold realOneof declaredOneof
  cases f.oneof with
  | none => rfl
  | some o => cases ho : o.synthetic <;> simp [Option.filter, ho]

theorem head_bare (names : NameSet) (f : Field) :
    f.bare.head (.ofNames names) = f.head (.ofNames names) := by
  obtain ⟨_, h⟩ := f.bare_eq
  rw [h]
  exact congrArg (Head.mk f.name (names.contains f.fullName)) f.declaredOneof_realOneof

theorem shape_bare (pool : Pool) (reference : String → Shape) (f : Field) :
    f.bare.shape pool reference = f.shape pool reference := by
  induction f using values_induction with
  | map f key value hc ih =>
    rw [bare_map hc, shape_map rfl, shape_map hc, ih]
  | list f hc =>
    have hbare := bare_item (f := f) (by simp [hc])
    have hc' : f.bare.cardinality = .list := by rw [hbare, hc]
    rw [shape_list hc', shape_list hc, shape_singular rfl, shape_singular rfl, hbare]
    rfl
  | singular f hc =>
    have hbare := bare_item (f := f) (by simp [hc])
    have hc' : f.bare.cardinality = .singular := by rw [hbare, hc]
    rw [shape_singular hc', shape_singular hc, hbare]

end Field

/-! ## Messages -/

/-- The message without groups that were made up. -/
def Message.bare (m : Message) : Message :=
  { m with fields := m.fields.map Field.bare }

theorem members_congr {pool pool' : Pool} (henums : pool.enum? = pool'.enum?) (names : NameSet)
    (reference : String → Shape) {m m' : Message} (hm : m.bare = m'.bare) :
    (m.fields.map fun f => (f.head (.ofNames names), f.shape pool reference))
      = m'.fields.map fun f => (f.head (.ofNames names), f.shape pool' reference) := by
  have hbare (m : Message) (pool : Pool) :
      (m.fields.map fun f => (f.head (.ofNames names), f.shape pool reference))
        = m.bare.fields.map fun f => (f.head (.ofNames names), f.shape pool reference) := by
    simp [Message.bare, Field.head_bare, Field.shape_bare]
  rw [hbare m, hbare m', hm]
  refine List.map_congr_left fun f _ => congrArg (Prod.mk _) ?_
  exact f.shape_congr_leaf (fun _ _ _ => rfl) fun _ t _ => congrFun henums t

/-! ## Pools -/

/-- The pools have the same types, apart from groups that were made up. -/
structure Pool.Alike (pool pool' : Pool) : Prop where
  messages : ∀ n, (pool.message? n).map Message.bare = (pool'.message? n).map Message.bare
  enums : pool.enum? = pool'.enum?

namespace Pool.Alike

variable {pool pool' : Pool}

theorem messageShape_of_reference (h : pool.Alike pool') {names : NameSet} {path : List String}
    {m m' : Message} (hm : m.bare = m'.bare)
    (hreference : pool.reference (.ofNames names) (m.fullName :: path)
      = pool'.reference (.ofNames names) (m.fullName :: path)) :
    pool.messageShape (.ofNames names) path m = pool'.messageShape (.ofNames names) path m' := by
  have hname : m'.fullName = m.fullName := (congrArg (·.fullName) hm.symm :)
  rw [messageShape, messageShape, hname, hreference, members_congr h.enums names _ hm]

theorem reference_eq (h : pool.Alike pool') (names : NameSet) (path : List String) :
    pool.reference (.ofNames names) path = pool'.reference (.ofNames names) path := by
  funext t
  induction hu : pool.messages.unvisited path using Nat.strongRecOn generalizing path t with
  | ind u ih =>
    subst hu
    rw [Pool.reference_eq, Pool.reference_eq]
    cases WellKnown.ofName? t with
    | some w => rfl
    | none =>
      by_cases hp : t ∈ path
      · simp only [hp, if_true]
      · simp only [hp, if_false]
        have hmessage := h.messages t
        cases hm : pool.message? t with
        | none =>
          rw [hm] at hmessage
          rw [Option.map_eq_none_iff.1 hmessage.symm]
        | some m =>
          rw [hm] at hmessage
          obtain ⟨m', hm', hbare⟩ := Option.map_eq_some_iff.1 hmessage.symm
          rw [hm']
          refine h.messageShape_of_reference hbare.symm (funext fun t' => ?_)
          rw [fullName_of_message? hm]
          exact ih _ (Dict.unvisited_cons_lt hm hp) _ t' rfl

theorem messageShape_eq (h : pool.Alike pool') (names : NameSet) (path : List String)
    {m m' : Message} (hm : m.bare = m'.bare) :
    pool.messageShape (.ofNames names) path m = pool'.messageShape (.ofNames names) path m' :=
  h.messageShape_of_reference hm (h.reference_eq names _)

end Pool.Alike
end McpCatalog
