import McpCatalog.Proofs.Schema.Descent
/-!
# Unfolding without a path

What a message unfolds to if every reference to a message of the pool is followed, wherever it
stands. Nothing stops at a circle of references, so there is no schema then. The shape of a message
that was not cut has this schema.

Results:
* `Unfolds.unique`: there is one schema at most.
* `followed`, `unfolds_messageShape`: the schema of a shape without cuts.
-/
namespace McpCatalog

open Descent (Control)

/-! ## The schema -/

/-- The schema of a message, of a field, of one value or of a reference, where every reference to a
message of the pool is followed. There is none if that does not come to an end. -/
inductive Unfolds (pool : Pool) (required : Requirement) : Control → Json → Prop
  | message {m : Message} {schema : Field → Json}
    (h : ∀ f ∈ m.fields, Unfolds pool required (.field f) (schema f)) :
    Unfolds pool required (.message m)
      (Schema.ofMembers (m.fields.map fun f => (f.head required, schema f)))
  | map {f value : Field} {key : FieldKind} {s : Json} (hc : f.cardinality = .map key value)
    (h : Unfolds pool required (.field value) s) :
    Unfolds pool required (.field f) (Schema.ofMap key s)
  | list {f : Field} {s : Json} (hc : f.cardinality = .list)
    (h : Unfolds pool required (.item f.kind f.typeName) s) :
    Unfolds pool required (.field f) (Schema.ofList s)
  | singular {f : Field} {s : Json} (hc : f.cardinality = .singular)
    (h : Unfolds pool required (.item f.kind f.typeName) s) : Unfolds pool required (.field f) s
  | scalar {kind : FieldKind} {typeName : Option String} (hm : kind.isMessage = false)
    (he : kind ≠ .enum) : Unfolds pool required (.item kind typeName) (Schema.ofScalar kind)
  | enum {typeName : Option String} : Unfolds pool required (.item .enum typeName)
      (Schema.ofEnum ((typeName.bind pool.enum?).map (·.values)))
  | untyped {kind : FieldKind} (hm : kind.isMessage = true) :
    Unfolds pool required (.item kind none) (.object [])
  | typed {kind : FieldKind} {t : String} {s : Json} (hm : kind.isMessage = true)
    (h : Unfolds pool required (.reference t) s) : Unfolds pool required (.item kind (some t)) s
  | wellKnown {t : String} {w : WellKnown} (hw : WellKnown.ofName? t = some w) :
    Unfolds pool required (.reference t) w.schema
  | unknown {t : String} (hw : WellKnown.ofName? t = none) (hm : pool.message? t = none) :
    Unfolds pool required (.reference t) (.object [])
  | known {t : String} {m : Message} {s : Json} (hw : WellKnown.ofName? t = none)
    (hm : pool.message? t = some m) (h : Unfolds pool required (.message m) s) :
    Unfolds pool required (.reference t) s

section
variable {pool : Pool} {required : Requirement}

/-- There is one schema at most. -/
theorem Unfolds.unique {control : Control} {s s' : Json} (h : Unfolds pool required control s)
    (h' : Unfolds pool required control s') : s = s' := by
  induction h generalizing s' with
  | @message m schema h ih =>
    cases h' with
    | @message _ schema' h' =>
      have hschemas : (m.fields.map fun f => (f.head required, schema f))
          = m.fields.map fun f => (f.head required, schema' f) :=
        List.map_congr_left fun f hf => by rw [ih f hf (h' f hf)]
      rw [hschemas]
  | map hc h ih =>
    cases h' with
    | map hc' h' =>
      obtain ⟨rfl, rfl⟩ := Cardinality.map.inj (hc.symm.trans hc')
      rw [ih h']
    | list hc' => cases hc.symm.trans hc'
    | singular hc' => cases hc.symm.trans hc'
  | list hc h ih =>
    cases h' with
    | map hc' => cases hc.symm.trans hc'
    | list _ h' => rw [ih h']
    | singular hc' => cases hc.symm.trans hc'
  | singular hc h ih =>
    cases h' with
    | map hc' => cases hc.symm.trans hc'
    | list hc' => cases hc.symm.trans hc'
    | singular _ h' => exact ih h'
  | scalar hm he =>
    cases h' with
    | scalar => rfl
    | enum => exact absurd rfl he
    | untyped hm' => cases hm.symm.trans hm'
    | typed hm' => cases hm.symm.trans hm'
  | enum =>
    cases h' with
    | scalar _ he => exact absurd rfl he
    | enum => rfl
    | untyped hm => cases hm
    | typed hm => cases hm
  | untyped hm =>
    cases h' with
    | scalar hm' => cases hm.symm.trans hm'
    | enum => cases hm
    | untyped => rfl
  | typed hm h ih =>
    cases h' with
    | scalar hm' => cases hm.symm.trans hm'
    | enum => cases hm
    | typed _ h' => exact ih h'
  | wellKnown hw =>
    cases h' with
    | wellKnown hw' => rw [Option.some.inj (hw.symm.trans hw')]
    | unknown hw' => cases hw.symm.trans hw'
    | known hw' => cases hw.symm.trans hw'
  | unknown hw hm =>
    cases h' with
    | wellKnown hw' => cases hw.symm.trans hw'
    | unknown => rfl
    | known _ hm' => cases hm.symm.trans hm'
  | known hw hm h ih =>
    cases h' with
    | wellKnown hw' => cases hw.symm.trans hw'
    | unknown _ hm' => cases hm.symm.trans hm'
    | known _ hm' h' =>
      obtain rfl := Option.some.inj (hm.symm.trans hm')
      exact ih h'

/-! ## Shapes without cuts -/

/-- References from the path are followed, unless they are cut. -/
def Followed (pool : Pool) (required : Requirement) (path : List String) : Prop :=
  ∀ t, (pool.reference required path t).cuts = [] →
    Unfolds pool required (.reference t) (pool.reference required path t).schema

theorem unfolds_item {path : List String} (href : Followed pool required path) {kind : FieldKind}
    {typeName : Option String}
    (hcuts : (Field.itemShape pool (pool.reference required path) kind typeName).cuts = []) :
    Unfolds pool required (.item kind typeName)
      (Field.itemShape pool (pool.reference required path) kind typeName).schema := by
  by_cases hm : kind.isMessage = true
  · cases typeName with
    | none =>
      rw [itemShape_untyped hm]
      exact .untyped hm
    | some t =>
      rw [itemShape_message hm] at hcuts ⊢
      exact .typed hm (href t hcuts)
  · rw [Bool.not_eq_true] at hm
    by_cases he : kind = .enum
    · subst he
      rw [itemShape_enum]
      exact .enum
    · rw [itemShape_scalar hm he]
      exact .scalar hm he

theorem unfolds_field {path : List String} (href : Followed pool required path) (f : Field)
    (hcuts : (f.shape pool (pool.reference required path)).cuts = []) :
    Unfolds pool required (.field f) (f.shape pool (pool.reference required path)).schema := by
  induction f using Field.values_induction with
  | map f key value hc ih =>
    rw [shape_map hc] at hcuts ⊢
    exact .map hc (ih hcuts)
  | list f hc =>
    rw [shape_list hc, shape_singular rfl] at hcuts ⊢
    exact .list hc (unfolds_item href hcuts)
  | singular f hc =>
    rw [shape_singular hc] at hcuts ⊢
    exact .singular hc (unfolds_item href hcuts)

theorem unfolds_messageShape {path : List String} {m : Message}
    (href : Followed pool required (m.fullName :: path))
    (hcuts : (pool.messageShape required path m).cuts = []) :
    Unfolds pool required (.message m) (pool.messageShape required path m).schema := by
  rw [cuts_messageShape, List.flatMap_eq_nil_iff] at hcuts
  rw [schema_messageShape]
  exact .message fun f hf => unfolds_field href f (hcuts f hf)

theorem followed (pool : Pool) (required : Requirement) (path : List String) :
    Followed pool required path := by
  induction hu : pool.messages.unvisited path using Nat.strongRecOn generalizing path with
  | ind u ih =>
    subst hu
    intro t hcuts
    rw [Pool.reference_eq] at hcuts ⊢
    cases hw : WellKnown.ofName? t with
    | some w => exact .wellKnown hw
    | none =>
      rw [hw] at hcuts
      by_cases hp : t ∈ path
      · simp [hp, Shape.cuts] at hcuts
      · simp only [hp, if_false] at hcuts ⊢
        cases hm : pool.message? t with
        | none => exact .unknown hw hm
        | some m =>
          rw [hm] at hcuts
          have href : Followed pool required (m.fullName :: path) := by
            rw [Pool.fullName_of_message? hm]
            exact ih _ (Dict.unvisited_cons_lt hm hp) (t :: path) rfl
          exact .known hw hm (unfolds_messageShape href hcuts)

end
end McpCatalog
