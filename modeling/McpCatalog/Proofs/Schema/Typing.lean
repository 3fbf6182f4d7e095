import McpCatalog.Proofs.Schema.Unfolding
import McpCatalog.Proofs.Schema.Validation
/-!
# Well-typed documents

What a document for a message looks like, said in terms of the message and its pool
alone, and that the schema of the message accepts these documents.

A value is typed for a field at a place of the unfolding, which is given by the names
of the messages around it. Where a field refers to one of these messages, or to one
that the pool does not hold, every value is typed.

`WellTyped` asks that every value in the document is typed. A schema does not ask
quite as much: it looks at the fields of a group only to find a group of which one
field is there with a value of its type. `Conforms` says what it asks exactly.

Results:
* `accepts_shape`: the schema of a field accepts the values that conform.
* `accepts_messageSchema`: the schema of a message accepts every well-typed document,
  and it accepts exactly the documents that conform.
-/
namespace McpCatalog

/-! ## Scalars and keys -/

namespace FieldKind

/-- The JSON values of a field that names no other type. -/
def Typed : FieldKind → Document → Prop
  | .bool, .bool _ => True
  | .int32, .num q | .sint32, .num q | .sfixed32, .num q | .uint32, .num q | .fixed32, .num q =>
    q.den = 1
  | .float, .num _ | .double, .num _ => True
  | .int64, .str _ | .sint64, .str _ | .sfixed64, .str _ => True
  | .uint64, .str _ | .fixed64, .str _ => True
  | .string, .str _ | .bytes, .str _ | .unknown _, .str _ => True
  | _, _ => False

/-- The texts that stand for the keys of a map. -/
def KeyTyped : FieldKind → String → Prop
  | .bool, k => k = "true" ∨ k = "false"
  | .uint32, k | .fixed32, k | .uint64, k | .fixed64, k => ∃ n : Nat, k = Numeral.decimal n
  | .int32, k | .sint32, k | .sfixed32, k | .int64, k | .sint64, k | .sfixed64, k =>
    ∃ i : Int, k = Numeral.decimal i
  | _, _ => True

/-- The texts that a schema takes for keys: those of keys, and zero with a minus sign. -/
def KeyConforms (key : FieldKind) (k : String) : Prop :=
  key.KeyTyped k ∨ key.isSigned = true ∧ k = "-0"

theorem typed_iff {kind : FieldKind} (hm : kind.isMessage = false) (he : kind ≠ .enum)
    {v : Document} : kind.Typed v ↔ v.HasType kind.jsonType.name := by
  cases kind <;> simp [isMessage] at hm he <;> cases v <;>
    simp [Typed, Document.HasType, jsonType, JsonType.name]

end FieldKind

theorem natural_text_iff {k : String} :
    (∃ n, k.toList = Numeral.numeral 10 n) ↔ ∃ n : Nat, k = Numeral.decimal n := by
  refine exists_congr fun n => ?_
  rw [← Numeral.toList_decimal, String.toList_inj]

theorem signed_text_iff {k : String} :
    (∃ n, k.toList = Numeral.numeral 10 n ∨ k.toList = '-' :: Numeral.numeral 10 n)
      ↔ (∃ i : Int, k = Numeral.decimal i) ∨ k = "-0" := by
  have zero : Numeral.numeral 10 0 = ['0'] := Numeral.numeral_of_lt (by decide)
  constructor
  · rintro ⟨n, h | h⟩
    · obtain ⟨n, hk⟩ := natural_text_iff.1 ⟨n, h⟩
      exact .inl ⟨n, hk⟩
    · cases n with
      | zero => exact .inr (String.toList_inj.1 (by simpa [zero] using h))
      | succ n =>
        refine .inl ⟨.negSucc n, String.toList_inj.1 ?_⟩
        rw [h, Numeral.decimal, String.toList_ofList]
  · rintro (⟨i, rfl⟩ | rfl)
    · cases i with
      | ofNat n => exact ⟨n, .inl (Numeral.toList_decimal n)⟩
      | negSucc n => exact ⟨n + 1, .inr (by rw [Numeral.decimal, String.toList_ofList])⟩
    · exact ⟨0, .inr (by rw [zero]; rfl)⟩

namespace Schema

theorem accepts_keyConstraint {key : FieldKind} {k : String} :
    Accepts (keyConstraint key) (.str k) ↔ key.KeyConforms k := by
  have plain : Accepts (.object [("type", .str "string")]) (.str k) :=
    accepts_type.2 (by simp [Document.HasType])
  have unsigned : Accepts (.object [("type", .str "string"), ("pattern", .str unsignedKeyPattern)])
      (.str k) ↔ ∃ n : Nat, k = Numeral.decimal n := by
    rw [accepts_pattern, ← natural_text_iff, ← Regex.matches_unsignedKeyPattern]
    simp
  have signed : Accepts (.object [("type", .str "string"), ("pattern", .str signedKeyPattern)])
      (.str k) ↔ (∃ i : Int, k = Numeral.decimal i) ∨ k = "-0" := by
    rw [accepts_pattern, ← signed_text_iff, ← Regex.matches_signedKeyPattern]
    simp
  have truth : Accepts (.object [("type", .str "string"), ("enum", .strings ["true", "false"])])
      (.str k) ↔ k = "true" ∨ k = "false" := by
    rw [accepts_strings]
    simp
  cases key <;>
    simp [keyConstraint, FieldKind.KeyConforms, FieldKind.KeyTyped, FieldKind.isSigned,
      FieldKind.isUnsigned, plain, unsigned, signed, truth]

end Schema

/-! ## Typed values -/

/-- The required fields of an object are there, and if there are groups, then exactly one field
of some group is. -/
structure FieldsPresent (required : Requirement) (fields : List Field)
    (ms : List (String × Document)) : Prop where
  required : ∀ f ∈ fields, f.declaredOneof = none → required f = true → Document.Has ms f.name
  choice : (∃ f ∈ fields, f.declaredOneof ≠ none) →
    ∃ g, ExactlyOne (fun f => Document.Has ms f.name) (groupMembers g fields)

/-- The value is typed for a field of a message whose place has the given path. -/
inductive WellTyped (pool : Pool) (required : Requirement) :
    List String → Field → Document → Prop
  | scalar {path f v} (hc : f.cardinality = .singular) (h : f.kind.Typed v) :
    WellTyped pool required path f v
  /-- One of the names of an enumeration that the pool holds. -/
  | enum {path f t e n} (hc : f.cardinality = .singular) (hk : f.kind = .enum)
    (ht : f.typeName = some t) (he : pool.enum? t = some e) (hn : n ∈ e.values) :
    WellTyped pool required path f (.str n)
  /-- Any string for an enumeration that is not known. -/
  | openEnum {path f s} (hc : f.cardinality = .singular) (hk : f.kind = .enum)
    (he : ∀ t, f.typeName = some t → pool.enum? t = none) :
    WellTyped pool required path f (.str s)
  | list {path f vs} (hc : f.cardinality = .list)
    (h : ∀ v ∈ vs, WellTyped pool required path f.item v) :
    WellTyped pool required path f (.arr vs)
  | map {path f key value ms} (hc : f.cardinality = .map key value)
    (hk : ∀ k v, (k, v) ∈ ms → key.KeyTyped k)
    (h : ∀ k v, (k, v) ∈ ms → WellTyped pool required path value v) :
    WellTyped pool required path f (.obj ms)
  | wellKnown {path f t w v} (hc : f.cardinality = .singular) (hk : f.kind.isMessage = true)
    (ht : f.typeName = some t) (hw : WellKnown.ofName? t = some w) (h : Accepts w.schema v) :
    WellTyped pool required path f v
  /-- Anything for a message that is being unfolded already. -/
  | back {path f t v} (hc : f.cardinality = .singular) (hk : f.kind.isMessage = true)
    (ht : f.typeName = some t) (hw : WellKnown.ofName? t = none) (hp : t ∈ path) :
    WellTyped pool required path f v
  /-- Anything for a message that is not known. -/
  | unresolved {path f v} (hc : f.cardinality = .singular) (hk : f.kind.isMessage = true)
    (h : ∀ t, f.typeName = some t → WellKnown.ofName? t = none ∧ pool.message? t = none) :
    WellTyped pool required path f v
  | message {path f t m ms} (hc : f.cardinality = .singular) (hk : f.kind.isMessage = true)
    (ht : f.typeName = some t) (hw : WellKnown.ofName? t = none) (hp : t ∉ path)
    (hm : pool.message? t = some m) (hpresent : FieldsPresent required m.fields ms)
    (h : ∀ f' ∈ m.fields, ∀ v, (f'.name, v) ∈ ms → WellTyped pool required (t :: path) f' v) :
    WellTyped pool required path f (.obj ms)

/-- The document is an object of which every field that is there has typed values. -/
def Message.Types (pool : Pool) (required : Requirement) (m : Message) (v : Document) : Prop :=
  ∃ ms, v = .obj ms ∧ FieldsPresent required m.fields ms ∧
    ∀ f ∈ m.fields, ∀ w, (f.name, w) ∈ ms → WellTyped pool required [m.fullName] f w

/-! ## What a schema asks of a value -/

theorem Document.sizeOf_lt_obj {ms : List (String × Document)} {k : String} {w : Document}
    (h : (k, w) ∈ ms) : sizeOf w < sizeOf (Document.obj ms) := by
  have := List.sizeOf_lt_of_mem h
  simp at this ⊢
  omega

theorem Document.sizeOf_lt_arr {vs : List Document} {w : Document} (h : w ∈ vs) :
    sizeOf w < sizeOf (Document.arr vs) := by
  have := List.sizeOf_lt_of_mem h
  simp
  omega

/-- The value is as the schema of the field asks, for a field of a message whose place has the
given path. -/
def Conforms (pool : Pool) (required : Requirement) (path : List String) (f : Field)
    (v : Document) : Prop :=
  match f.cardinality with
  | .map key value => ∃ ms, ∃ _ : v = .obj ms, ∀ k w, (_ : (k, w) ∈ ms) →
    key.KeyConforms k ∧ Conforms pool required path value w
  | .list => ∃ vs, ∃ _ : v = .arr vs, ∀ w, (_ : w ∈ vs) → Conforms pool required path f.item w
  | .singular =>
    if f.kind.isMessage then
      ∀ t, f.typeName = some t →
        match WellKnown.ofName? t with
        | some w => Accepts w.schema v
        | none => t ∉ path → ∀ m, pool.message? t = some m →
          ∃ ms, v = .obj ms ∧ FieldsFit required
            (fun f' w => ∃ _ : sizeOf w < sizeOf v, Conforms pool required (t :: path) f' w)
            m.fields ms
    else if f.kind = .enum then
      ∃ s, v = .str s ∧ ∀ t e, f.typeName = some t → pool.enum? t = some e → s ∈ e.values
    else f.kind.Typed v
termination_by sizeOf v
decreasing_by
  · subst v
    exact Document.sizeOf_lt_obj (by assumption)
  · subst v
    exact Document.sizeOf_lt_arr (by assumption)
  · assumption

/-- The document is an object of which the members are as the schema of the message asks. -/
def Message.Admits (pool : Pool) (required : Requirement) (m : Message) (v : Document) : Prop :=
  ∃ ms, v = .obj ms ∧ FieldsFit required (Conforms pool required [m.fullName]) m.fields ms

section
variable {pool : Pool} {required : Requirement} {path : List String} {f : Field} {v : Document}

theorem conforms_map {key : FieldKind} {value : Field} (hc : f.cardinality = .map key value) :
    Conforms pool required path f v ↔ ∃ ms, v = .obj ms ∧
      ∀ k w, (k, w) ∈ ms → key.KeyConforms k ∧ Conforms pool required path value w := by
  rw [Conforms, hc]
  simp only [exists_prop]

theorem conforms_list (hc : f.cardinality = .list) :
    Conforms pool required path f v ↔
      ∃ vs, v = .arr vs ∧ ∀ w ∈ vs, Conforms pool required path f.item w := by
  rw [Conforms, hc]
  simp only [exists_prop]

theorem conforms_scalar (hc : f.cardinality = .singular) (hm : f.kind.isMessage = false)
    (he : f.kind ≠ .enum) : Conforms pool required path f v ↔ f.kind.Typed v := by
  rw [Conforms, hc]
  simp [hm, he]

theorem conforms_enum (hc : f.cardinality = .singular) (he : f.kind = .enum) :
    Conforms pool required path f v ↔
      ∃ s, v = .str s ∧ ∀ t e, f.typeName = some t → pool.enum? t = some e → s ∈ e.values := by
  rw [Conforms, hc]
  simp [he, FieldKind.isMessage]

theorem conforms_message (hc : f.cardinality = .singular) (hm : f.kind.isMessage = true) :
    Conforms pool required path f v ↔ ∀ t, f.typeName = some t →
      (∀ w, WellKnown.ofName? t = some w → Accepts w.schema v) ∧
      (WellKnown.ofName? t = none → t ∉ path → ∀ m, pool.message? t = some m →
        ∃ ms, v = .obj ms ∧
          FieldsFit required (Conforms pool required (t :: path)) m.fields ms) := by
  rw [Conforms, hc]
  simp only [hm, if_true]
  refine forall_congr' fun t => imp_congr_right fun _ => ?_
  cases WellKnown.ofName? t with
  | some w => simp
  | none =>
    simp only [reduceCtorEq, false_imp_iff, implies_true, true_and, forall_const]
    refine imp_congr_right fun _ => forall_congr' fun m => imp_congr_right fun _ => ?_
    refine exists_congr fun ms => and_congr_right fun hv => FieldsFit.congr fun f' _ w hw => ?_
    exact ⟨fun ⟨_, h⟩ => h, fun h => ⟨hv ▸ Document.sizeOf_lt_obj hw, h⟩⟩

end

/-! ## The schemas of fields and messages -/

/-- No two fields of the message have the same name. -/
def Message.DistinctNames (m : Message) : Prop :=
  (m.fields.map (·.name)).Nodup

theorem Message.DistinctNames.free {m : Message} (h : m.DistinctNames) :
    ((freeFields m.fields).map (·.name)).Nodup :=
  h.sublist (List.filter_sublist.map _)

section
variable {pool : Pool} {required : Requirement}

theorem accepts_messageShape {m : Message} (hm : m.DistinctNames) {path : List String}
    {v : Document} :
    Accepts (pool.messageShape required path m).schema v ↔ ∃ ms, v = .obj ms ∧
      FieldsFit required
        (fun f => Accepts (f.shape pool (pool.reference required (m.fullName :: path))).schema)
        m.fields ms := by
  rw [schema_messageShape, Schema.accepts_ofMembers hm.free]

/-- An enumeration asks for one of its names; one that is not known asks for a string. -/
theorem accepts_enum {typeName : Option String} {v : Document} :
    Accepts (Schema.ofEnum ((typeName.bind pool.enum?).map (·.values))) v ↔
      ∃ s, v = .str s ∧ ∀ t e, typeName = some t → pool.enum? t = some e → s ∈ e.values := by
  cases he : typeName.bind pool.enum? with
  | none =>
    rw [Option.map_none, Schema.accepts_ofEnum_none]
    refine exists_congr fun s => ?_
    rw [iff_self_and]
    rintro - t e rfl ht
    simp [ht] at he
  | some e =>
    obtain ⟨t, rfl, ht⟩ := Option.bind_eq_some_iff.1 he
    rw [Option.map_some, Schema.accepts_ofEnum_some]
    constructor
    · rintro ⟨n, hn, rfl⟩
      refine ⟨n, rfl, fun t' e' ht' he' => ?_⟩
      obtain rfl := Option.some.inj ht'
      obtain rfl := Option.some.inj (ht.symm.trans he')
      exact hn
    · rintro ⟨s, rfl, h⟩
      exact ⟨s, h t e rfl ht, rfl⟩

/-- A reference asks for something only if it is to a well-known type or to a message of the pool
that is not being unfolded. -/
theorem accepts_reference {path : List String} {t : String} {v : Document} :
    Accepts (pool.reference required path t).schema v ↔
      (∀ w, WellKnown.ofName? t = some w → Accepts w.schema v) ∧
      (WellKnown.ofName? t = none → t ∉ path → ∀ m, pool.message? t = some m →
        Accepts (pool.messageShape required path m).schema v) := by
  rw [Pool.reference_eq]
  cases hw : WellKnown.ofName? t with
  | some w => simp [Shape.schema]
  | none =>
    by_cases hp : t ∈ path
    · simp [hp, Shape.schema, Schema.accepts_comment]
    · cases hm : pool.message? t <;> simp [hp, Shape.schema, Schema.accepts_empty]

/-- The schema of a field accepts exactly the values that conform. -/
theorem accepts_shape (hpool : ∀ n m, pool.message? n = some m → m.DistinctNames)
    (path : List String) (f : Field) (v : Document) :
    Accepts (f.shape pool (pool.reference required path)).schema v
      ↔ Conforms pool required path f v := by
  -- the values inside of `v` are smaller, however the messages refer to each other
  induction hsize : sizeOf v using Nat.strongRecOn generalizing path f v with
  | ind n ih =>
    subst hsize
    cases hc : f.cardinality with
    | map key value =>
      rw [shape_map hc, Shape.schema, Schema.accepts_ofMap, conforms_map hc]
      refine exists_congr fun ms => and_congr_right fun hv => ?_
      subst hv
      refine forall_congr' fun k => forall_congr' fun w => imp_congr_right fun hw => ?_
      rw [Schema.accepts_keyConstraint, ih _ (Document.sizeOf_lt_obj hw) path value w rfl]
    | list =>
      rw [shape_list hc, Shape.schema, Schema.accepts_ofList, conforms_list hc]
      refine exists_congr fun vs => and_congr_right fun hv => ?_
      subst hv
      refine forall_congr' fun w => imp_congr_right fun hw => ?_
      exact ih _ (Document.sizeOf_lt_arr hw) path f.item w rfl
    | singular =>
      rw [shape_singular hc]
      by_cases hm : f.kind.isMessage = true
      · rw [conforms_message hc hm]
        cases f.typeName with
        | none => simpa [itemShape_untyped hm, Shape.schema] using Schema.accepts_empty
        | some t =>
          simp only [Option.some.injEq, forall_eq', itemShape_message hm, accepts_reference]
          refine and_congr_right fun _ => imp_congr_right fun _ => imp_congr_right fun _ =>
            forall_congr' fun m => imp_congr_right fun hmt => ?_
          rw [accepts_messageShape (hpool t m hmt), Pool.fullName_of_message? hmt]
          refine exists_congr fun ms => and_congr_right fun hv => ?_
          refine FieldsFit.congr fun f' _ w hw => ?_
          exact ih _ (hv ▸ Document.sizeOf_lt_obj hw) (t :: path) f' w rfl
      · rw [Bool.not_eq_true] at hm
        by_cases he : f.kind = .enum
        · rw [conforms_enum hc he, he, itemShape_enum, Shape.schema, accepts_enum]
        · rw [conforms_scalar hc hm he, itemShape_scalar hm he, FieldKind.typed_iff hm he,
            Shape.schema, Schema.accepts_ofScalar]

/-- The schema of a message accepts exactly the documents that it admits. -/
theorem accepts_messageSchema_iff (b : Builder) {m : Message} (hm : m.DistinctNames)
    (hpool : ∀ n m', b.pool.message? n = some m' → m'.DistinctNames) {v : Document} :
    Accepts (b.messageSchema m).1 v ↔ m.Admits b.pool b.required v := by
  rw [Builder.messageSchema, accepts_messageShape hm]
  refine exists_congr fun ms => and_congr_right fun _ => FieldsFit.congr fun f _ w _ => ?_
  exact accepts_shape hpool [m.fullName] f w

end

/-! ## Well-typed documents are accepted -/

/-- Where every value that is there suits its field, a group of which one field is there is a
group of which one field is there with a value that suits. -/
theorem FieldsPresent.fieldsFit {required : Requirement} {fields : List Field}
    {fits : Field → Document → Prop} {ms : List (String × Document)}
    (h : FieldsPresent required fields ms)
    (hfits : ∀ f ∈ fields, ∀ w, (f.name, w) ∈ ms → fits f w) :
    FieldsFit required fits fields ms where
  free := fun f hf _ => hfits f hf
  required := h.required
  choice := fun hgroups => by
    obtain ⟨g, hg⟩ := h.choice hgroups
    refine ⟨g, (exactlyOne_congr fun f hf => ?_).1 hg⟩
    exact (and_iff_left (hfits f (mem_groupMembers.1 hf).1)).symm

section
variable {pool : Pool} {required : Requirement}

theorem WellTyped.conforms {path : List String} {f : Field} {v : Document}
    (h : WellTyped pool required path f v) : Conforms pool required path f v := by
  induction h with
  | @scalar path f v hc h =>
    -- kinds that name another type have no values of their own
    have hm : f.kind.isMessage = false := by
      revert h
      cases f.kind <;> simp [FieldKind.Typed, FieldKind.isMessage]
    have he : f.kind ≠ .enum := by
      rintro he
      simp [he, FieldKind.Typed] at h
    exact (conforms_scalar hc hm he).2 h
  | enum hc hk ht he hn =>
    refine (conforms_enum hc hk).2 ⟨_, rfl, fun t' e' ht' he' => ?_⟩
    obtain rfl := Option.some.inj (ht.symm.trans ht')
    obtain rfl := Option.some.inj (he.symm.trans he')
    exact hn
  | openEnum hc hk he =>
    refine (conforms_enum hc hk).2 ⟨_, rfl, fun t' e' ht' he' => ?_⟩
    simp [he t' ht'] at he'
  | list hc _ ih => exact (conforms_list hc).2 ⟨_, rfl, ih⟩
  | map hc hk _ ih =>
    exact (conforms_map hc).2 ⟨_, rfl, fun k w hw => ⟨.inl (hk k w hw), ih k w hw⟩⟩
  | wellKnown hc hk ht hw h =>
    refine (conforms_message hc hk).2 fun t' ht' => ?_
    obtain rfl := Option.some.inj (ht.symm.trans ht')
    simp [hw, h]
  | back hc hk ht hw hp =>
    refine (conforms_message hc hk).2 fun t' ht' => ?_
    obtain rfl := Option.some.inj (ht.symm.trans ht')
    simp [hw, hp]
  | unresolved hc hk h =>
    refine (conforms_message hc hk).2 fun t' ht' => ?_
    simp [h t' ht']
  | message hc hk ht hw hp hm hpresent _ ih =>
    refine (conforms_message hc hk).2 fun t' ht' => ?_
    obtain rfl := Option.some.inj (ht.symm.trans ht')
    refine ⟨fun w' hw' => by simp [hw] at hw', fun _ _ m' hm' => ?_⟩
    obtain rfl := Option.some.inj (hm.symm.trans hm')
    exact ⟨_, rfl, hpresent.fieldsFit ih⟩

theorem Message.Types.admits {m : Message} {v : Document} (h : m.Types pool required v) :
    m.Admits pool required v := by
  obtain ⟨ms, rfl, hpresent, htyped⟩ := h
  exact ⟨ms, rfl, hpresent.fieldsFit fun f hf w hw => (htyped f hf w hw).conforms⟩

end

/-- **Typing.** For messages whose fields have different names, the schema of a message accepts
every well-typed document, and of all documents it accepts those that the message admits. -/
theorem accepts_messageSchema (b : Builder) (m : Message) (hm : m.DistinctNames)
    (hpool : ∀ n m', b.pool.message? n = some m' → m'.DistinctNames) (v : Document) :
    (m.Types b.pool b.required v → Accepts (b.messageSchema m).1 v) ∧
    (Accepts (b.messageSchema m).1 v ↔ m.Admits b.pool b.required v) := by
  have hiff : Accepts (b.messageSchema m).1 v ↔ m.Admits b.pool b.required v :=
    accepts_messageSchema_iff b hm hpool
  refine ⟨fun htypes => ?_, hiff⟩
  exact hiff.2 htypes.admits

/-- A node of a tree with labelled edges, which is named or numbered. -/
def treeNode : Message :=
  ⟨"tree.Node", [Field.ofMap "children" .int32 (Field.ofMessage "value" "tree.Node"),
    (Field.ofKind "weights" .double).repeated,
    (Field.ofKind "name" .string).withOneof ⟨"label", false⟩,
    (Field.ofKind "number" .int64).withOneof ⟨"label", false⟩]⟩

/-- A request for a node holds its members, but a child of the node may be anything. -/
theorem accepts_messageSchema_treeNode :
    Accepts ((Builder.new (Pool.empty.addMessage treeNode) fun _ => true).messageSchema treeNode).1
      (.obj [("number", .str "7"), ("weights", .arr [.num (1 / 2)]),
        ("children", .obj [("-1", .null)])]) := by
  have hm : treeNode.DistinctNames := by
    simp [Message.DistinctNames, treeNode, Field.ofMap, Field.ofMessage, Field.ofKind,
      Field.repeated, Field.withOneof]
  have hpool : ∀ n m', (Pool.empty.addMessage treeNode).message? n = some m' →
      m'.DistinctNames := by
    intro n m' h
    rw [Pool.message?_addMessage] at h
    split at h
    · exact Option.some.inj h ▸ hm
    · simp [Pool.message?, Pool.empty] at h
  refine (accepts_messageSchema (.new (Pool.empty.addMessage treeNode) fun _ => true) treeNode
    hm hpool _).1 ⟨_, rfl, ?_, ?_⟩
  · refine ⟨by simp [treeNode, Field.declaredOneof, Field.ofMap, Field.ofMessage, Field.ofKind,
      Field.repeated, Field.withOneof, Document.Has], fun _ => ⟨"label", ?_⟩⟩
    -- the group is there with a number and without a name
    refine ⟨[(Field.ofKind "name" .string).withOneof ⟨"label", false⟩],
      (Field.ofKind "number" .int64).withOneof ⟨"label", false⟩, [], rfl, ?_, ?_⟩ <;>
      simp [Document.Has, Field.ofKind, Field.withOneof]
  · intro f hf w hw
    simp only [treeNode, List.mem_cons, List.not_mem_nil, or_false] at hf
    rcases hf with rfl | rfl | rfl | rfl <;>
      simp [Field.ofMap, Field.ofMessage, Field.ofKind, Field.repeated, Field.withOneof] at hw
    · subst hw
      refine .map rfl (fun k _ hk => ?_) fun k v hv => ?_
      · simp only [List.mem_singleton, Prod.mk.injEq] at hk
        have one : Numeral.numeral 10 (0 + 1) = ['1'] := Numeral.numeral_of_lt (by decide)
        exact ⟨.negSucc 0, by rw [hk.1, Numeral.decimal, one]⟩
      · simp only [List.mem_singleton, Prod.mk.injEq] at hv
        exact .back rfl rfl rfl (by decide) (by simp [treeNode])
    · subst hw
      refine .list rfl fun v hv => ?_
      obtain rfl := List.mem_singleton.1 hv
      exact .scalar rfl trivial
    · subst hw
      exact .scalar rfl trivial

end McpCatalog
