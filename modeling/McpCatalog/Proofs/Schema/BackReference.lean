import Mathlib.Data.List.Chain
import McpCatalog.Proofs.Dict
import McpCatalog.Proofs.Schema.Unfolding
/-!
# Where schemas are cut

A message refers to the messages that its fields hold, directly, in lists or in maps.
The schema of a message is cut at a name if some chain of references comes back to it:
a chain of messages with different names, each found in the pool under a reference of
the one before it, of which the last refers to the name of one of them.

A name on a circle of references need not be cut, as the chains begin at the message
whose schema is made.

Results:
* `mem_cuts_messageShape`: where a message is cut, one reference at a time.
* `returnsTo_of_mem_cuts`, `mem_cuts_of_returnsTo`: where a message is cut at a place with
  a given path.
* `mem_recursiveReferences_iff`: what a new builder has recorded after a message.
-/
namespace McpCatalog

/-! ## References -/

/-- The field that describes one value: that of the values of a map, however deep, or the field
itself. -/
def Field.leaf : Field → Field
  | ⟨_, _, _, .map _ value, _, _⟩ => value.leaf
  | f => f

/-- The message has a field that holds messages of the given name, which is not well-known. -/
def Message.Refers (m : Message) (t : String) : Prop :=
  ∃ f ∈ m.fields, f.leaf.kind.isMessage = true ∧ f.leaf.typeName = some t ∧
    WellKnown.ofName? t = none

namespace Pool

/-- The second message is the one of the pool that the first refers to by some name. -/
def Follows (pool : Pool) (m m' : Message) : Prop :=
  ∃ t, m.Refers t ∧ pool.message? t = some m'

/-- A chain of messages with different names begins with the message and ends with a reference
back to the name of one of them. -/
def Returns (pool : Pool) (m : Message) (t : String) : Prop :=
  ∃ ms, List.IsChain pool.Follows (m :: ms) ∧ ((m :: ms).map (·.fullName)).Nodup ∧
    ((m :: ms).getLast (List.cons_ne_nil m ms)).Refers t ∧ t ∈ (m :: ms).map (·.fullName)

end Pool

section
variable {pool : Pool} {required : Requirement}

theorem leaf_map {f : Field} {key : FieldKind} {value : Field}
    (hc : f.cardinality = .map key value) : f.leaf = value.leaf := by
  cases f
  obtain rfl := hc
  rw [Field.leaf]

theorem leaf_item {f : Field} (hc : ∀ key value, f.cardinality ≠ .map key value) : f.leaf = f := by
  obtain ⟨_, _, _, cardinality, _, _⟩ := f
  cases cardinality with
  | map key value => exact absurd rfl (hc key value)
  | _ => rw [Field.leaf]; simp

/-! ## The cuts of a field -/

theorem mem_cuts_itemShape {reference : String → Shape} {kind : FieldKind}
    {typeName : Option String} {t : String} :
    t ∈ (Field.itemShape pool reference kind typeName).cuts ↔
      kind.isMessage = true ∧ ∃ t', typeName = some t' ∧ t ∈ (reference t').cuts := by
  by_cases hm : kind.isMessage = true
  · cases typeName with
    | none => simp [itemShape_untyped hm, Shape.cuts]
    | some t' => simp [itemShape_message hm, hm]
  · rw [Bool.not_eq_true] at hm
    by_cases he : kind = .enum
    · subst he
      simp [itemShape_enum, Shape.cuts, FieldKind.isMessage]
    · simp [itemShape_scalar hm he, Shape.cuts, hm]

theorem mem_cuts_shape {reference : String → Shape} (f : Field) {t : String} :
    t ∈ (f.shape pool reference).cuts ↔
      f.leaf.kind.isMessage = true ∧ ∃ t', f.leaf.typeName = some t' ∧ t ∈ (reference t').cuts := by
  induction f using Field.values_induction with
  | map f key value hc ih => rw [shape_map hc, Shape.cuts, leaf_map hc, ih]
  | list f hc =>
    rw [shape_list hc, Shape.cuts, shape_singular rfl, mem_cuts_itemShape, leaf_item (by simp [hc])]
    rfl
  | singular f hc => rw [shape_singular hc, mem_cuts_itemShape, leaf_item (by simp [hc])]

/-! ## The cuts of a message -/

theorem mem_cuts_reference {path : List String} {t t' : String} :
    t ∈ (pool.reference required path t').cuts ↔ WellKnown.ofName? t' = none ∧
      (t' ∈ path ∧ t = t' ∨
        t' ∉ path ∧ ∃ m, pool.message? t' = some m ∧
          t ∈ (pool.messageShape required path m).cuts) := by
  rw [Pool.reference_eq]
  cases hw : WellKnown.ofName? t' with
  | some w => simp [Shape.cuts]
  | none =>
    by_cases hp : t' ∈ path
    · simp [hp, Shape.cuts]
    · cases hm : pool.message? t' <;> simp [hp, Shape.cuts]

/-- A message is cut at the references back to its path, and where the messages that it refers to
are cut. -/
theorem mem_cuts_messageShape {path : List String} {m : Message} {t : String} :
    t ∈ (pool.messageShape required path m).cuts ↔ ∃ t', m.Refers t' ∧
      (t' ∈ m.fullName :: path ∧ t = t' ∨
        t' ∉ m.fullName :: path ∧ ∃ m', pool.message? t' = some m' ∧
          t ∈ (pool.messageShape required (m.fullName :: path) m').cuts) := by
  rw [cuts_messageShape, List.mem_flatMap]
  constructor
  · rintro ⟨f, hf, h⟩
    obtain ⟨hm, t', ht', h⟩ := (mem_cuts_shape f).1 h
    obtain ⟨hw, h⟩ := mem_cuts_reference.1 h
    exact ⟨t', ⟨f, hf, hm, ht', hw⟩, h⟩
  · rintro ⟨t', ⟨f, hf, hm, ht', hw⟩, h⟩
    exact ⟨f, hf, (mem_cuts_shape f).2 ⟨hm, t', ht', mem_cuts_reference.2 ⟨hw, h⟩⟩⟩

/-- A chain that begins with the message, off the path behind it, ends with a reference back to one
of its own names or to a name of the path. -/
def Pool.ReturnsTo (pool : Pool) (path : List String) (m : Message) (t : String) : Prop :=
  ∃ ms, List.IsChain pool.Follows (m :: ms) ∧ (ms.map (·.fullName)).Nodup ∧
    (∀ m' ∈ ms, m'.fullName ∉ m.fullName :: path) ∧
    ((m :: ms).getLast (List.cons_ne_nil m ms)).Refers t ∧
    t ∈ (m :: ms).map (·.fullName) ++ path

theorem returnsTo_of_mem_cuts {path : List String} {m : Message} {t : String}
    (h : t ∈ (pool.messageShape required path m).cuts) : pool.ReturnsTo path m t := by
  induction hn : pool.messages.unvisited (m.fullName :: path) using Nat.strongRecOn
    generalizing path m with
  | ind n ih =>
    subst hn
    obtain ⟨t', href, ⟨hmem, rfl⟩ | ⟨hnew, m', hm', h⟩⟩ := mem_cuts_messageShape.1 h
    · exact ⟨[], .singleton m, List.nodup_nil, by simp, href, by simpa using hmem⟩
    · have hname := Pool.fullName_of_message? hm'
      have hlt : pool.messages.unvisited (m'.fullName :: m.fullName :: path)
          < pool.messages.unvisited (m.fullName :: path) := by
        rw [hname]
        exact Dict.unvisited_cons_lt hm' hnew
      obtain ⟨ms, hchain, hnodup, hoff, hlast, ht⟩ := ih _ hlt h rfl
      refine ⟨m' :: ms, .cons_cons ⟨t', href, hm'⟩ hchain, ?_, ?_, hlast, ?_⟩
      · refine List.nodup_cons.2 ⟨fun hmem => ?_, hnodup⟩
        obtain ⟨m₁, hm₁, heq⟩ := List.mem_map.1 hmem
        exact hoff m₁ hm₁ (heq ▸ List.mem_cons_self)
      · intro m₁ hm₁
        rcases List.mem_cons.1 hm₁ with rfl | hm₁
        · rwa [hname]
        · exact fun hmem => hoff m₁ hm₁ (List.mem_cons_of_mem _ hmem)
      · simp only [List.map_cons, List.cons_append, List.mem_cons, List.mem_append] at ht ⊢
        tauto

theorem mem_cuts_of_returnsTo {path : List String} {m : Message} {t : String}
    (h : pool.ReturnsTo path m t) : t ∈ (pool.messageShape required path m).cuts := by
  obtain ⟨ms, hchain, hnodup, hoff, hlast, ht⟩ := h
  induction ms generalizing path m with
  | nil => exact mem_cuts_messageShape.2 ⟨t, hlast, .inl ⟨by simpa using ht, rfl⟩⟩
  | cons m' ms ih =>
    obtain ⟨⟨t', href, hm'⟩, hchain⟩ := List.isChain_cons_cons.1 hchain
    have hname := Pool.fullName_of_message? hm'
    obtain ⟨hnew, hnodup⟩ := List.nodup_cons.1 hnodup
    have hoff' : ∀ m₁ ∈ ms, m₁.fullName ∉ m'.fullName :: m.fullName :: path := by
      intro m₁ hm₁ hmem
      rcases List.mem_cons.1 hmem with heq | hmem
      · exact hnew (List.mem_map.2 ⟨m₁, hm₁, heq⟩)
      · exact hoff m₁ (List.mem_cons_of_mem _ hm₁) hmem
    have ht' : t ∈ (m' :: ms).map (·.fullName) ++ m.fullName :: path := by
      simp only [List.map_cons, List.cons_append, List.mem_cons, List.mem_append] at ht ⊢
      tauto
    have hcuts := ih hchain hnodup hoff' hlast ht'
    exact mem_cuts_messageShape.2
      ⟨t', href, .inr ⟨hname ▸ hoff m' List.mem_cons_self, m', hm', hcuts⟩⟩

/-- Outside of any other message, the names of a chain are its own. -/
theorem mem_cuts_messageShape_nil {m : Message} {t : String} :
    t ∈ (pool.messageShape required [] m).cuts ↔ pool.Returns m t := by
  constructor
  · intro h
    obtain ⟨ms, hchain, hnodup, hoff, hlast, ht⟩ := returnsTo_of_mem_cuts h
    refine ⟨ms, hchain, List.nodup_cons.2 ⟨fun hmem => ?_, hnodup⟩, hlast, by simpa using ht⟩
    obtain ⟨m₁, hm₁, heq⟩ := List.mem_map.1 hmem
    exact hoff m₁ hm₁ (heq ▸ List.mem_cons_self)
  · rintro ⟨ms, hchain, hnodup, hlast, ht⟩
    obtain ⟨hnew, hnodup⟩ := List.nodup_cons.1 hnodup
    refine mem_cuts_of_returnsTo
      ⟨ms, hchain, hnodup, fun m₁ hm₁ hmem => ?_, hlast, by simpa using ht⟩
    obtain heq := List.mem_singleton.1 hmem
    exact hnew (List.mem_map.2 ⟨m₁, hm₁, heq⟩)

/-! ## What a builder records -/

theorem mem_recursiveReferences_iff (pool : Pool) (required : Requirement) (m : Message)
    (t : String) :
    t ∈ ((Builder.new pool required).messageSchema m).2.recursiveReferences ↔ pool.Returns m t := by
  have hcuts : t ∈ (pool.messageShape required [] m).cuts ↔ pool.Returns m t :=
    mem_cuts_messageShape_nil
  rw [← hcuts]
  exact Dict.mem_keys_foldl_insert.trans (by simp [Builder.new, Dict.empty, Dict.keys])

theorem pairwise_recursiveReferences (b : Builder) : b.recursiveReferences.Pairwise (· < ·) :=
  b.recursive.pairwise_keys

end
end McpCatalog
