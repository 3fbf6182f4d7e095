import Mathlib.Logic.Relation
import McpCatalog.Generation
import McpCatalog.Proofs.Schema.BackReference
/-!
# What a schema depends on

References lead from a message to others, and from these on. The schema of a message is made from
what the pool has under the names on the way, from the enumerations that fields there are of, and
from the fields that have to be present. Nothing is looked up under the name of a well-known type,
so references end there.

Results:
* `Field.shape_congr_leaf`: the types that the shape of a field depends on.
* `Pool.AgreeFrom.messageShape_eq`: pools that agree from a message on give it the same shape.
* `Pool.messageSchema_local`: what is not reached from a message can be added, taken away or
  changed.
-/
namespace McpCatalog

open Relation (ReflTransGen)

/-! ## Fields -/

section
variable {pool pool' : Pool} {reference reference' : String → Shape}

theorem itemShape_congr {kind : FieldKind} {typeName : Option String}
    (hmessage : kind.isMessage = true → ∀ t, typeName = some t → reference t = reference' t)
    (henum : kind = .enum → ∀ t, typeName = some t → pool.enum? t = pool'.enum? t) :
    Field.itemShape pool reference kind typeName
      = Field.itemShape pool' reference' kind typeName := by
  by_cases hm : kind.isMessage = true
  · cases typeName with
    | none => rw [itemShape_untyped hm, itemShape_untyped hm]
    | some t => rw [itemShape_message hm, itemShape_message hm, hmessage hm t rfl]
  · rw [Bool.not_eq_true] at hm
    by_cases he : kind = .enum
    · subst he
      rw [itemShape_enum, itemShape_enum]
      cases typeName with
      | none => rfl
      | some t => rw [Option.bind_some, Option.bind_some, henum rfl t rfl]
    · rw [itemShape_scalar hm he, itemShape_scalar hm he]

/-- The shape of a field depends on the message or the enumeration that its values are of. -/
theorem Field.shape_congr_leaf (f : Field)
    (hmessage : f.leaf.kind.isMessage = true → ∀ t, f.leaf.typeName = some t →
      reference t = reference' t)
    (henum : f.leaf.kind = .enum → ∀ t, f.leaf.typeName = some t →
      pool.enum? t = pool'.enum? t) :
    f.shape pool reference = f.shape pool' reference' := by
  induction f using values_induction with
  | map f key value hc ih =>
    rw [leaf_map hc] at hmessage henum
    rw [shape_map hc, shape_map hc, ih hmessage henum]
  | list f hc =>
    rw [leaf_item (by simp [hc])] at hmessage henum
    rw [shape_list hc, shape_list hc, shape_singular rfl, shape_singular rfl]
    exact congrArg Shape.list (itemShape_congr hmessage henum)
  | singular f hc =>
    rw [leaf_item (by simp [hc])] at hmessage henum
    rw [shape_singular hc, shape_singular hc]
    exact itemShape_congr hmessage henum

end

/-! ## Messages -/

/-- The message has a field that holds values of the enumeration of the given name. -/
def Message.RefersToEnum (m : Message) (t : String) : Prop :=
  ∃ f ∈ m.fields, f.leaf.kind = .enum ∧ f.leaf.typeName = some t

namespace Pool

/-- The pools and the look-ups say the same of every message that references lead to, the first one
included: of its fields, and of the messages and enumerations that these refer to. -/
structure AgreeFrom (pool pool' : Pool) (required required' : Requirement) (m : Message) :
    Prop where
  fields : ∀ a, ReflTransGen pool.Follows m a → ∀ f ∈ a.fields, required f = required' f
  messages : ∀ a, ReflTransGen pool.Follows m a → ∀ t, a.Refers t →
    pool.message? t = pool'.message? t
  enums : ∀ a, ReflTransGen pool.Follows m a → ∀ t, a.RefersToEnum t →
    pool.enum? t = pool'.enum? t

section
variable {pool pool' : Pool} {required required' : Requirement} {m : Message}

theorem AgreeFrom.next (h : pool.AgreeFrom pool' required required' m) {m' : Message}
    (hm' : pool.Follows m m') : pool.AgreeFrom pool' required required' m' where
  fields := fun a ha => h.fields a (.head hm' ha)
  messages := fun a ha => h.messages a (.head hm' ha)
  enums := fun a ha => h.enums a (.head hm' ha)

/-- References are resolved alike, if the messages found have the same shape. -/
theorem reference_congr {path : List String} {t : String}
    (hfind : WellKnown.ofName? t = none → pool.message? t = pool'.message? t)
    (hshape : WellKnown.ofName? t = none → t ∉ path → ∀ m, pool.message? t = some m →
      pool.messageShape required path m = pool'.messageShape required' path m) :
    pool.reference required path t = pool'.reference required' path t := by
  rw [reference_eq, reference_eq]
  cases hw : WellKnown.ofName? t with
  | some w => rfl
  | none =>
    by_cases hp : t ∈ path
    · simp only [hp, if_true]
    · simp only [hp, if_false, ← hfind hw]
      cases hm : pool.message? t with
      | none => rfl
      | some m => exact hshape hw hp m hm

/-- Pools that agree from a message on give it the same shape, whatever the path. -/
theorem AgreeFrom.messageShape_eq (h : pool.AgreeFrom pool' required required' m)
    (path : List String) :
    pool.messageShape required path m = pool'.messageShape required' path m := by
  induction hu : pool.messages.unvisited (m.fullName :: path) using Nat.strongRecOn
    generalizing m path with
  | ind u ih =>
    subst hu
    rw [messageShape, messageShape]
    refine congrArg (Shape.message m.fullName) (List.map_congr_left fun f hf => ?_)
    have hhead : f.head required = f.head required' := by
      rw [Field.head, Field.head, h.fields m .refl f hf]
    have hshape : f.shape pool (pool.reference required (m.fullName :: path))
        = f.shape pool' (pool'.reference required' (m.fullName :: path)) := by
      refine f.shape_congr_leaf (fun hm t ht => ?_) fun hk t ht =>
        h.enums m .refl t ⟨f, hf, hk, ht⟩
      refine reference_congr (fun hw => h.messages m .refl t ⟨f, hf, hm, ht, hw⟩) ?_
      intro hw hp m' hm'
      have hlt : pool.messages.unvisited (m'.fullName :: m.fullName :: path)
          < pool.messages.unvisited (m.fullName :: path) := by
        rw [fullName_of_message? hm']
        exact Dict.unvisited_cons_lt hm' hp
      exact ih _ hlt (h.next ⟨t, ⟨f, hf, hm, ht, hw⟩, hm'⟩) _ rfl
    rw [hhead, hshape]

theorem AgreeFrom.messageSchema_eq (h : pool.AgreeFrom pool' required required' m) :
    ((Builder.new pool required).messageSchema m).1
        = ((Builder.new pool' required').messageSchema m).1 ∧
      ((Builder.new pool required).messageSchema m).2.recursiveReferences
        = ((Builder.new pool' required').messageSchema m).2.recursiveReferences := by
  have hshape := h.messageShape_eq []
  constructor
  · exact congrArg Shape.schema hshape
  · simp only [Builder.messageSchema, Builder.note, Builder.recursiveReferences, Builder.new,
      hshape]

/-! ## Changes of a pool -/

/-- The second pool and look-up come from the first by changes beside the message: what is added,
taken away or changed is a well-known message, or a type that no reference leads to. -/
structure ChangedBeside (pool pool' : Pool) (required required' : Requirement) (m : Message) :
    Prop where
  fields : ∀ f, required f ≠ required' f → ∀ a, ReflTransGen pool.Follows m a → f ∉ a.fields
  messages : ∀ t, pool.message? t ≠ pool'.message? t → (∃ w : WellKnown, w.name = t) ∨
    ∀ a, ReflTransGen pool.Follows m a → ¬ a.Refers t
  enums : ∀ t, pool.enum? t ≠ pool'.enum? t →
    ∀ a, ReflTransGen pool.Follows m a → ¬ a.RefersToEnum t

theorem ChangedBeside.agreeFrom (h : pool.ChangedBeside pool' required required' m) :
    pool.AgreeFrom pool' required required' m where
  fields := fun a ha f hf => by
    by_contra hne
    exact h.fields f hne a ha hf
  messages := fun a ha t href => by
    by_contra hne
    rcases h.messages t hne with ⟨w, rfl⟩ | hno
    · obtain ⟨-, -, -, -, hw⟩ := href
      simp [WellKnown.ofName?_name] at hw
    · exact hno a ha href
  enums := fun a ha t href => by
    by_contra hne
    exact h.enums t hne a ha href

/-- **Locality.** Two pools and two look-ups that agree from a message on give it the same schema
and record the same names. So where a method takes the message before and after changes of
well-known messages and of types that nothing in the message refers to, it has the same tool. -/
theorem messageSchema_local (pool pool' : Pool) (required required' : Requirement) (m : Message) :
    (pool.AgreeFrom pool' required required' m →
      ((Builder.new pool required).messageSchema m).1
          = ((Builder.new pool' required').messageSchema m).1 ∧
        ((Builder.new pool required).messageSchema m).2.recursiveReferences
          = ((Builder.new pool' required').messageSchema m).2.recursiveReferences) ∧
    (pool.ChangedBeside pool' required required' m → ∀ (limit : Nat) (method : Method),
      Generator.request ⟨pool, required, limit⟩ method = m →
      Generator.request ⟨pool', required', limit⟩ method = m →
      Generator.tool ⟨pool, required, limit⟩ method
        = Generator.tool ⟨pool', required', limit⟩ method) := by
  refine ⟨AgreeFrom.messageSchema_eq, fun h limit method hm hm' => ?_⟩
  obtain ⟨hschema, hrecursive⟩ := h.agreeFrom.messageSchema_eq
  simp only [Generator.tool, hm, hm', hschema, hrecursive]

end

/-- An order and its lines refer to each other. -/
def orderMessage : Message :=
  ⟨"shop.Order", [Field.ofMessage "placed" "google.protobuf.Timestamp",
    Field.ofMap "lines" .string (Field.ofMessage "value" "shop.Line"),
    Field.ofEnum "state" "shop.State"]⟩

def lineMessage : Message :=
  ⟨"shop.Line", [(Field.ofMessage "order" "shop.Order").repeated]⟩

def stateEnum : EnumType :=
  ⟨"shop.State", ["OPEN", "PAID"]⟩

def shopPool : Pool :=
  .ofTypes [orderMessage, lineMessage, ⟨"google.protobuf.Timestamp", []⟩, ⟨"shop.Note", []⟩]
    [stateEnum, ⟨"shop.Color", ["RED"]⟩]

/-- The well-known message has another field, one message is gone and another one is new, and the
enumeration that nothing refers to has no values. -/
def changedShopPool : Pool :=
  .ofTypes [⟨"google.protobuf.Timestamp", [Field.ofMessage "next" "shop.Order"]⟩,
    ⟨"shop.Audit", [Field.ofMessage "order" "shop.Order"]⟩, lineMessage, orderMessage]
    [⟨"shop.Color", []⟩, stateEnum]

/-- From an order references lead to lines and back to orders. -/
theorem refers_of_reached {a : Message} (h : ReflTransGen shopPool.Follows orderMessage a) :
    (a = orderMessage ∨ a = lineMessage) ∧
      ∀ t, a.Refers t → t = "shop.Order" ∨ t = "shop.Line" := by
  have hrefers (a : Message) (ha : a = orderMessage ∨ a = lineMessage) (t : String)
      (href : a.Refers t) : t = "shop.Order" ∨ t = "shop.Line" := by
    obtain ⟨f, hf, hm, ht, hw⟩ := href
    rcases ha with rfl | rfl
    · simp only [orderMessage, List.mem_cons, List.not_mem_nil, or_false] at hf
      rcases hf with rfl | rfl | rfl
      · obtain rfl := Option.some.inj ht
        exact absurd hw (by decide)
      · exact .inr (Option.some.inj ht).symm
      · cases hm
    · simp only [lineMessage, List.mem_cons, List.not_mem_nil, or_false] at hf
      subst hf
      exact .inl (Option.some.inj ht).symm
  suffices hreached : a = orderMessage ∨ a = lineMessage from ⟨hreached, hrefers a hreached⟩
  induction h with
  | refl => exact .inl rfl
  | tail _ hfollows ih =>
    obtain ⟨t, href, hb⟩ := hfollows
    rcases hrefers _ ih t href with rfl | rfl
    · exact .inl (by simpa [shopPool, message?_ofTypes, orderMessage, lineMessage] using hb.symm)
    · exact .inr (by simpa [shopPool, message?_ofTypes, lineMessage] using hb.symm)

theorem changedBeside_order : shopPool.ChangedBeside changedShopPool (fun _ => false)
    (fun f => f.name == "next") orderMessage where
  fields := by
    intro f hne a ha hf
    rcases (refers_of_reached ha).1 with rfl | rfl
    · simp only [orderMessage, List.mem_cons, List.not_mem_nil, or_false] at hf
      rcases hf with rfl | rfl | rfl <;> exact hne rfl
    · simp only [lineMessage, List.mem_cons, List.not_mem_nil, or_false] at hf
      subst hf
      exact hne rfl
  messages := by
    intro t hne
    refine .inr fun a ha href => hne ?_
    rcases (refers_of_reached ha).2 t href with rfl | rfl
    · simp [shopPool, changedShopPool, message?_ofTypes, orderMessage, lineMessage]
    · simp [shopPool, changedShopPool, message?_ofTypes, orderMessage, lineMessage]
  enums := by
    intro t hne a ha href
    obtain ⟨f, hf, hk, ht⟩ := href
    rcases (refers_of_reached ha).1 with rfl | rfl
    · simp only [orderMessage, List.mem_cons, List.not_mem_nil, or_false] at hf
      rcases hf with rfl | rfl | rfl
      · cases hk
      · cases hk
      · obtain rfl := Option.some.inj ht
        exact hne (by simp [shopPool, changedShopPool, enum?_ofTypes, stateEnum])
    · simp only [lineMessage, List.mem_cons, List.not_mem_nil, or_false] at hf
      subst hf
      cases hk

/-- A method that takes an order. -/
def placeMethod : Method :=
  ⟨"Place", "shop.Orders.Place", "shop.Order", "shop.Order", false, false, ""⟩

theorem messageSchema_local_orderMessage :
    shopPool.ChangedBeside changedShopPool (fun _ => false) (fun f => f.name == "next")
      orderMessage ∧
    ((Builder.new shopPool fun _ => false).messageSchema orderMessage).1
      = ((Builder.new changedShopPool fun f => f.name == "next").messageSchema orderMessage).1 ∧
    Generator.tool ⟨shopPool, fun _ => false, 64⟩ placeMethod
      = Generator.tool ⟨changedShopPool, fun f => f.name == "next", 64⟩ placeMethod := by
  obtain ⟨hschema, htool⟩ := messageSchema_local shopPool changedShopPool (fun _ => false)
    (fun f => f.name == "next") orderMessage
  refine ⟨changedBeside_order, (hschema changedBeside_order.agreeFrom).1,
    htool changedBeside_order 64 placeMethod ?_ ?_⟩
  · simp [Generator.request, placeMethod, shopPool, message?_ofTypes, orderMessage, lineMessage]
  · simp [Generator.request, placeMethod, changedShopPool, message?_ofTypes, orderMessage]

end Pool
end McpCatalog
