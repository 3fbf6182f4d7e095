import Mathlib.Data.List.Induction
import McpCatalog.Proofs.Dict
import McpCatalog.Proofs.Schema.Descent
/-!
# Builders that are used again

A builder is asked for schemas one after the other, of messages and of single fields. Every walk
begins with the path and the recorded names that the walk before left behind.

A walk takes each name off the path that it has put on it, wherever it turns back. So all that a
call leaves behind is the names that it recorded, and these never change a schema.

Results:
* `Reaches.ends_unique`: a walk has one end.
* `ends_iff`: how a call ends that begins with an empty path.
* `serves_iff`: what a builder has handed back and is left with, call by call.
* `Builder.callAll_new`: the path, the schemas and the recorded names after any calls.
-/
namespace McpCatalog

open Descent (Control Frame State Reaches Gives record step)

/-! ## Ends of a walk -/

namespace Descent

section
variable {pool : Pool} {required : Requirement}

theorem Reaches.eq_of_stopped {s s' : State} (h : Reaches pool required s s')
    (hstop : step pool required s = none) : s' = s := by
  cases h with
  | refl => rfl
  | head hstep => simp [hstop] at hstep

/-- A walk has one end. -/
theorem Reaches.ends_unique {s a b : State} (ha : Reaches pool required s a)
    (hb : Reaches pool required s b) (hastop : step pool required a = none)
    (hbstop : step pool required b = none) : a = b :=
  ((ha.last hb hbstop).eq_of_stopped hastop).symm

end
end Descent

namespace Builder

/-! ## Calls -/

/-- What a builder is asked for. -/
inductive Call where
  | message (m : Message)
  | field (f : Field)

/-- The schema that the builder hands back, and the builder after the call. -/
def call (b : Builder) : Call → Json × Builder
  | .message m => b.messageSchema m
  | .field f => b.fieldSchema f

/-- The schemas for calls that are made one after the other, and the builder after them. -/
def callAll (b : Builder) (calls : List Call) : List Json × Builder :=
  calls.foldl (fun r c => (r.1 ++ [(r.2.call c).1], (r.2.call c).2)) ([], b)

namespace Call

def control : Call → Control
  | message m => .message m
  | field f => .field f

/-- What the call unfolds to where no message is being unfolded already. -/
def shape (pool : Pool) (required : Requirement) : Call → Shape
  | message m => pool.messageShape required [] m
  | field f => f.shape pool (pool.reference required [])

end Call

/-- A builder that was new has served some calls: the schemas that it handed back, and the path
and the recorded names that it is left with. The next call begins with these. -/
inductive Serves (pool : Pool) (required : Requirement) :
    List Call → List Json → List String → NameSet → Prop
  | new : Serves pool required [] [] [] .empty
  | next {calls : List Call} {schemas : List Json} {path path' : List String}
    {names names' : NameSet} {c : Call} {schema : Json}
    (h : Serves pool required calls schemas path names)
    (hcall : Reaches pool required ⟨path, names, c.control, []⟩
      ⟨path', names', .give schema, []⟩) :
    Serves pool required (calls ++ [c]) (schemas ++ [schema]) path' names'

section
variable {pool : Pool} {required : Requirement}

/-! ## One call -/

theorem call_eq (b : Builder) (c : Call) :
    b.call c = ((c.shape b.pool b.required).schema, b.note (c.shape b.pool b.required)) := by
  cases c <;> rfl

theorem gives_call (pool : Pool) (required : Requirement) (c : Call) :
    Gives pool required [] c.control (c.shape pool required) := by
  cases c with
  | message m => exact Descent.gives_message (Descent.references pool required [m.fullName])
  | field f => exact Descent.gives_field (Descent.references pool required []) f

/-- A call that begins with an empty path comes to an end, and that in one way. -/
theorem ends_iff {names names' : NameSet} {c : Call} {path' : List String} {schema : Json} :
    Reaches pool required ⟨[], names, c.control, []⟩ ⟨path', names', .give schema, []⟩ ↔
      path' = [] ∧ schema = (c.shape pool required).schema ∧
        names' = record names (c.shape pool required) := by
  have hgives := gives_call pool required c names []
  constructor
  · intro h
    have hend := h.ends_unique hgives rfl rfl
    simp only [State.mk.injEq, Control.give.injEq, and_true] at hend
    exact ⟨hend.1, hend.2.2, hend.2.1⟩
  · rintro ⟨rfl, rfl, rfl⟩
    exact hgives

/-! ## Any calls -/

/-- The names that are recorded in the calls, one after the other. -/
def recorded (pool : Pool) (required : Requirement) (calls : List Call) : NameSet :=
  calls.foldl (fun names c => record names (c.shape pool required)) .empty

theorem recorded_concat (calls : List Call) (c : Call) :
    recorded pool required (calls ++ [c])
      = record (recorded pool required calls) (c.shape pool required) := by
  rw [recorded, List.foldl_append]
  rfl

/-- A builder serves any calls, and that in one way. -/
theorem serves_iff {calls : List Call} {schemas : List Json} {path : List String}
    {names : NameSet} :
    Serves pool required calls schemas path names ↔
      path = [] ∧ schemas = calls.map (fun c => (c.shape pool required).schema) ∧
        names = recorded pool required calls := by
  constructor
  · intro h
    induction h with
    | new => exact ⟨rfl, rfl, rfl⟩
    | next _ hcall ih =>
      obtain ⟨rfl, rfl, rfl⟩ := ih
      obtain ⟨rfl, rfl, rfl⟩ := ends_iff.1 hcall
      exact ⟨rfl, by simp, (recorded_concat _ _).symm⟩
  · rintro ⟨rfl, rfl, rfl⟩
    induction calls using List.reverseRecOn with
    | nil => exact .new
    | append_singleton calls c ih =>
      rw [List.map_append, recorded_concat]
      exact .next ih (ends_iff.2 ⟨rfl, rfl, rfl⟩)

theorem mem_keys_record {names : NameSet} {s : Shape} {t : String} :
    t ∈ (record names s).keys ↔ t ∈ s.cuts ∨ t ∈ names.keys :=
  Dict.mem_keys_foldl_insert

theorem mem_recorded {calls : List Call} {t : String} :
    t ∈ (recorded pool required calls).keys ↔
      ∃ c ∈ calls, t ∈ (c.shape pool required).cuts := by
  induction calls using List.reverseRecOn with
  | nil => simp [recorded, Dict.empty, Dict.keys]
  | append_singleton calls c ih =>
    rw [recorded_concat, mem_keys_record, ih]
    simp [or_comm, or_and_right, exists_or]

theorem mem_recursiveReferences_call {c : Call} {t : String} :
    t ∈ ((new pool required).call c).2.recursiveReferences ↔
      t ∈ (c.shape pool required).cuts := by
  rw [call_eq]
  exact mem_keys_record.trans (by simp [new, Dict.empty, Dict.keys])

theorem callAll_eq (calls : List Call) :
    (new pool required).callAll calls
      = (calls.map fun c => (c.shape pool required).schema,
          ⟨pool, required, recorded pool required calls⟩) := by
  induction calls using List.reverseRecOn with
  | nil => rfl
  | append_singleton calls c ih =>
    have hlast : (new pool required).callAll (calls ++ [c])
        = (((new pool required).callAll calls).1
            ++ [(((new pool required).callAll calls).2.call c).1],
          (((new pool required).callAll calls).2.call c).2) := by
      rw [callAll, List.foldl_append]
      rfl
    rw [hlast, ih, call_eq, recorded_concat, List.map_append]
    rfl

/-- **Reuse.** A builder serves calls of any kind and number, each with a walk that ends. After
every one of them the path is empty, every call gets the schema that it gets from a new builder,
and the names that are recorded are those that new builders record for the calls. -/
theorem callAll_new (pool : Pool) (required : Requirement) (calls : List Call) :
    ∃ last : Builder,
      (new pool required).callAll calls
        = (calls.map fun c => ((new pool required).call c).1, last) ∧
      (∀ schemas path names, Serves pool required calls schemas path names ↔
        path = [] ∧ schemas = calls.map (fun c => ((new pool required).call c).1) ∧
          names = last.recursive) ∧
      ∀ t, t ∈ last.recursiveReferences ↔
        ∃ c ∈ calls, t ∈ ((new pool required).call c).2.recursiveReferences := by
  have hschemas : (calls.map fun c => ((new pool required).call c).1)
      = calls.map fun c => (c.shape pool required).schema :=
    List.map_congr_left fun c _ => congrArg Prod.fst (call_eq (new pool required) c)
  rw [hschemas]
  refine ⟨⟨pool, required, recorded pool required calls⟩, callAll_eq calls,
    fun _ _ _ => serves_iff, fun t => ?_⟩
  simp only [mem_recursiveReferences_call]
  exact mem_recorded

end
end Builder
end McpCatalog
