import Mathlib.Data.Set.Function
import McpCatalog.Proofs.Catalog
/-!
# Catalogs under calls

A catalog starts empty and changes by calls: a service is declared, or the tool of a method is
inserted. An insertion writes to one part of the catalog after the other; a refusal does not
undo what was written before it, so that all checks have to come first.

Results:
* `insertInPlace_on`: an insertion in place makes all its changes or none.
* `Holds.performed`, `holds_history`: what a catalog holds after one call and after many.
* `Holds.consistent`: the parts of a catalog agree, since they hold the same entries.
* `consistent_history`: whatever calls were made, the parts of a catalog agree, its size is
  the number of accepted insertions, and a refused insertion changes nothing.
-/
namespace McpCatalog.Catalog

/-! ## Calls -/

/-- A change of a catalog in place, which may be refused half-way. -/
abbrev Update := ExceptT Clash (StateM Catalog)

/-- What a change answers, and the catalog after it. -/
def Update.on {α : Type} (u : Update α) (c : Catalog) : Except Clash α × Catalog :=
  (u.run.run c).run

/-- Puts the tool of a method into the names, then into the services, then into the tools. -/
def insertInPlace (file service method : String) (tool : Tool) : Update Unit := do
  let k := key service method
  if (← get).tools.contains k then throw (.duplicateKey file k)
  if (← get).names.contains tool.name then throw (.duplicateName file tool.name)
  modify fun c => { c with names := c.names.insert tool.name () }
  modify fun c =>
    { c with services := c.services.insert service ((c.methods service).insert method tool) }
  modify fun c => { c with tools := c.tools.insert k tool }

/-- A call on a catalog. -/
inductive Call where
  | ensureService (service : String)
  | insert (file service method : String) (tool : Tool)

def Call.perform : Call → Update Unit
  | .ensureService service => modify fun c => c.ensureService service
  | .insert file service method tool => insertInPlace file service method tool

/-- One if the call inserts a tool and is not refused. -/
def Call.accepted (call : Call) (c : Catalog) : Nat :=
  match call, (call.perform.on c).1 with
  | .insert .., .ok () => 1
  | _, _ => 0

/-- A catalog with the number of insertions that it accepted. -/
structure History where
  catalog : Catalog
  accepted : Nat

def History.next (h : History) (call : Call) : History :=
  ⟨(call.perform.on h.catalog).2, h.accepted + call.accepted h.catalog⟩

/-- An empty catalog after some calls. -/
def history (calls : List Call) : History :=
  calls.foldl History.next ⟨empty, 0⟩

/-! ## One call -/

section
variable {α β : Type}

@[simp] theorem on_get (c : Catalog) : Update.on get c = (.ok c, c) := rfl

@[simp] theorem on_modify (f : Catalog → Catalog) (c : Catalog) :
    Update.on (modify f) c = (.ok (), f c) := rfl

@[simp] theorem on_throw (clash : Clash) (c : Catalog) :
    Update.on (throw clash : Update α) c = (.error clash, c) := rfl

@[simp] theorem on_bind (u : Update α) (next : α → Update β) (c : Catalog) :
    (u >>= next).on c =
      match u.on c with
      | (.ok a, c') => (next a).on c'
      | (.error clash, c') => (.error clash, c') := by
  unfold Update.on
  rw [ExceptT.run_bind, StateT.run_bind]
  rcases h : u.run.run c with ⟨answer, c'⟩
  cases answer <;> rfl

end

theorem insertInPlace_on (c : Catalog) (file service method : String) (tool : Tool) :
    (insertInPlace file service method tool).on c =
      match c.insert file service method tool with
      | .ok c' => (.ok (), c')
      | .error clash => (.error clash, c) := by
  unfold insertInPlace insert
  by_cases hk : c.tools.contains (key service method) = true
  · simp [hk]
  · by_cases hn : c.names.contains tool.name = true
    · simp [hk, hn]
    · simp [hk, hn, methods]

section
variable {c : Catalog} {services : List String} {es : List Entry}

/-- After a call the catalog holds the entries it held before, and the new one if the call inserts
a tool and is not refused. -/
theorem Holds.performed (h : c.Holds services es) (call : Call) :
    ∃ services' es', (call.perform.on c).2.Holds services' es' ∧
      es'.length = es.length + call.accepted c := by
  cases call with
  | ensureService service => exact ⟨_, es, h.ensureService service, rfl⟩
  | insert file service method tool =>
    unfold Call.accepted Call.perform
    rw [insertInPlace_on]
    by_cases hclash : ∃ e' ∈ es, e'.Clashes ⟨service, method, tool⟩
    · obtain ⟨e', he', hclash⟩ := hclash
      have hinsert : c.insert file service method tool = .error _ :=
        h.insert_eq_clash he' hclash file
      rw [hinsert]
      exact ⟨services, es, h, rfl⟩
    · have hnew : ∀ e' ∈ es, ¬ e'.Clashes ⟨service, method, tool⟩ := by simpa using hclash
      have hinsert : c.insert file service method tool = .ok _ := h.insert_eq_add hnew file
      rw [hinsert]
      exact ⟨_, _, h.addNew hnew, by simp⟩

/-! ## Any calls -/

/-- The parts of the catalog speak of the same tools. -/
structure Consistent (c : Catalog) : Prop where
  /-- Each method of a service has a key to itself, and there are no other keys. -/
  keys : Set.BijOn (fun e : String × String => key e.1 e.2)
    {e | ((c.methods e.1).get? e.2).isSome = true} {k | k ∈ c.tools.keys}
  tools : ∀ s m t, (c.methods s).get? m = some t → c.tools.get? (key s m) = some t
  names : ∀ n, c.names.contains n = true ↔ ∃ k t, c.tools.get? k = some t ∧ t.name = n
  distinct : (c.tools.entries.map (·.2.name)).Nodup

theorem Holds.tools_of_methods (h : c.Holds services es) {s m : String} {t : Tool}
    (ht : (c.methods s).get? m = some t) : c.tools.get? (key s m) = some t := by
  obtain ⟨e, he, rfl, rfl, rfl⟩ := (h.methods s m t).1 ht
  exact (h.tools e.key e.tool).2 ⟨e, he, rfl, rfl⟩

/-- Two methods of services with one key are the same. -/
theorem Holds.key_inj (h : c.Holds services es) {s m s' m' : String}
    (hm : ((c.methods s).get? m).isSome = true) (hm' : ((c.methods s').get? m').isSome = true)
    (hkey : key s m = key s' m') : s = s' ∧ m = m' := by
  obtain ⟨t, ht⟩ := Option.isSome_iff_exists.1 hm
  obtain ⟨t', ht'⟩ := Option.isSome_iff_exists.1 hm'
  obtain ⟨e, he, rfl, rfl, -⟩ := (h.methods s m t).1 ht
  obtain ⟨e', he', rfl, rfl, -⟩ := (h.methods s' m' t').1 ht'
  obtain rfl := h.eq_of_clashes he he' (.inl hkey)
  exact ⟨rfl, rfl⟩

theorem Holds.consistent (h : c.Holds services es) : c.Consistent where
  keys := by
    refine ⟨?_, ?_, ?_⟩
    · intro e he
      obtain ⟨t, ht⟩ := Option.isSome_iff_exists.1 he
      exact Dict.mem_keys_iff.2 (by rw [h.tools_of_methods ht]; rfl)
    · intro e he e' he' hkey
      obtain ⟨hs, hm⟩ := h.key_inj he he' hkey
      exact Prod.ext hs hm
    · intro k hk
      obtain ⟨t, ht⟩ := Option.isSome_iff_exists.1 (Dict.mem_keys_iff.1 hk)
      obtain ⟨e, he, rfl, rfl⟩ := (h.tools k t).1 ht
      have hmethod : (c.methods e.service).get? e.method = some e.tool :=
        (h.methods _ _ _).2 ⟨e, he, rfl, rfl, rfl⟩
      exact ⟨(e.service, e.method), by simp [hmethod], rfl⟩
  tools := fun _ _ _ => h.tools_of_methods
  names := by
    intro n
    rw [h.names]
    constructor
    · rintro ⟨e, he, rfl⟩
      exact ⟨e.key, e.tool, (h.tools _ _).2 ⟨e, he, rfl, rfl⟩, rfl⟩
    · rintro ⟨k, t, ht, rfl⟩
      obtain ⟨e, he, -, rfl⟩ := (h.tools k t).1 ht
      exact ⟨e, he, rfl⟩
  distinct := by
    refine List.pairwise_map.2 (c.tools.ordered.imp_of_mem ?_)
    intro a b ha hb hlt hname
    obtain ⟨e, he, hkey, htool⟩ := (h.tools a.1 a.2).1 (Dict.mem_entries_iff.1 ha)
    obtain ⟨e', he', hkey', htool'⟩ := (h.tools b.1 b.2).1 (Dict.mem_entries_iff.1 hb)
    obtain rfl := h.eq_of_clashes he he' (.inr (by rw [htool, htool', hname]))
    rw [← hkey, ← hkey'] at hlt
    exact String.lt_irrefl _ hlt

theorem Holds.size_eq (h : c.Holds services es) : c.size = es.length := by
  have hlength := h.perm_keys.length_eq
  rwa [Dict.keys, List.length_map, List.length_map] at hlength

end

/-- After any calls the catalog holds as many entries as insertions were accepted. -/
theorem holds_history (calls : List Call) :
    ∃ services es, (history calls).catalog.Holds services es ∧
      es.length = (history calls).accepted := by
  suffices hrun : ∀ (h : History) services es, h.catalog.Holds services es →
      es.length = h.accepted → ∃ services' es',
        (calls.foldl History.next h).catalog.Holds services' es' ∧
          es'.length = (calls.foldl History.next h).accepted from
    hrun ⟨empty, 0⟩ [] [] holds_empty rfl
  induction calls with
  | nil =>
    intro h services es hholds hlength
    exact ⟨services, es, hholds, hlength⟩
  | cons call calls ih =>
    intro h services es hholds hlength
    obtain ⟨services', es', hholds', hlength'⟩ := hholds.performed call
    apply ih (h.next call) services' es' hholds'
    rw [hlength', hlength]
    rfl

/-- **Catalogs under calls.** Whatever calls were made on an empty catalog, refused ones among them,
its parts speak of the same tools, its size is the number of insertions that were accepted, and an
insertion that is refused leaves all of it as it was. -/
theorem consistent_history (calls : List Call) :
    (history calls).catalog.Consistent ∧
    (history calls).catalog.size = (history calls).accepted ∧
    ∀ file service method tool clash c',
      (insertInPlace file service method tool).on (history calls).catalog = (.error clash, c') →
      c' = (history calls).catalog := by
  obtain ⟨services, es, hholds, hlength⟩ := holds_history calls
  refine ⟨hholds.consistent, hholds.size_eq.trans hlength, ?_⟩
  intro file service method tool clash c' hrefused
  rw [insertInPlace_on] at hrefused
  cases hinsert : (history calls).catalog.insert file service method tool with
  | ok c'' => simp [hinsert] at hrefused
  | error clash' =>
    rw [hinsert] at hrefused
    exact (Prod.ext_iff.1 hrefused).2.symm

/-- A tool that differs from others in its name only. -/
def emptyTool (name : String) : Tool :=
  ⟨name, "", .obj [], "", "", ""⟩

/-- Two insertions with one key and a third one with a name that is taken. -/
def clashingCalls : List Call :=
  [.insert "a.proto" "A_B" "C" (emptyTool "x"), .insert "a.proto" "A" "B_C" (emptyTool "y"),
    .ensureService "D", .insert "a.proto" "D" "E" (emptyTool "x")]

theorem consistent_history_clashingCalls :
    (history clashingCalls).accepted = 1 ∧ (history clashingCalls).catalog.size = 1 ∧
      ((insertInPlace "a.proto" "A" "B_C" (emptyTool "y")).on (history clashingCalls).catalog).2
        = (history clashingCalls).catalog := by
  have haccepted : (history clashingCalls).accepted = 1 := by decide +kernel
  obtain ⟨-, hsize, hrefused⟩ := consistent_history clashingCalls
  refine ⟨haccepted, hsize.trans haccepted, ?_⟩
  apply hrefused "a.proto" "A" "B_C" (emptyTool "y") (.duplicateKey "a.proto" "A_B_C")
  rfl

end McpCatalog.Catalog
