import Mathlib.Data.List.Pairwise
import Mathlib.Data.List.Perm.Basic
import McpCatalog.Catalog
import McpCatalog.Proofs.Dict
/-!
# What a catalog holds

A catalog is an index of entries by service and method, an index by key, and a set of the
names that are taken. Keys are made of two names, and different pairs of names can make
one key; `Holds` says that all three parts speak of the same entries.

Results:
* `Holds.ensureService`, `Holds.add`: what a catalog holds after one more service or entry.
* `Holds.eq_of_clashes`: of the entries that a catalog holds, none clashes with another.
* `Holds.ext`: a catalog is determined by the services and entries it holds.
* `Holds.insert_eq_add`, `Holds.insert_eq_clash`: an entry is refused if and only if it
  clashes with one that the catalog holds.
* `Holds.perm_keys`: there is one key for each entry.
-/
namespace McpCatalog

namespace Catalog

/-- A method of a service with its tool. -/
structure Entry where
  service : String
  method : String
  tool : Tool

namespace Entry

def key (e : Entry) : String :=
  Catalog.key e.service e.method

/-- The two cannot be in one catalog. -/
def Clashes (e e' : Entry) : Prop :=
  e.key = e'.key ∨ e.tool.name = e'.tool.name

theorem Clashes.symm {e e' : Entry} (h : e.Clashes e') : e'.Clashes e :=
  h.imp Eq.symm Eq.symm

/-- Why an entry cannot join others: its key is taken, or else its name is. -/
def clash (file : String) (others : List Entry) (e : Entry) : Clash :=
  if e.key ∈ others.map key then .duplicateKey file e.key else .duplicateName file e.tool.name

end Entry

/-- The catalog has exactly the given services and, under its two keys, exactly the given
entries, no two of which clash. -/
structure Holds (c : Catalog) (services : List String) (es : List Entry) : Prop where
  distinct : es.Pairwise fun e e' => ¬ e.Clashes e'
  tools : ∀ k t, c.tools.get? k = some t ↔ ∃ e ∈ es, e.key = k ∧ e.tool = t
  names : ∀ n, c.names.contains n = true ↔ ∃ e ∈ es, e.tool.name = n
  services : ∀ s, (c.services.get? s).isSome = true ↔ s ∈ services
  methods : ∀ s m t, (c.methods s).get? m = some t ↔
    ∃ e ∈ es, e.service = s ∧ e.method = m ∧ e.tool = t

theorem holds_empty : empty.Holds [] [] := by
  constructor <;> simp [empty, methods, Dict.contains]

theorem methods_ensureService (c : Catalog) (service s : String) :
    (c.ensureService service).methods s = c.methods s := by
  simp only [methods, ensureService, Dict.get?_insert]
  split
  · next h => simp [h]
  · rfl

section
variable {c : Catalog} {services : List String} {es : List Entry}

theorem Holds.ensureService (h : c.Holds services es) (service : String) :
    (c.ensureService service).Holds (services ++ [service]) es where
  distinct := h.distinct
  tools := h.tools
  names := h.names
  services := fun s => by
    rw [Catalog.ensureService, Dict.get?_insert, List.mem_append, List.mem_singleton, ← h.services]
    by_cases hs : s = service <;> simp [hs]
  methods := fun s m t => by rw [methods_ensureService, h.methods]

theorem Holds.contains_key (h : c.Holds services es) (k : String) :
    c.tools.contains k = true ↔ k ∈ es.map Entry.key := by
  rw [Dict.contains, Option.isSome_iff_exists, List.mem_map]
  constructor
  · rintro ⟨t, ht⟩
    obtain ⟨e, he, hk, -⟩ := (h.tools k t).1 ht
    exact ⟨e, he, hk⟩
  · rintro ⟨e, he, hk⟩
    exact ⟨e.tool, (h.tools k e.tool).2 ⟨e, he, hk, rfl⟩⟩

/-- The catalog with one more entry, which must not clash with those it holds. -/
def add (c : Catalog) (e : Entry) : Catalog :=
  { services := c.services.insert e.service ((c.methods e.service).insert e.method e.tool)
    tools := c.tools.insert e.key e.tool
    names := c.names.insert e.tool.name () }

theorem methods_add (c : Catalog) (e : Entry) (s : String) :
    (c.add e).methods s
      = if s = e.service then (c.methods s).insert e.method e.tool else c.methods s := by
  simp only [methods, add, Dict.get?_insert]
  split
  · next h => simp [h]
  · rfl

theorem exists_mem_concat {p : Entry → Prop} {e : Entry} :
    (∃ e' ∈ es ++ [e], p e') ↔ (∃ e' ∈ es, p e') ∨ p e := by
  simp only [List.mem_append, List.mem_singleton, or_and_right, exists_or, exists_eq_left]

theorem Holds.add (h : c.Holds services es) {e : Entry} (hs : e.service ∈ services)
    (hnew : ∀ e' ∈ es, ¬ e'.Clashes e) : (c.add e).Holds services (es ++ [e]) := by
  have hfresh : ∀ e' ∈ es, e'.key ≠ e.key := fun e' he' hk => hnew e' he' (.inl hk)
  constructor
  · exact List.pairwise_append.2 ⟨h.distinct, List.pairwise_singleton _ _, by simpa using hnew⟩
  · intro k t
    rw [exists_mem_concat, Catalog.add, Dict.get?_insert, ← h.tools]
    split
    · next hk =>
      subst hk
      have hnone : c.tools.get? e.key ≠ some t := fun ht => by
        obtain ⟨e', he', hk, -⟩ := (h.tools _ t).1 ht
        exact hfresh e' he' hk
      simp [hnone]
    · next hk => simp [Ne.symm hk]
  · intro n
    rw [exists_mem_concat, Catalog.add, Dict.contains, Dict.get?_insert, ← h.names, Dict.contains]
    by_cases hn : n = e.tool.name <;> simp [hn, Ne.symm]
  · intro s
    rw [Catalog.add, Dict.get?_insert]
    split
    · next h' => simp [h', hs]
    · exact h.services s
  · intro s m t
    rw [exists_mem_concat, methods_add, ← h.methods]
    split
    · next hs =>
      subst hs
      rw [Dict.get?_insert]
      split
      · next hm =>
        subst hm
        have hnone : (c.methods e.service).get? e.method ≠ some t := fun ht => by
          obtain ⟨e', he', hs', hm', -⟩ := (h.methods _ _ t).1 ht
          exact hfresh e' he' (by rw [Entry.key, Entry.key, hs', hm'])
        simp [hnone]
      · next hm => simp [Ne.symm hm]
    · next hs => simp [Ne.symm hs]

/-- An addition declares the service, if nothing did before. -/
theorem add_ensureService (c : Catalog) (e : Entry) :
    (c.ensureService e.service).add e = c.add e := by
  unfold add
  rw [methods_ensureService]
  unfold ensureService
  rw [Dict.insert_insert]

theorem Holds.addNew (h : c.Holds services es) {e : Entry} (hnew : ∀ e' ∈ es, ¬ e'.Clashes e) :
    (c.add e).Holds (services ++ [e.service]) (es ++ [e]) := by
  rw [← add_ensureService]
  exact (h.ensureService e.service).add (by simp) hnew

/-- Of the entries, each clashes with itself only. -/
theorem Holds.eq_of_clashes (h : c.Holds services es) {e e' : Entry} (he : e ∈ es) (he' : e' ∈ es)
    (hclash : e.Clashes e') : e = e' := by
  have hsymm : Std.Symm fun a b : Entry => ¬ a.Clashes b := ⟨fun _ _ hab hba => hab hba.symm⟩
  by_contra hne
  exact h.distinct.forall he he' hne hclash

/-- Two catalogs that hold the same services and entries are one, in whatever order these were
put in. -/
theorem Holds.ext {c' : Catalog} {services' : List String} {es' : List Entry}
    (h : c.Holds services es) (h' : c'.Holds services' es')
    (hs : ∀ s, s ∈ services ↔ s ∈ services') (he : ∀ e, e ∈ es ↔ e ∈ es') : c = c' := by
  have htools : c.tools = c'.tools := by
    apply Dict.get?_ext
    intro k
    ext t
    simp only [h.tools, h'.tools, he]
  have hnames : c.names = c'.names := by
    apply Dict.ext_contains
    intro n
    rw [Bool.eq_iff_iff, h.names, h'.names]
    simp only [he]
  have hmethods : ∀ s, c.methods s = c'.methods s := by
    intro s
    apply Dict.get?_ext
    intro m
    ext t
    simp only [h.methods, h'.methods, he]
  have hservices : c.services = c'.services := by
    apply Dict.get?_ext
    intro s
    have hsome : (c.services.get? s).isSome = (c'.services.get? s).isSome := by
      rw [Bool.eq_iff_iff, h.services, h'.services, hs]
    have hget : (c.services.get? s).getD .empty = (c'.services.get? s).getD .empty := hmethods s
    -- the methods of a service are empty also where there is no service
    cases hc : c.services.get? s with
    | none => cases hc' : c'.services.get? s with
      | none => rfl
      | some ms => simp [hc, hc'] at hsome
    | some ms => cases hc' : c'.services.get? s with
      | none => simp [hc, hc'] at hsome
      | some ms' => simpa [hc, hc'] using hget
  cases c
  cases c'
  simp_all

/-- Each entry has its key to itself. -/
theorem Holds.perm_keys (h : c.Holds services es) : c.tools.keys.Perm (es.map Entry.key) := by
  have hkeys : c.tools.keys.Nodup := by
    refine c.tools.pairwise_keys.imp fun hlt => ?_
    rintro rfl
    exact String.lt_irrefl _ hlt
  have hdistinct : (es.map Entry.key).Nodup :=
    List.pairwise_map.2 (h.distinct.imp fun hclash heq => hclash (.inl heq))
  refine (List.perm_ext_iff_of_nodup hkeys hdistinct).2 fun k => ?_
  rw [Dict.mem_keys_iff, ← Dict.contains, h.contains_key]

/-- An entry that clashes with none of the others is accepted. -/
theorem Holds.insert_eq_add (h : c.Holds services es) {e : Entry}
    (hnew : ∀ e' ∈ es, ¬ e'.Clashes e) (file : String) :
    c.insert file e.service e.method e.tool = .ok (c.add e) := by
  have hkey : c.tools.contains (Catalog.key e.service e.method) = false := by
    rw [← Bool.not_eq_true, h.contains_key, List.mem_map]
    rintro ⟨e', he', hk⟩
    exact hnew e' he' (.inl hk)
  have hname : c.names.contains e.tool.name = false := by
    rw [← Bool.not_eq_true, h.names]
    rintro ⟨e', he', hn⟩
    exact hnew e' he' (.inr hn)
  simp only [insert, hkey, hname, Bool.false_eq_true, if_false]
  rfl

/-- An entry that clashes with one of the others is refused. -/
theorem Holds.insert_eq_clash (h : c.Holds services es) {e e' : Entry} (he' : e' ∈ es)
    (hclash : e'.Clashes e) (file : String) :
    c.insert file e.service e.method e.tool = .error (e.clash file es) := by
  unfold Entry.clash
  split
  · next hk => exact insert_eq_duplicateKey_iff.2 ((h.contains_key e.key).2 hk)
  · next hk =>
    refine insert_eq_duplicateName_iff.2 ⟨?_, (h.names e.tool.name).2 ⟨e', he', ?_⟩⟩
    · rw [← Bool.not_eq_true]
      exact fun hc => hk ((h.contains_key e.key).1 hc)
    · exact hclash.resolve_left fun hkey => hk (List.mem_map.2 ⟨e', he', hkey⟩)

end
end Catalog

end McpCatalog
