import Mathlib.Data.List.Perm.Subperm
import Mathlib.Logic.Relation
import McpCatalog.Proofs.Corpus.Content
import McpCatalog.Proofs.Schema.BackReference
/-!
# Maps from their entries

A field and the entries of a map are converted by turns: a repeated field whose type is declared for
the entries of a map is converted by way of these entries, and they by way of their field for the
values. `Converts` is this conversion as it goes, with no thought of what is being converted
already, and with a count of the maps that are inside each other. It goes on forever where values
lead back to their own entries.

Results:
* `Converts.unique`: a conversion ends in one way only.
* `Request.converts_fieldOf`: without circles no entries are met again on the way, so the path makes
  no difference, and there are no more maps inside each other than entries that are not on the path.
* `Request.noCircle_iff`: every conversion ends if and only if there are no circles.
* `Converts.listsNoEntries`: what comes out is no list of the entries of a map.
* `Corpus.folds_ofRequest`: the maps of a request without circles.
-/
namespace McpCatalog

open Relation (TransGen)

/-! ## Conversions -/

/-- What is to be converted. -/
inductive Conversion where
  /-- A field of a message, in the scope of the message. -/
  | field (scope : String) (m : MessageDecl) (f : FieldDecl)
  /-- A map field of the given name, by the message for its entries with its full name. -/
  | map (name t : String) (e : MessageDecl)

/-- The full name of the field, if it is marked as required. -/
def FieldDecl.marked (scope : String) (f : FieldDecl) : List String :=
  if f.isRequired then [f.fullName scope] else []

/-- A conversion ends with a field and with the full names of the required fields that it met. The
number counts the maps inside each other. Nothing is on a path: entries are followed however often
they are met. -/
inductive Converts (entries : Dict MessageDecl) : Conversion → Field → List String → Nat → Prop
  | plain {scope m f} (h : f.entry? entries [] = none) :
    Converts entries (.field scope m f) (m.place scope f f.plain) (f.marked scope) 0
  | folded {scope m f t e field names n} (h : f.entry? entries [] = some (t, e))
    (hmap : Converts entries (.map (f.name.getD "") t e) field names n) :
    Converts entries (.field scope m f) (m.place scope f field) (f.marked scope ++ names) n
  | unvalued {name t e} (h : e.valueDecl? = none) :
    Converts entries (.map name t e) (.ofMap name e.keyKind MessageDecl.defaultValue) [] 1
  | valued {name t e v value names n} (h : e.valueDecl? = some v)
    (hvalue : Converts entries (.field t e v) value names n) :
    Converts entries (.map name t e) (.ofMap name e.keyKind value) names (n + 1)

namespace Converts

section
variable {entries : Dict MessageDecl} {scope name t : String} {m e : MessageDecl}
  {f v : FieldDecl} {field : Field} {names : List String} {n : Nat}

/-- A field with entries is converted by way of these. -/
theorem of_entry (h : Converts entries (.field scope m f) field names n)
    (he : f.entry? entries [] = some (t, e)) : ∃ field' names',
      Converts entries (.map (f.name.getD "") t e) field' names' n ∧
        field = m.place scope f field' ∧ names = f.marked scope ++ names' := by
  cases h with
  | plain he' => simp [he] at he'
  | folded he' hmap =>
    obtain ⟨rfl, rfl⟩ := Prod.mk.inj (Option.some.inj (he.symm.trans he'))
    exact ⟨_, _, hmap, rfl, rfl⟩

/-- Entries with a field for the values are converted by way of this. -/
theorem of_value (h : Converts entries (.map name t e) field names n)
    (hv : e.valueDecl? = some v) : ∃ value k, Converts entries (.field t e v) value names k ∧
      field = .ofMap name e.keyKind value ∧ n = k + 1 := by
  cases h with
  | unvalued hv' => simp [hv] at hv'
  | valued hv' hvalue =>
    obtain rfl := Option.some.inj (hv.symm.trans hv')
    exact ⟨_, _, hvalue, rfl, rfl⟩

theorem unique {c : Conversion} {field field' : Field} {names names' : List String} {n n' : Nat}
    (h : Converts entries c field names n) (h' : Converts entries c field' names' n') :
    field' = field ∧ names' = names ∧ n' = n := by
  induction h generalizing field' names' n' with
  | plain he =>
    cases h' with
    | plain => exact ⟨rfl, rfl, rfl⟩
    | folded he' => simp [he] at he'
  | folded he _ ih =>
    obtain ⟨field'', names'', hmap', rfl, rfl⟩ := h'.of_entry he
    obtain ⟨rfl, rfl, rfl⟩ := ih hmap'
    exact ⟨rfl, rfl, rfl⟩
  | unvalued hv =>
    cases h' with
    | unvalued => exact ⟨rfl, rfl, rfl⟩
    | valued hv' => simp [hv] at hv'
  | valued hv _ ih =>
    obtain ⟨value', k, hvalue', rfl, rfl⟩ := h'.of_value hv
    obtain ⟨rfl, rfl, rfl⟩ := ih hvalue'
    exact ⟨rfl, rfl, rfl⟩

end
end Converts

/-! ## Circles -/

namespace Request

/-- The field stands for a map: it is repeated, and its type is a message that is declared for the
entries of a map. -/
structure StandsForMap (r : Request) (f : FieldDecl) (t : String) (e : MessageDecl) : Prop where
  repeated : f.isRepeated = true
  type : f.reference? = some t
  declared : (t, e) ∈ r.messages
  entry : e.isMapEntry = true

/-- The values of maps with the entries `t` are maps with the entries `t'`. -/
def Leads (r : Request) (t t' : String) : Prop :=
  ∃ e v e', ((t, e) ∈ r.messages ∧ e.isMapEntry = true) ∧ e.valueDecl? = some v ∧
    r.StandsForMap v t' e'

/-- From no entries the values lead back to these. -/
def NoCircle (r : Request) : Prop :=
  ∀ t, ¬ TransGen r.Leads t t

theorem NoCircle.of_rank {r : Request} (rank : String → Nat)
    (h : ∀ t t', r.Leads t t' → rank t' < rank t) : r.NoCircle := by
  have hlt {t t' : String} (ht : TransGen r.Leads t t') : rank t' < rank t := by
    induction ht with
    | single hleads => exact h _ _ hleads
    | tail _ hleads ih => exact (h _ _ hleads).trans ih
  exact fun t ht => Nat.lt_irrefl _ (hlt ht)

/-- From all entries on the path the values lead to the maps that the field stands for. -/
def Behind (r : Request) (path : List String) (f : FieldDecl) : Prop :=
  ∀ s ∈ path, ∀ t e, r.StandsForMap f t e → TransGen r.Leads s t

variable {r : Request} {path : List String} {scope t : String} {m e : MessageDecl}
  {f v : FieldDecl}

theorem some_entry_iff (hd : r.DistinctMessages) :
    f.entry? r.entries path = some (t, e) ↔ r.StandsForMap f t e ∧ t ∉ path := by
  rw [FieldDecl.some_entry_iff, get?_entries hd]
  constructor
  · rintro ⟨hrepeated, htype, hpath, hdeclared, hentry⟩
    exact ⟨⟨hrepeated, htype, hdeclared, hentry⟩, hpath⟩
  · rintro ⟨h, hpath⟩
    exact ⟨h.repeated, h.type, hpath, h.declared, h.entry⟩

/-- Without circles the path makes no difference. -/
theorem Behind.same_entry (hd : r.DistinctMessages) (hc : r.NoCircle) (h : r.Behind path f) :
    f.entry? r.entries path = f.entry? r.entries [] := by
  refine Option.ext fun ⟨t, e⟩ => ?_
  rw [some_entry_iff hd, some_entry_iff hd]
  refine and_congr_right fun hf => ⟨fun _ => List.not_mem_nil, fun _ ht => ?_⟩
  exact hc t (h t ht t e hf)

theorem behind_nil : r.Behind [] f :=
  fun _ hs => absurd hs List.not_mem_nil

theorem Behind.value (h : r.Behind path f) (hf : r.StandsForMap f t e)
    (hv : e.valueDecl? = some v) : r.Behind (t :: path) v := by
  intro s hs t' e' hvalue
  have hleads : r.Leads t t' := ⟨e, v, e', ⟨hf.declared, hf.entry⟩, hv, hvalue⟩
  rcases List.mem_cons.1 hs with rfl | hs
  · exact .single hleads
  · exact .tail (h s hs t e hf) hleads

/-! ## The conversion of a field -/

/-- The conversion with a path ends as the one without: what is on the path stays behind. -/
theorem converts_fieldOf (hd : r.DistinctMessages) (hc : r.NoCircle) (h : r.Behind path f) :
    ∃ n ≤ r.entries.unvisited path, Converts r.entries (.field scope m f)
      (fieldOf r.entries path scope m f) (requiredNames r.entries path scope f) n := by
  induction path, scope, m, f using fieldOf.induct r.entries with
  | case1 path scope m f ih =>
    have hentry := h.same_entry hd hc
    cases he : f.entry? r.entries path with
    | none =>
      rw [fieldOf_of_entry?_none he, requiredNames_of_entry?_none he]
      exact ⟨0, Nat.zero_le _, .plain (hentry ▸ he)⟩
    | some te =>
      obtain ⟨t, e⟩ := te
      have hlt := FieldDecl.unvisited_lt he
      rw [fieldOf_of_entry?_some he, requiredNames_of_entry?_some he]
      cases hv : e.valueDecl? with
      | none => exact ⟨1, by omega, .folded (hentry ▸ he) (.unvalued hv)⟩
      | some v =>
        -- one map more, and one name less that is not on the path
        obtain ⟨n, hn, hvalue⟩ := ih t e he v (h.value ((some_entry_iff hd).1 he).1 hv)
        exact ⟨n + 1, by omega, .folded (hentry ▸ he) (.valued hv hvalue)⟩

theorem unvisited_entries_le (r : Request) (path : List String) :
    r.entries.unvisited path ≤ (r.messages.filter fun m => m.2.isMapEntry).length := by
  have hsub : r.entries.keys ⊆ (r.messages.filter fun m => m.2.isMapEntry).map (·.1) :=
    fun _ => Dict.mem_keys_ofList.1
  calc r.entries.unvisited path
      ≤ r.entries.keys.length := List.length_filter_le _ _
    _ ≤ ((r.messages.filter fun m => m.2.isMapEntry).map (·.1)).length :=
        (List.subperm_of_subset r.entries.nodup_keys hsub).length_le
    _ = (r.messages.filter fun m => m.2.isMapEntry).length := List.length_map _

/-- Without circles every conversion ends, with no more maps inside each other than the request
declares entries of maps. -/
theorem exists_converts (hd : r.DistinctMessages) (hc : r.NoCircle) (scope : String)
    (m : MessageDecl) (f : FieldDecl) :
    ∃ n ≤ (r.messages.filter fun m => m.2.isMapEntry).length,
      Converts r.entries (.field scope m f) (fieldOf r.entries [] scope m f)
        (requiredNames r.entries [] scope f) n := by
  obtain ⟨n, hn, h⟩ := converts_fieldOf hd hc (behind_nil (f := f))
  exact ⟨n, hn.trans (r.unvisited_entries_le []), h⟩

/-- The conversion of entries goes by way of the entries that their values are maps with. -/
theorem converts_of_leads (hd : r.DistinctMessages) {name t' : String} {field : Field}
    {names : List String} {n : Nat} (h : Converts r.entries (.map name t e) field names n)
    (hmem : (t, e) ∈ r.messages) (hleads : r.Leads t t') :
    ∃ name' e' field' names' n', (t', e') ∈ r.messages ∧ n' < n ∧
      Converts r.entries (.map name' t' e') field' names' n' := by
  obtain ⟨e₁, v, e', ⟨hmem₁, -⟩, hv, hvalue⟩ := hleads
  obtain rfl := hd.eq_of_mem hmem hmem₁
  obtain ⟨value, k, hfield, -, rfl⟩ := h.of_value hv
  obtain ⟨field', names', hmap, -⟩ :=
    hfield.of_entry ((some_entry_iff hd).2 ⟨hvalue, List.not_mem_nil⟩)
  exact ⟨_, e', field', names', k, hvalue.declared, Nat.lt_succ_self k, hmap⟩

/-- And so it goes by way of all entries that these lead to. -/
theorem converts_of_transGen (hd : r.DistinctMessages) {name t' : String} {field : Field}
    {names : List String} {n : Nat} (h : Converts r.entries (.map name t e) field names n)
    (hmem : (t, e) ∈ r.messages) (hleads : TransGen r.Leads t t') :
    ∃ name' e' field' names' n', (t', e') ∈ r.messages ∧ n' < n ∧
      Converts r.entries (.map name' t' e') field' names' n' := by
  induction hleads with
  | single hleads => exact converts_of_leads hd h hmem hleads
  | tail _ hleads ih =>
    obtain ⟨name₁, e₁, field₁, names₁, n₁, hmem₁, hlt₁, h₁⟩ := ih
    obtain ⟨name', e', field', names', n', hmem', hlt', h'⟩ :=
      converts_of_leads hd h₁ hmem₁ hleads
    exact ⟨name', e', field', names', n', hmem', hlt'.trans hlt₁, h'⟩

/-- On a circle the conversion goes on forever. -/
theorem not_converts_of_circle (hd : r.DistinctMessages) (hmem : (t, e) ∈ r.messages)
    (hcircle : TransGen r.Leads t t) (name : String) (field : Field) (names : List String)
    (n : Nat) : ¬ Converts r.entries (.map name t e) field names n := by
  induction n using Nat.strongRecOn generalizing name field names with
  | ind n ih =>
    intro h
    obtain ⟨name', e', field', names', n', hmem', hlt, h'⟩ :=
      converts_of_transGen hd h hmem hcircle
    obtain rfl := hd.eq_of_mem hmem hmem'
    exact ih n' hlt name' field' names' h'

/-- The conversion of every field ends if and only if there are no circles. -/
theorem noCircle_iff (hd : r.DistinctMessages) : r.NoCircle ↔
    ∀ scope m f, ∃ field names n, Converts r.entries (.field scope m f) field names n := by
  constructor
  · intro hc scope m f
    obtain ⟨n, -, h⟩ := exists_converts hd hc scope m f
    exact ⟨_, _, n, h⟩
  · intro h t hcircle
    obtain ⟨s, -, e, v, e', -, hv, hvalue⟩ := TransGen.tail'_iff.1 hcircle
    obtain ⟨field, names, n, hfield⟩ := h "" e v
    obtain ⟨field', names', hmap, -⟩ :=
      hfield.of_entry ((some_entry_iff hd).2 ⟨hvalue, List.not_mem_nil⟩)
    exact not_converts_of_circle hd hvalue.declared hcircle _ _ _ _ hmap

end Request

/-! ## The fields that come out -/

section
variable {entries : Dict MessageDecl} {scope : String} {m : MessageDecl} {f : FieldDecl}

theorem cardinality_place (field : Field) :
    (m.place scope f field).cardinality = field.cardinality := by
  rw [MessageDecl.place]
  split <;> rfl

theorem typeName_place (field : Field) : (m.place scope f field).typeName = field.typeName := by
  rw [MessageDecl.place]
  split <;> rfl

theorem cardinality_plain :
    f.plain.cardinality = if f.isRepeated then .list else .singular := by
  unfold FieldDecl.plain
  dsimp only
  split <;> split <;> rfl

theorem typeName_plain : f.plain.typeName = f.reference? := by
  unfold FieldDecl.plain
  dsimp only
  split <;> split <;> simp_all [Field.repeated, Field.withTypeName, Field.ofKind]

/-- The values of the field, at any depth of maps, are no lists of the entries of a map. -/
def Field.ListsNoEntries (entries : Dict MessageDecl) (field : Field) : Prop :=
  field.leaf.cardinality = .list → ∀ t, field.leaf.typeName = some t → entries.get? t = none

theorem Field.ListsNoEntries.place {field : Field} (h : field.ListsNoEntries entries) :
    (m.place scope f field).ListsNoEntries entries := by
  by_cases hmap : ∃ key value, field.cardinality = .map key value
  · obtain ⟨key, value, hc⟩ := hmap
    rw [ListsNoEntries, leaf_map ((cardinality_place field).trans hc), ← leaf_map hc]
    exact h
  · have hitem : ∀ key value, field.cardinality ≠ .map key value := by simpa using hmap
    rw [ListsNoEntries, leaf_item (by simpa [cardinality_place] using hitem), cardinality_place,
      typeName_place]
    rwa [ListsNoEntries, leaf_item hitem] at h

theorem listsNoEntries_plain (h : f.entry? entries [] = none) : f.plain.ListsNoEntries entries := by
  have hc : f.plain.leaf = f.plain := by
    refine leaf_item fun key value => ?_
    rw [cardinality_plain]
    split <;> simp
  rw [Field.ListsNoEntries, hc, cardinality_plain, typeName_plain]
  intro hlist t ht
  have hrepeated : f.isRepeated = true := by
    by_contra hr
    simp [hr] at hlist
  refine Option.eq_none_iff_forall_ne_some.2 fun e he => ?_
  have hentry := FieldDecl.some_entry_iff.2 ⟨hrepeated, ht, List.not_mem_nil, he⟩
  simp [h] at hentry

theorem Field.ListsNoEntries.ofMap {value : Field} (h : value.ListsNoEntries entries)
    (name : String) (key : FieldKind) : (Field.ofMap name key value).ListsNoEntries entries := by
  rw [ListsNoEntries, leaf_map rfl]
  exact h

theorem listsNoEntries_defaultValue : MessageDecl.defaultValue.ListsNoEntries entries := by
  rw [Field.ListsNoEntries, leaf_item (by simp [MessageDecl.defaultValue, Field.ofKind])]
  simp [MessageDecl.defaultValue, Field.ofKind]

/-- A conversion leaves no list of the entries of a map. -/
theorem Converts.listsNoEntries {c : Conversion} {field : Field} {names : List String} {n : Nat}
    (h : Converts entries c field names n) : field.ListsNoEntries entries := by
  induction h with
  | plain he => exact (listsNoEntries_plain he).place
  | folded _ _ ih => exact ih.place
  | unvalued => exact listsNoEntries_defaultValue.ofMap _ _
  | valued _ _ ih => exact ih.ofMap _ _

/-- The field is a map with the entries `t`: its keys are of the kind that these say, and its values
are what the field for the values is converted to. -/
def Field.IsMapOf (entries : Dict MessageDecl) (t : String) (e : MessageDecl) (field : Field) :
    Prop :=
  ∃ value, field.cardinality = .map e.keyKind value ∧
    (e.valueDecl? = none → value = MessageDecl.defaultValue) ∧
    ∀ v, e.valueDecl? = some v → ∃ names n, Converts entries (.field t e v) value names n

theorem Converts.isMapOf {field : Field} {names : List String} {n : Nat} {t : String}
    {e : MessageDecl} (he : f.entry? entries [] = some (t, e))
    (h : Converts entries (.field scope m f) field names n) : field.IsMapOf entries t e := by
  obtain ⟨field', names', hmap, rfl, -⟩ := h.of_entry he
  cases hv : e.valueDecl? with
  | none =>
    cases hmap with
    | unvalued => exact ⟨_, cardinality_place _, fun _ => rfl, fun v hv' => by simp [hv] at hv'⟩
    | valued hv' => simp [hv] at hv'
  | some v =>
    obtain ⟨value, k, hvalue, rfl, -⟩ := hmap.of_value hv
    refine ⟨value, cardinality_place _, fun hv' => by simp [hv] at hv', fun v' hv' => ?_⟩
    obtain rfl := Option.some.inj (hv.symm.trans hv')
    exact ⟨names', k, hvalue⟩

end

/-! ## The maps of a request -/

/-- The maps of the request stand in the corpus in place of their entries. -/
structure Corpus.Folds (r : Request) (c : Corpus) : Prop where
  /-- Every field has one conversion, and in it there are no more maps inside each other than the
  request declares entries of maps. -/
  ends : ∀ scope m f, ∃ field names n,
    n ≤ (r.messages.filter fun m => m.2.isMapEntry).length ∧
    ∀ field' names' n', Converts r.entries (.field scope m f) field' names' n' ↔
      field' = field ∧ names' = names ∧ n' = n
  /-- The messages are the declared ones, with the conversions of their fields. -/
  messages : ∀ n d, (n, d) ∈ r.messages → d.isMapEntry = false → ∃ fields,
    c.pool.message? n = some ⟨n, fields⟩ ∧
    List.Forall₂ (fun f field => ∃ names k, Converts r.entries (.field n d f) field names k)
      d.fields fields
  /-- What stands for a map becomes one. -/
  maps : ∀ scope m f field names n, Converts r.entries (.field scope m f) field names n →
    ∀ t e, r.StandsForMap f t e → field.IsMapOf r.entries t e
  lists : ∀ n m, c.pool.message? n = some m → ∀ f ∈ m.fields, f.leaf.cardinality = .list →
    ∀ t, f.leaf.typeName = some t → ∀ e, (t, e) ∈ r.messages → e.isMapEntry = false
  required : ∀ x, c.required.contains x = true ↔
    ∃ n d f, (n, d) ∈ r.messages ∧ d.isMapEntry = false ∧ f ∈ d.fields ∧
      ∃ field names k, Converts r.entries (.field n d f) field names k ∧ x ∈ names

namespace Corpus

variable {r : Request}

/-- No field of the pool is a list of the entries of a map. -/
theorem isMapEntry_of_list (hd : r.DistinctMessages) (hc : r.NoCircle) {n t : String} {m : Message}
    {f : Field} {e : MessageDecl} (hm : (poolOf r).message? n = some m) (hf : f ∈ m.fields)
    (hlist : f.leaf.cardinality = .list) (ht : f.leaf.typeName = some t)
    (he : (t, e) ∈ r.messages) : e.isMapEntry = false := by
  obtain ⟨d, -, rfl⟩ := (message?_poolOf hd).1 hm
  obtain ⟨f', -, rfl⟩ := List.mem_map.1 hf
  obtain ⟨k, -, h⟩ := Request.exists_converts hd hc n d f'
  have hnone := h.listsNoEntries hlist t ht
  by_contra hentry
  have hsome := (Request.get?_entries hd).2 ⟨he, by simpa using hentry⟩
  simp [hnone] at hsome

/-- The required fields are those that are met in the conversions. -/
theorem contains_requiredOf_iff_converts (hd : r.DistinctMessages) (hc : r.NoCircle) {x : String} :
    (requiredOf r).contains x = true ↔
      ∃ n d f, (n, d) ∈ r.messages ∧ d.isMapEntry = false ∧ f ∈ d.fields ∧
        ∃ field names k, Converts r.entries (.field n d f) field names k ∧ x ∈ names := by
  rw [contains_requiredOf_iff]
  constructor
  · rintro ⟨⟨n, d⟩, hmem, f, hf, hx⟩
    obtain ⟨k, -, h⟩ := Request.exists_converts hd hc n d f
    obtain ⟨hmem, hordinary⟩ := Request.mem_ordinary.1 hmem
    exact ⟨n, d, f, hmem, hordinary, hf, _, _, k, h, hx⟩
  · rintro ⟨n, d, f, hmem, hordinary, hf, field, names, k, h, hx⟩
    obtain ⟨k', -, h'⟩ := Request.exists_converts hd hc n d f
    obtain ⟨rfl, rfl, rfl⟩ := h'.unique h
    exact ⟨(n, d), Request.mem_ordinary.2 ⟨hmem, hordinary⟩, f, hf, hx⟩

/-- **Maps.** Where no two messages have one name and no entries lead back to themselves, the
conversion of every field ends, and repeated fields of entries become maps. -/
theorem folds_ofRequest (r : Request) (hd : r.DistinctMessages) (hc : r.NoCircle) :
    (ofRequest r).Folds r where
  ends := by
    intro scope m f
    obtain ⟨n, hn, h⟩ := Request.exists_converts hd hc scope m f
    refine ⟨_, _, n, hn, fun field' names' n' => ⟨h.unique, ?_⟩⟩
    rintro ⟨rfl, rfl, rfl⟩
    exact h
  messages := by
    intro n d hmem hordinary
    refine ⟨_, (message?_poolOf hd).2 ⟨d, Request.mem_ordinary.2 ⟨hmem, hordinary⟩, rfl⟩, ?_⟩
    refine List.forall₂_map_right_iff.2 (List.forall₂_same.2 fun f _ => ?_)
    obtain ⟨k, -, h⟩ := Request.exists_converts hd hc n d f
    exact ⟨_, k, h⟩
  maps := fun _ _ _ _ _ _ h _ _ hf =>
    h.isMapOf ((Request.some_entry_iff hd).2 ⟨hf, List.not_mem_nil⟩)
  lists := fun _ _ hm _ hf hlist _ ht _ he => isMapEntry_of_list hd hc hm hf hlist ht he
  required := fun _ => contains_requiredOf_iff_converts hd hc

end Corpus

/-! ## Maps of maps -/

/-- Entries that say nothing of their keys and values. -/
def pricesEntry : MessageDecl :=
  { name := some "PricesEntry", fields := [], nested := [], enums := []
    options := some ⟨some true⟩, oneofs := [] }

def pricesField : FieldDecl :=
  ⟨some "value", some 2, some 3, some 11, some ".shop.maps.LinesEntry.PricesEntry", none, none,
    none⟩

/-- Entries whose values are maps, with the values before the keys. -/
def linesEntry : MessageDecl :=
  { name := some "LinesEntry"
    fields := [pricesField, ⟨some "key", some 1, some 1, some 5, none, none, none, none⟩]
    nested := [pricesEntry], enums := [], options := some ⟨some true⟩, oneofs := [] }

def linesField : FieldDecl :=
  ⟨some "lines", some 1, some 3, some 11, some ".shop.maps.LinesEntry", none, none, none⟩

def cartDecl : MessageDecl :=
  { name := some "Cart", fields := [linesField], nested := [], enums := [], options := none
    oneofs := [] }

/-- A map whose entries are declared in a file behind. -/
def cartRequest : Request :=
  ⟨[], none, [⟨some "cart.proto", some "shop", [cartDecl], [], [], none⟩,
    ⟨some "maps.proto", some "shop.maps", [linesEntry], [], [], none⟩]⟩

theorem messages_cartRequest : cartRequest.messages = [("shop.Cart", cartDecl),
    ("shop.maps.LinesEntry.PricesEntry", pricesEntry), ("shop.maps.LinesEntry", linesEntry)] := by
  rfl

theorem noCircle_cartRequest : cartRequest.NoCircle := by
  refine .of_rank (fun t => if t = "shop.maps.LinesEntry" then 1 else 0) ?_
  rintro t t' ⟨e, v, e', ⟨hmem, hentry⟩, hv, hvalue⟩
  rw [messages_cartRequest] at hmem
  simp only [List.mem_cons, Prod.mk.injEq, List.not_mem_nil, or_false] at hmem
  rcases hmem with ⟨rfl, rfl⟩ | ⟨rfl, rfl⟩ | ⟨rfl, rfl⟩
  · cases hentry
  · cases hv
  · obtain rfl := Option.some.inj hv
    obtain rfl := Option.some.inj hvalue.type
    decide

/-- The field becomes a map whose values are maps from strings to strings. -/
theorem folds_ofRequest_cartRequest :
    cartRequest.DistinctMessages ∧ cartRequest.NoCircle ∧
      (Corpus.ofRequest cartRequest).Folds cartRequest ∧
      ∃ field names value,
        Converts cartRequest.entries (.field "shop" cartDecl linesField) field names 2 ∧
        field.cardinality = .map .int32 value ∧
        value.cardinality = .map .string MessageDecl.defaultValue := by
  have hd : cartRequest.DistinctMessages := by
    rw [Request.DistinctMessages, messages_cartRequest]
    decide
  have hlines : linesField.entry? cartRequest.entries []
      = some ("shop.maps.LinesEntry", linesEntry) := by
    refine (Request.some_entry_iff hd).2 ⟨⟨rfl, by decide, ?_, rfl⟩, List.not_mem_nil⟩
    exact messages_cartRequest ▸ .tail _ (.tail _ (.head _))
  have hprices : pricesField.entry? cartRequest.entries []
      = some ("shop.maps.LinesEntry.PricesEntry", pricesEntry) := by
    refine (Request.some_entry_iff hd).2 ⟨⟨rfl, by decide, ?_, rfl⟩, List.not_mem_nil⟩
    exact messages_cartRequest ▸ .tail _ (.head _)
  have hfolds := Corpus.folds_ofRequest cartRequest hd noCircle_cartRequest
  refine ⟨hd, noCircle_cartRequest, hfolds, _, _, _,
    .folded hlines (.valued rfl (.folded hprices (.unvalued rfl))), cardinality_place _, ?_⟩
  exact cardinality_place _

end McpCatalog
