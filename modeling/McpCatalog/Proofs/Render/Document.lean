import McpCatalog.Proofs.Catalog.Calls
import McpCatalog.Proofs.Json.Canonical
import McpCatalog.Proofs.Json.Reading
import McpCatalog.Proofs.Render.Module
import McpCatalog.Proofs.Schema.Naming
/-!
# The JSON document of a catalog

The text of a document is read back by a JSON reader. What stands in the document then is found by
paths of names: the services with their methods, the tools under their keys, and the schemas with
their digests. A digest is made from the canonical text of a schema, which is made from the schema
as it is read back.

Results:
* `hexadecimal_hex`: what is written for bytes, two digits for each.
* `get?_toolEntries`: the entries of tools, by key.
* `documents_jsonDocument`: what the document says.
* `jsonText_of_generate`: what is read from the text for a file.
-/
namespace McpCatalog

/-! ## Paths -/

namespace Json

/-- The value that a path of names leads to. -/
def at? (v : Json) (path : List String) : Option Json :=
  path.foldlM get? v

/-- The names of the members of an object, in order. -/
def names? : Json → Option (List String)
  | .obj ms => some (ms.map (·.1))
  | _ => none

theorem at?_cons (v : Json) (name : String) (path : List String) :
    v.at? (name :: path) = (v.get? name).bind fun w => w.at? path := rfl

end Json

/-! ## Hexadecimal texts -/

/-- The text has two digits for each byte, from `0` to `9` and from `a` to `f`, that of the upper
half of the byte first. -/
inductive Hexadecimal : Bytes → List Char → Prop
  | nil : Hexadecimal [] []
  | cons {b : UInt8} {bytes : Bytes} {upper lower : Char} {text : List Char}
    (hupper : Json.hexDigits[b.toNat / 16]? = some upper)
    (hlower : Json.hexDigits[b.toNat % 16]? = some lower) (h : Hexadecimal bytes text) :
    Hexadecimal (b :: bytes) (upper :: lower :: text)

theorem hexadecimal_hex (bytes : Bytes) : Hexadecimal bytes (Numeral.hex bytes) := by
  induction bytes with
  | nil => exact .nil
  | cons b bytes ih =>
    have hb : b.toNat < 256 := b.toNat_lt
    exact .cons (Json.hexDigits_getElem? (by omega)) (Json.hexDigits_getElem? (by omega)) ih

/-! ## Documents -/

/-- Only a service of the catalog has methods. -/
theorem Catalog.mem_services_of_mem_methods {c : Catalog} {s m : String}
    (h : m ∈ (c.methods s).keys) : s ∈ c.services.keys := by
  rw [Dict.mem_keys_iff]
  unfold methods at h
  cases hs : c.services.get? s with
  | none =>
    rw [hs] at h
    cases h
  | some tools => rfl

namespace Render

/-- The document says what was generated. -/
structure Documents (doc : Json) (a : Artifact) : Prop where
  /-- No name is repeated, so that paths lead to one place. -/
  distinct : doc.Distinct
  package : doc.at? ["package"] = some (.str a.package)
  sourcePath : doc.at? ["source_path"] = some (.str a.sourcePath)
  moduleName : doc.at? ["module_name"] = some (.str a.moduleName)
  tools : (doc.at? ["tools"]).bind Json.names? = some a.catalog.tools.keys
  services : (doc.at? ["services"]).bind Json.names? = some a.catalog.services.keys
  methods : ∀ s ∈ a.catalog.services.keys,
    (doc.at? ["services", s]).bind Json.names? = some (a.catalog.methods s).keys
  /-- A method has one entry, which stands in both places. -/
  entries : ∀ s, ∀ m ∈ (a.catalog.methods s).keys, ∃ entry,
    doc.at? ["services", s, m] = some entry ∧ doc.at? ["tools", s ++ "_" ++ m] = some entry
  /-- The digest is that of the schema in the same entry, in hexadecimal digits. -/
  schemas : ∀ k t, a.catalog.tools.get? k = some t → ∃ schema value,
    doc.at? ["tools", k, "input_schema"] = some schema ∧ schema = t.inputSchema ∧
    doc.at? ["tools", k, "input_schema_digest", "value"] = some (.str value) ∧
    Hexadecimal (Digest.sha256 (Text.toBytes schema.canonical)) value.toList

theorem names?_map_entries {α : Type} (d : Dict α) (f : α → Json) :
    (Json.obj (d.entries.map fun e => (e.1, f e.2))).names? = some d.keys := by
  simp [Json.names?, Dict.keys]

theorem get?_map_entries {α : Type} (d : Dict α) (f : α → Json) (k : String) :
    (Json.obj (d.entries.map fun e => (e.1, f e.2))).get? k = (d.get? k).map f := by
  unfold Json.get? Dict.get?
  dsimp only
  induction d.entries with
  | nil => rfl
  | cons e es ih =>
    rw [List.map_cons, List.lookup_cons, List.lookup_cons, ih]
    cases k == e.1 <;> rfl

theorem get?_toolEntries (tools : Dict Tool) (k : String) :
    (toolEntries tools).get? k = (tools.get? k).map toolEntry :=
  get?_map_entries tools toolEntry k

theorem get?_services (a : Artifact) : (jsonDocument a).get? "services" =
    some (.obj (a.catalog.services.entries.map fun e => (e.1, toolEntries e.2))) := rfl

theorem get?_tools (a : Artifact) :
    (jsonDocument a).get? "tools" = some (toolEntries a.catalog.tools) := rfl

/-- The entries of the methods of a service. -/
theorem at?_service {a : Artifact} {s : String} (hs : s ∈ a.catalog.services.keys)
    (path : List String) : (jsonDocument a).at? ("services" :: s :: path)
      = (toolEntries (a.catalog.methods s)).at? path := by
  obtain ⟨tools, htools⟩ := Option.isSome_iff_exists.1 (Dict.mem_keys_iff.1 hs)
  rw [Json.at?_cons, get?_services, Option.bind_some, Json.at?_cons, get?_map_entries,
    Catalog.methods, htools]
  rfl

/-- The entry of a tool under its key. -/
theorem at?_tool {a : Artifact} {k : String} {t : Tool} (ht : a.catalog.tools.get? k = some t)
    (path : List String) :
    (jsonDocument a).at? ("tools" :: k :: path) = (toolEntry t).at? path := by
  rw [Json.at?_cons, get?_tools, Option.bind_some, Json.at?_cons, get?_toolEntries, ht]
  rfl

/-- The schema of a tool has no repeated name, and the text that comes with it is its canonical
one. -/
def WellMade (t : Tool) : Prop :=
  t.inputSchema.Distinct ∧ t.rawInputSchema = t.inputSchema.canonical

theorem distinct_toolEntry {t : Tool} (h : t.inputSchema.Distinct) : (toolEntry t).Distinct := by
  have hhash : (hashValue (Hash.sha256 t.rawInputSchema)).Distinct :=
    Json.distinct_obj (by simp) (by simp)
  refine Json.distinct_obj (by simp) ?_
  simp [h, hhash]

theorem distinct_toolEntries {tools : Dict Tool} (h : ∀ k t, tools.get? k = some t → WellMade t) :
    (toolEntries tools).Distinct := by
  refine Json.distinct_obj ?_ fun e he => ?_
  · rw [List.map_map]
    exact tools.nodup_keys
  · obtain ⟨⟨k, t⟩, ht, rfl⟩ := List.mem_map.1 he
    exact distinct_toolEntry (h k t (Dict.mem_entries_iff.1 ht)).1

theorem distinct_jsonDocument {a : Artifact} (hconsistent : a.catalog.Consistent)
    (hmade : ∀ k t, a.catalog.tools.get? k = some t → WellMade t) : (jsonDocument a).Distinct := by
  have hservices : (Json.obj (a.catalog.services.entries.map fun e =>
      (e.1, toolEntries e.2))).Distinct := by
    refine Json.distinct_obj ?_ fun e he => ?_
    · rw [List.map_map]
      exact a.catalog.services.nodup_keys
    · obtain ⟨⟨s, tools⟩, hs, rfl⟩ := List.mem_map.1 he
      refine distinct_toolEntries fun m t ht => ?_
      rw [← Catalog.methods_of_mem_entries hs] at ht
      exact hmade _ t (hconsistent.tools s m t ht)
  have htools := distinct_toolEntries hmade
  refine Json.distinct_obj (by simp) ?_
  simp [hservices, htools]

theorem documents_jsonDocument {a : Artifact} (hconsistent : a.catalog.Consistent)
    (hmade : ∀ k t, a.catalog.tools.get? k = some t → WellMade t) :
    Documents (jsonDocument a) a where
  distinct := distinct_jsonDocument hconsistent hmade
  package := rfl
  sourcePath := rfl
  moduleName := rfl
  tools := names?_map_entries _ _
  services := names?_map_entries _ _
  methods := by
    intro s hs
    rw [at?_service hs]
    exact names?_map_entries _ _
  entries := by
    intro s m hm
    obtain ⟨t, ht⟩ := Option.isSome_iff_exists.1 (Dict.mem_keys_iff.1 hm)
    refine ⟨toolEntry t, ?_, at?_tool (hconsistent.tools s m t ht) []⟩
    rw [at?_service (Catalog.mem_services_of_mem_methods hm), Json.at?_cons, get?_toolEntries, ht]
    rfl
  schemas := by
    intro k t ht
    refine ⟨t.inputSchema, _, at?_tool ht _, rfl, at?_tool ht _, ?_⟩
    rw [← (hmade k t ht).2, Hash.sha256, String.toList_ofList]
    exact hexadecimal_hex _

theorem wellMade_of_generate {g : Generator} {f : SourceFile} {a : Artifact}
    (h : (g.generate f).result = .ok (some a)) {k : String} {t : Tool}
    (ht : a.catalog.tools.get? k = some t) : WellMade t := by
  obtain ⟨catalog, events, rfl, hholds⟩ := Generator.artifact_of_generate h
  obtain ⟨e, he, -, rfl⟩ := (hholds.tools k t).1 ht
  obtain ⟨d, hd, m, hm, hunary, rfl⟩ := Generator.mem_entries.1 he
  exact ⟨Builder.distinct_messageSchema _ _, rfl⟩

/-- **The JSON document of a file.** The text for a file is read as a document that says what was
generated: where it comes from, the services with their methods, the tools with their keys, each
with its schema and the SHA-256 digest of that schema as it is read. These are the services and
unary methods of the file, and a method has the same entry under its service and under its key. -/
theorem jsonText_of_generate {g : Generator} {f : SourceFile} {a : Artifact}
    (h : (g.generate f).result = .ok (some a)) :
    a.catalog.Lists f ∧ ∃ doc, Json.read? (jsonText a) = some doc ∧ Documents doc a := by
  have hmade : ∀ k t, a.catalog.tools.get? k = some t → WellMade t :=
    fun k t ht => wellMade_of_generate h ht
  obtain ⟨catalog, events, rfl, hholds⟩ := Generator.artifact_of_generate h
  exact ⟨hholds.lists, _, Json.read?_pretty _, documents_jsonDocument hholds.consistent hmade⟩

theorem jsonText_of_generate_weatherFile :
    ∃ a doc, (Generator.generate ⟨.empty, fun _ => false, 64⟩ weatherFile).result = .ok (some a) ∧
      Json.read? (jsonText a) = some doc ∧ Documents doc a ∧
      (doc.at? ["services"]).bind Json.names? = some ["Type", "WeatherStation"] ∧
      (doc.at? ["tools"]).bind Json.names? = some ["WeatherStation_ReadHTTPStatus"] := by
  have hkeys : (Generator.generate ⟨.empty, fun _ => false, 64⟩ weatherFile).artifact?.map
      (fun a => (a.catalog.services.keys, a.catalog.tools.keys))
        = some (["Type", "WeatherStation"], ["WeatherStation_ReadHTTPStatus"]) := by
    decide +kernel
  obtain ⟨a, ha, hkeys⟩ := Option.map_eq_some_iff.1 hkeys
  obtain ⟨hservices, htools⟩ := Prod.mk.inj hkeys
  have hresult := Report.artifact?_eq_some_iff.1 ha
  obtain ⟨-, doc, hread, hdoc⟩ := jsonText_of_generate hresult
  exact ⟨a, doc, hresult, hread, hdoc, hservices ▸ hdoc.services, htools ▸ hdoc.tools⟩

end Render
end McpCatalog
