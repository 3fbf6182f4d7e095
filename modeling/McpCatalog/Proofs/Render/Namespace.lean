import McpCatalog.Proofs.Render.Module
/-!
# The names that a Rust module declares

A constant is a name for a value; a structure with named fields and a module are names for types.
Modules have no upper-case letter, which keeps them apart from the structure of tools. The list of
all tools is a constant as well, and nothing keeps the constants of the tools apart from it.

Results:
* `constant_eq_tools_iff`: the keys whose constant has the name of the list.
* `valueNames_declared`, `typeNames_declared`: the names that the module of a catalog declares.
* `names_of_rustText`: the names for types are distinct, those for values with one exception.
-/
namespace McpCatalog

namespace Identifier

theorem toLower_toUpper {c : Char} (h : isWordChar c = true) : c.toUpper.toLower = c :=
  forall_ascii (P := fun c => isWordChar c = true → c.toUpper.toLower = c) (by decide +kernel)
    (toNat_lt_of_isAlphanum (isAlphanum_of_isWordChar h)) h

/-- Joined words are found again in their upper-case form. -/
theorem map_toLower_joined (name : List Char) :
    ((['_'].intercalate (words name)).map Char.toUpper).map Char.toLower
      = ['_'].intercalate (words name) := by
  rw [List.map_map]
  conv_rhs => rw [← List.map_id (['_'].intercalate (words name))]
  apply List.map_congr_left
  intro c hc
  cases mem_joined hc with
  | inl hword => exact toLower_toUpper hword
  | inr hunderscore =>
    rw [hunderscore]
    rfl

/-- The constant of a key is called as the list of all tools if the only word of the key is. -/
theorem constant_eq_tools_iff {key : String} :
    constant key = "TOOLS" ↔ words key.toList = ["tools".toList] := by
  constructor
  case mpr =>
    intro h
    unfold constant
    rw [h]
    rfl
  case mp =>
    intro h
    have hchars : guarded ((['_'].intercalate (words key.toList)).map Char.toUpper)
        = "TOOLS".toList := by
      rw [← h, constant, String.toList_ofList]
    have hjoined : (['_'].intercalate (words key.toList)).map Char.toUpper = "TOOLS".toList := by
      unfold guarded at hchars
      split at hchars
      · exact absurd hchars (by decide)
      · split at hchars
        · exact absurd (List.cons.inj hchars).1 (by decide)
        · exact hchars
    have hlower : ['_'].intercalate (words key.toList) = "tools".toList := by
      rw [← map_toLower_joined, hjoined]
      rfl
    exact (joined_eq_iff (by decide) (by decide)).1 hlower

end Identifier

namespace Render

/-! ## Namespaces -/

/-- The name for a value that is declared. -/
def Declaration.valueName? : Declaration → Option String
  | .tool name _ => some name
  | .list name _ => some name
  | .record .. => none
  | .service .. => none

/-- The name for a type or a module that is declared. -/
def Declaration.typeName? : Declaration → Option String
  | .record name _ => some name
  | .service name _ => some name
  | .tool .. => none
  | .list .. => none

def valueNames (is : List Item) : List String :=
  is.filterMap fun i => i.declares.valueName?

def typeNames (is : List Item) : List String :=
  is.filterMap fun i => i.declares.typeName?

theorem valueNames_append (is js : List Item) :
    valueNames (is ++ js) = valueNames is ++ valueNames js :=
  List.filterMap_append

theorem typeNames_append (is js : List Item) :
    typeNames (is ++ js) = typeNames is ++ typeNames js :=
  List.filterMap_append

theorem valueNames_declared (c : Catalog) :
    valueNames (declared c) = c.tools.keys.map Identifier.constant ++ ["TOOLS"] := by
  have htools : valueNames (c.tools.entries.map fun e => toolItem (Identifier.constant e.1) e.2)
      = c.tools.keys.map Identifier.constant := by
    unfold valueNames Dict.keys
    rw [List.filterMap_map, List.map_map]
    exact congrFun List.filterMap_eq_map _
  have hservices : valueNames (c.services.keys.map fun s =>
      serviceItem (Identifier.moduleName s) s ((c.methods s).keys.map (methodEntry s))) = [] := by
    unfold valueNames
    rw [List.filterMap_map, List.filterMap_eq_nil_iff]
    intro s _
    rfl
  unfold declared
  rw [valueNames_append, valueNames_append, valueNames_append, htools, hservices, List.append_nil]
  rfl

theorem typeNames_declared (c : Catalog) :
    typeNames (declared c) = "McpTool" :: c.services.keys.map Identifier.moduleName := by
  have htools : typeNames (c.tools.entries.map fun e => toolItem (Identifier.constant e.1) e.2)
      = [] := by
    unfold typeNames
    rw [List.filterMap_map, List.filterMap_eq_nil_iff]
    intro e _
    rfl
  have hservices : typeNames (c.services.keys.map fun s =>
      serviceItem (Identifier.moduleName s) s ((c.methods s).keys.map (methodEntry s)))
        = c.services.keys.map Identifier.moduleName := by
    unfold typeNames
    rw [List.filterMap_map]
    exact congrFun List.filterMap_eq_map _
  unfold declared
  rw [typeNames_append, typeNames_append, typeNames_append, htools, hservices, List.append_nil]
  exact List.append_nil _

/-! ## Distinct names -/

theorem ne_mcpTool_of_mem {names : List String} {m : String}
    (h : m ∈ names.map Identifier.moduleName) : m ≠ "McpTool" := by
  intro heq
  obtain ⟨service, -, rfl⟩ := List.mem_map.1 h
  have hupper : 'M' ∈ (Identifier.moduleName service).toList := by
    rw [heq]
    decide
  cases Identifier.isWordChar_moduleName hupper with
  | inl hword => exact absurd hword (by decide)
  | inr hunderscore => exact absurd hunderscore (by decide)

/-- **Names of a module.** A text that declares the items of a catalog declares distinct names for
types. The names for values are distinct if and only if no key of a tool has "tools" as its only
word: the constant of such a tool has the name of the list of all tools. -/
theorem names_of_rustText {a : Artifact} {text : String} (h : rustText a = .ok text) :
    Written (header a) (declared a.catalog) text ∧ (typeNames (declared a.catalog)).Nodup ∧
    ((valueNames (declared a.catalog)).Nodup ↔
      ∀ k ∈ a.catalog.tools.keys, Identifier.words k.toList ≠ ["tools".toList]) := by
  obtain ⟨hconstants, hmodules, -⟩ := rustText_eq_ok_iff.1 h
  refine ⟨written_of_rustText h, ?_, ?_⟩
  · rw [typeNames_declared, List.nodup_cons]
    exact ⟨fun hmem => ne_mcpTool_of_mem hmem rfl, hmodules⟩
  · rw [valueNames_declared, List.nodup_append_comm, List.singleton_append, List.nodup_cons]
    constructor
    · intro ⟨hlist, _⟩ k hk hwords
      exact hlist (List.mem_map.2 ⟨k, hk, Identifier.constant_eq_tools_iff.2 hwords⟩)
    · intro hwords
      refine ⟨?_, hconstants⟩
      intro hmem
      obtain ⟨k, hk, hconstant⟩ := List.mem_map.1 hmem
      exact hwords k hk (Identifier.constant_eq_tools_iff.1 hconstant)

theorem names_of_rustText_weatherFile :
    ∃ a text, (Generator.generate ⟨.empty, fun _ => false, 64⟩ weatherFile).result = .ok (some a) ∧
      rustText a = .ok text ∧ (typeNames (declared a.catalog)).Nodup ∧
      (valueNames (declared a.catalog)).Nodup := by
  obtain ⟨a, text, hresult, htext, hconstants, -⟩ := exists_rustText weatherFile_identifiers
    (by decide) (by decide)
  obtain ⟨-, htypes, hvalues⟩ := names_of_rustText htext
  refine ⟨a, text, hresult, htext, htypes, hvalues.2 ?_⟩
  intro k hk hwords
  have hmem : "TOOLS" ∈ a.catalog.tools.keys.map Identifier.constant :=
    List.mem_map.2 ⟨k, hk, Identifier.constant_eq_tools_iff.2 hwords⟩
  rw [hconstants] at hmem
  exact absurd hmem (by decide)

/-- A service whose name has no word, with a method `Tools`. -/
def wordlessFile : SourceFile :=
  ⟨"wordless.proto", "demo", "wordless", true,
    [⟨"_", "demo._", [⟨"Tools", "demo._.Tools", "demo.Query", "demo.Answer", false, false, ""⟩]⟩]⟩

/-- The file has a text, and `TOOLS` is declared twice in it. -/
theorem wordlessFile_names :
    ∃ a text is, (Generator.generate ⟨.empty, fun _ => false, 64⟩ wordlessFile).result
        = .ok (some a) ∧
      rustText a = .ok text ∧ readText? text = some is ∧ ¬ (valueNames is).Nodup := by
  have hidentifiers : (Generator.generate ⟨.empty, fun _ => false, 64⟩ wordlessFile).artifact?.map
      identifiers = some (["TOOLS"], ["_unnamed"]) := by decide +kernel
  obtain ⟨a, text, hresult, htext, hconstants, -⟩ := exists_rustText hidentifiers
    (by decide) (by decide)
  have hinline : Inline a := inline_of_artifact? (by decide +kernel) hresult
  refine ⟨a, text, _, hresult, htext, readText?_rustText htext hinline, ?_⟩
  rw [valueNames_declared, hconstants]
  decide

end Render
end McpCatalog
