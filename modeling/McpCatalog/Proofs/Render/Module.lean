import Mathlib.Data.List.Forall2
import McpCatalog.Proofs.Generation.Filling
import McpCatalog.Proofs.Render.Text
/-!
# The Rust module of a catalog

Identifiers are given to the keys of the tools and to the names of the services first; then the
items are written, and each identifier in them is looked up. A method is looked up by a key that is
put together again, so that no look-up misses as long as the parts of the catalog agree.

Results:
* `forall₂_declared`: what holds of each sort of item holds of all items of a catalog.
* `forall₂_items`: each item of the text declares what the catalog has in its place.
* `lookedUp?_eq`: all identifiers are found.
* `readText?_rustText_iff`: what is declared is read back from the text if and only if no name
  breaks a comment.
* `rustText_eq_error_iff`: a module fails if and only if two names are folded into one identifier.
* `rustText_of_generate`: what the module of a file says.
* `sublist_lines`, `injectedFile_constants`: a path with a line break brings a line of its own.
-/
namespace McpCatalog

open Identifier (assign)

/-! ## What comes out of a file -/

/-- The tools that were generated, if any. -/
def Report.artifact? (r : Report) : Option Artifact :=
  r.result.toOption.join

theorem Report.artifact?_eq_some_iff {r : Report} {a : Artifact} :
    r.artifact? = some a ↔ r.result = .ok (some a) := by
  unfold Report.artifact?
  cases r.result with
  | error c => simp [Except.toOption]
  | ok out => simp [Except.toOption]

/-- The catalog has the services of a file, under each of them its unary methods, and a key for
each of these. -/
structure Catalog.Lists (c : Catalog) (f : SourceFile) : Prop where
  services : ∀ s, s ∈ c.services.keys ↔ ∃ d ∈ f.services, d.name = s
  methods : ∀ s m, m ∈ (c.methods s).keys ↔
    ∃ d ∈ f.services, d.name = s ∧ ∃ m' ∈ d.methods, m'.isStreaming = false ∧ m'.name = m
  tools : ∀ k, k ∈ c.tools.keys ↔ ∃ s m, m ∈ (c.methods s).keys ∧ s ++ "_" ++ m = k

theorem Catalog.methods_of_mem_entries {c : Catalog} {e : String × Dict Tool}
    (he : e ∈ c.services.entries) : c.methods e.1 = e.2 := by
  unfold Catalog.methods
  rw [Dict.mem_entries_iff.1 he, Option.getD_some]

theorem Catalog.Holds.lists {c : Catalog} {g : Generator} {f : SourceFile}
    (h : c.Holds (f.services.map (·.name)) (g.entries f)) : c.Lists f := by
  have hmethods : ∀ s m, m ∈ (c.methods s).keys ↔
      ∃ e ∈ g.entries f, e.service = s ∧ e.method = m := by
    intro s m
    rw [Dict.mem_keys_iff, Option.isSome_iff_exists]
    constructor
    · intro ⟨t, ht⟩
      obtain ⟨e, he, hs, hm, -⟩ := (h.methods s m t).1 ht
      exact ⟨e, he, hs, hm⟩
    · intro ⟨e, he, hs, hm⟩
      exact ⟨e.tool, (h.methods s m e.tool).2 ⟨e, he, hs, hm, rfl⟩⟩
  constructor
  case services =>
    intro s
    rw [Dict.mem_keys_iff, h.services, List.mem_map]
  case methods =>
    intro s m
    rw [hmethods]
    constructor
    · intro ⟨e, he, hs, hm⟩
      obtain ⟨d, hd, m', hm', hunary, rfl⟩ := Generator.mem_entries.1 he
      exact ⟨d, hd, hs, m', hm', hunary, hm⟩
    · intro ⟨d, hd, hs, m', hm', hunary, hm⟩
      exact ⟨_, Generator.mem_entries.2 ⟨d, hd, m', hm', hunary, rfl⟩, hs, hm⟩
  case tools =>
    intro k
    have hcontains : k ∈ c.tools.keys ↔ c.tools.contains k = true := Dict.mem_keys_iff
    rw [hcontains, h.contains_key, List.mem_map]
    constructor
    · intro ⟨e, he, hk⟩
      exact ⟨e.service, e.method, (hmethods _ _).2 ⟨e, he, rfl, rfl⟩, hk⟩
    · intro ⟨s, m, hm, hk⟩
      obtain ⟨e, he, rfl, rfl⟩ := (hmethods s m).1 hm
      exact ⟨e, he, hk⟩

namespace Render

/-! ## Items of a catalog -/

/-- What the module of a catalog declares: the structure of tools, the tools in the order of their
keys, the services in the order of their names, each with its methods in order, and the list of all
tools. -/
def declared (c : Catalog) : List Item :=
  [structItem] ++ c.tools.entries.map (fun e => toolItem (Identifier.constant e.1) e.2)
    ++ c.services.keys.map (fun s =>
      serviceItem (Identifier.moduleName s) s ((c.methods s).keys.map (methodEntry s)))
    ++ [listItem (c.tools.keys.map Identifier.constant)]

/-- The items of a catalog with identifiers that are looked up in two tables, of keys and of
services; nothing if one of them is missing. -/
def lookedUp? (constants modules : Dict String) (c : Catalog) : Option (List Item) := do
  let tools ← c.tools.entries.mapM fun e => do
    let identifier ← constants.get? e.1
    return toolItem identifier e.2
  let services ← c.services.keys.mapM fun s => do
    let identifier ← modules.get? s
    let methods ← (c.methods s).keys.mapM fun m => do
      let constant ← constants.get? (Catalog.key s m)
      return (literal m, constant)
    return serviceItem identifier s methods
  let all ← c.tools.keys.mapM constants.get?
  return [structItem] ++ tools ++ services ++ [listItem all]

/-- What holds of each sort of item and its text holds of all items of a catalog. -/
theorem forall₂_declared {R : Item → String → Prop} (hstruct : R structItem toolStruct)
    (htool : ∀ key t, R (toolItem (Identifier.constant key) t) (toolConstant key t))
    (hservice : ∀ service (methods : Dict Tool), R (serviceItem (Identifier.moduleName service)
      service (methods.keys.map (methodEntry service))) (serviceModule service methods))
    (hlist : ∀ keys, R (listItem (keys.map Identifier.constant)) (toolList keys)) (c : Catalog) :
    List.Forall₂ R (declared c) (items c) := by
  have htools : List.Forall₂ R
      (c.tools.entries.map fun e => toolItem (Identifier.constant e.1) e.2)
      (c.tools.entries.map fun e => toolConstant e.1 e.2) := by
    rw [List.forall₂_map_left_iff, List.forall₂_map_right_iff, List.forall₂_same]
    intro e _
    exact htool e.1 e.2
  have hservices : List.Forall₂ R
      (c.services.keys.map fun s =>
        serviceItem (Identifier.moduleName s) s ((c.methods s).keys.map (methodEntry s)))
      (c.services.entries.map fun e => serviceModule e.1 e.2) := by
    unfold Dict.keys
    rw [List.map_map, List.forall₂_map_left_iff, List.forall₂_map_right_iff, List.forall₂_same]
    intro e he
    rw [Function.comp_apply, Catalog.methods_of_mem_entries he]
    exact hservice e.1 e.2
  have hfront : List.Forall₂ R [structItem] [toolStruct] := .cons hstruct .nil
  have hback : List.Forall₂ R [listItem (c.tools.keys.map Identifier.constant)]
      [toolList c.tools.keys] := .cons (hlist c.tools.keys) .nil
  exact List.rel_append (List.rel_append (List.rel_append hfront htools) hservices) hback

theorem forall₂_items (c : Catalog) : List.Forall₂ Item.Reads (declared c) (items c) :=
  forall₂_declared reads_toolStruct reads_toolConstant reads_serviceModule reads_toolList c

theorem mapM_eq_some_map {α β : Type} {f : α → Option β} {g : α → β} {xs : List α}
    (h : ∀ x ∈ xs, f x = some (g x)) : xs.mapM f = some (xs.map g) := by
  induction xs with
  | nil => rfl
  | cons x xs ih =>
    rw [List.mapM_cons, h x List.mem_cons_self, ih fun y hy => h y (List.mem_cons_of_mem _ hy)]
    rfl

section
variable {c : Catalog} {constants modules : Dict String}

theorem lookedUp?_eq (hconstants : assign Identifier.constant c.tools.keys = .ok constants)
    (hmodules : assign Identifier.moduleName c.services.keys = .ok modules)
    (hkeys : ∀ s m, m ∈ (c.methods s).keys → Catalog.key s m ∈ c.tools.keys) :
    lookedUp? constants modules c = some (declared c) := by
  have hconstant : ∀ k ∈ c.tools.keys, constants.get? k = some (Identifier.constant k) := by
    intro k hk
    exact Identifier.get?_of_assign hconstants hk
  have htools : (c.tools.entries.mapM fun e => do
      let identifier ← constants.get? e.1
      return toolItem identifier e.2)
        = some (c.tools.entries.map fun e => toolItem (Identifier.constant e.1) e.2) := by
    apply mapM_eq_some_map
    intro e he
    rw [hconstant e.1 (List.mem_map_of_mem he)]
    rfl
  have hmethods : ∀ s, ((c.methods s).keys.mapM fun m => do
      let constant ← constants.get? (Catalog.key s m)
      return (literal m, constant)) = some ((c.methods s).keys.map (methodEntry s)) := by
    intro s
    apply mapM_eq_some_map
    intro m hm
    rw [hconstant _ (hkeys s m hm)]
    rfl
  have hservices : (c.services.keys.mapM fun s => do
      let identifier ← modules.get? s
      let methods ← (c.methods s).keys.mapM fun m => do
        let constant ← constants.get? (Catalog.key s m)
        return (literal m, constant)
      return serviceItem identifier s methods)
        = some (c.services.keys.map fun s =>
          serviceItem (Identifier.moduleName s) s ((c.methods s).keys.map (methodEntry s))) := by
    apply mapM_eq_some_map
    intro s hs
    rw [Identifier.get?_of_assign hmodules hs, hmethods]
    rfl
  have hlist : c.tools.keys.mapM constants.get? = some (c.tools.keys.map Identifier.constant) :=
    mapM_eq_some_map hconstant
  unfold lookedUp?
  rw [htools, hservices, hlist]
  rfl

end

/-! ## Collisions -/

/-- Two different names have one identifier. -/
def Folds (identifier : String → String) (names : List String) : Prop :=
  ∃ n ∈ names, ∃ n' ∈ names, n ≠ n' ∧ identifier n = identifier n'

theorem not_nodup_map_iff {identifier : String → String} {names : List String}
    (hn : names.Nodup) : ¬ (names.map identifier).Nodup ↔ Folds identifier names := by
  rw [List.nodup_map_iff_inj_on hn]
  unfold Folds
  push Not
  constructor
  · intro ⟨n, h, n', h', heq, hne⟩
    exact ⟨n, h, n', h', hne, heq⟩
  · intro ⟨n, h, n', h', hne, heq⟩
    exact ⟨n, h, n', h', heq, hne⟩

/-- There is a text if and only if all identifiers differ. -/
theorem rustText_eq_ok_iff {a : Artifact} {text : String} :
    rustText a = .ok text ↔ (a.catalog.tools.keys.map Identifier.constant).Nodup ∧
      (a.catalog.services.keys.map Identifier.moduleName).Nodup ∧
      text = header a ++ String.join ((items a.catalog).map ("\n" ++ ·)) := by
  rw [← Identifier.collision?_eq_none_iff, ← Identifier.collision?_eq_none_iff]
  unfold rustText
  cases htools : Identifier.collision? Identifier.constant a.catalog.tools.keys with
  | some c => simp
  | none =>
    cases hservices : Identifier.collision? Identifier.moduleName a.catalog.services.keys with
    | some c => simp
    | none => simp [eq_comm]

theorem rustText_eq_error_iff (a : Artifact) :
    (∃ c, rustText a = .error c) ↔ Folds Identifier.constant a.catalog.tools.keys ∨
      Folds Identifier.moduleName a.catalog.services.keys := by
  rw [← not_nodup_map_iff a.catalog.tools.nodup_keys,
    ← not_nodup_map_iff a.catalog.services.nodup_keys, ← Classical.not_and_iff_not_or_not]
  constructor
  · intro ⟨c, hc⟩ hnodup
    rw [rustText_eq_ok_iff.2 ⟨hnodup.1, hnodup.2, rfl⟩] at hc
    cases hc
  · intro hfolded
    cases htext : rustText a with
    | error c => exact ⟨c, rfl⟩
    | ok text =>
      obtain ⟨htools, hservices, -⟩ := rustText_eq_ok_iff.1 htext
      exact absurd ⟨htools, hservices⟩ hfolded

/-! ## Texts -/

theorem written_of_rustText {a : Artifact} {text : String} (h : rustText a = .ok text) :
    Written (header a) (declared a.catalog) text :=
  ⟨items a.catalog, (rustText_eq_ok_iff.1 h).2.2, forall₂_items a.catalog⟩

theorem newline_not_mem_comments_iff (a : Artifact) :
    (∀ i ∈ declared a.catalog, '\n' ∉ i.comment.toList) ↔
      (∀ s ∈ a.catalog.services.keys, '\n' ∉ s.toList) ∧
      ∀ e ∈ a.catalog.tools.entries,
        '\n' ∉ e.2.requestType.toList ∧ '\n' ∉ e.2.responseType.toList := by
  have htool : ∀ identifier t, '\n' ∉ (toolItem identifier t).comment.toList ↔
      '\n' ∉ t.requestType.toList ∧ '\n' ∉ t.responseType.toList := by
    intro identifier t
    unfold toolItem
    simp only [String.toList_append, List.mem_append, not_or]
    constructor
    · rintro ⟨⟨⟨⟨-, hrequest⟩, -⟩, hresponse⟩, -⟩
      exact ⟨hrequest, hresponse⟩
    · rintro ⟨hrequest, hresponse⟩
      exact ⟨⟨⟨⟨by decide, hrequest⟩, by decide⟩, hresponse⟩, by decide⟩
  have hservice : ∀ identifier s methods, '\n' ∉ (serviceItem identifier s methods).comment.toList ↔
      '\n' ∉ s.toList := by
    intro identifier s methods
    unfold serviceItem
    simp only [String.toList_append, List.mem_append, not_or]
    constructor
    · rintro ⟨⟨-, hs⟩, -⟩
      exact hs
    · intro hs
      exact ⟨⟨newline_not_mem_ofList (by decide), hs⟩, newline_not_mem_ofList (by decide)⟩
  have hstruct : '\n' ∉ structItem.comment.toList := newline_not_mem_ofList (by decide)
  have hlist : ∀ constants, '\n' ∉ (listItem constants).comment.toList :=
    fun _ => newline_not_mem_ofList (by decide)
  unfold declared
  rw [List.forall_mem_append, List.forall_mem_append, List.forall_mem_append,
    List.forall_mem_singleton, List.forall_mem_singleton, List.forall_mem_map, List.forall_mem_map]
  simp only [htool, hservice]
  constructor
  · rintro ⟨⟨⟨-, htools⟩, hservices⟩, -⟩
    exact ⟨hservices, htools⟩
  · rintro ⟨hservices, htools⟩
    exact ⟨⟨⟨hstruct, htools⟩, hservices⟩, hlist _⟩

/-- **Reading a module.** The items of a module are read back from its text if and only if no name
breaks a comment. -/
theorem readText?_rustText_iff {a : Artifact} {text : String} (h : rustText a = .ok text) :
    readText? text = some (declared a.catalog) ↔ Unbroken a := by
  have hwritten := written_of_rustText h
  rw [header_eq_frontLines] at hwritten
  rw [readText?_eq_some_iff newline_not_mem_frontLines hwritten, comments_frontLines_iff,
    newline_not_mem_comments_iff, and_assoc]
  rfl

theorem readText?_rustText {a : Artifact} {text : String} (h : rustText a = .ok text)
    (hinline : Inline a) : readText? text = some (declared a.catalog) :=
  (readText?_rustText_iff h).2 hinline.unbroken

/-- The text is the module of what was generated. -/
structure Rendered (a : Artifact) (text : String) : Prop where
  written : Written (header a) (declared a.catalog) text
  /-- The text has these items and nothing else if and only if no name breaks a comment. -/
  readBack : readText? text = some (declared a.catalog) ↔ Unbroken a
  ordered : a.catalog.tools.keys.Pairwise (· < ·) ∧ a.catalog.services.keys.Pairwise (· < ·) ∧
    ∀ s, (a.catalog.methods s).keys.Pairwise (· < ·)
  /-- No look-up misses. -/
  lookups : ∃ constants modules, assign Identifier.constant a.catalog.tools.keys = .ok constants ∧
    assign Identifier.moduleName a.catalog.services.keys = .ok modules ∧
    lookedUp? constants modules a.catalog = some (declared a.catalog)
  /-- No two tools have one constant. -/
  constants : (a.catalog.tools.keys.map Identifier.constant).Nodup
  /-- No two services have one module. -/
  modules : (a.catalog.services.keys.map Identifier.moduleName).Nodup

theorem rendered_of_rustText {a : Artifact} {f : SourceFile} {text : String}
    (hlists : a.catalog.Lists f) (h : rustText a = .ok text) : Rendered a text := by
  obtain ⟨hconstants, hmodules, -⟩ := rustText_eq_ok_iff.1 h
  obtain ⟨constants, hassigned⟩ := Identifier.exists_assign hconstants
  obtain ⟨modules, hassigned'⟩ := Identifier.exists_assign hmodules
  have hlookups : lookedUp? constants modules a.catalog = some (declared a.catalog) := by
    apply lookedUp?_eq hassigned hassigned'
    intro s m hm
    exact (hlists.tools _).2 ⟨s, m, hm, rfl⟩
  exact {
    written := written_of_rustText h
    readBack := readText?_rustText_iff h
    ordered := ⟨Dict.pairwise_keys _, Dict.pairwise_keys _, fun _ => Dict.pairwise_keys _⟩
    lookups := ⟨constants, modules, hassigned, hassigned', hlookups⟩
    constants := hconstants
    modules := hmodules }

/-- **The Rust module of a file.** The module of what is generated from a file fails if and only if
two keys or two services are folded into one identifier. Otherwise all look-ups find an identifier,
and behind the comments in front the text declares the tools, the services with their methods, and
the list of all tools, each once and in order; these are the services and unary methods of the file.
It declares nothing else if and only if no name breaks a comment. -/
theorem rustText_of_generate {g : Generator} {f : SourceFile} {a : Artifact}
    (h : (g.generate f).result = .ok (some a)) :
    a.catalog.Lists f ∧
    ((∃ c, rustText a = .error c) ↔ Folds Identifier.constant a.catalog.tools.keys ∨
      Folds Identifier.moduleName a.catalog.services.keys) ∧
    ∀ text, rustText a = .ok text → Rendered a text := by
  obtain ⟨catalog, events, rfl, hholds⟩ := Generator.artifact_of_generate h
  have hlists : catalog.Lists f := hholds.lists
  refine ⟨hlists, rustText_eq_error_iff _, ?_⟩
  intro text htext
  exact rendered_of_rustText hlists htext

/-- The identifiers of the tools and of the services. -/
def identifiers (a : Artifact) : List String × List String :=
  (a.catalog.tools.keys.map Identifier.constant, a.catalog.services.keys.map Identifier.moduleName)

/-- A file has a module if the identifiers of what is generated from it differ. -/
theorem exists_rustText {r : Report} {constants modules : List String}
    (h : r.artifact?.map identifiers = some (constants, modules)) (hconstants : constants.Nodup)
    (hmodules : modules.Nodup) :
    ∃ a text, r.result = .ok (some a) ∧ rustText a = .ok text ∧
      a.catalog.tools.keys.map Identifier.constant = constants ∧
      a.catalog.services.keys.map Identifier.moduleName = modules := by
  obtain ⟨a, ha, hnames⟩ := Option.map_eq_some_iff.1 h
  obtain ⟨rfl, rfl⟩ := Prod.mk.inj hnames
  exact ⟨a, _, Report.artifact?_eq_some_iff.1 ha, rustText_eq_ok_iff.2 ⟨hconstants, hmodules, rfl⟩,
    rfl, rfl⟩

theorem inline_of_artifact? {r : Report} (h : r.artifact?.all (fun a => decide (Inline a)) = true)
    {a : Artifact} (ha : r.result = .ok (some a)) : Inline a := by
  rw [Report.artifact?_eq_some_iff.2 ha] at h
  exact of_decide_eq_true h

/-- Two services, one of them without a unary method, and a method whose name is folded. -/
def weatherFile : SourceFile :=
  ⟨"weather.proto", "weather", "weather", true,
    [⟨"WeatherStation", "weather.WeatherStation",
        [⟨"ReadHTTPStatus", "weather.WeatherStation.ReadHTTPStatus", "weather.Query",
            "weather.Answer", false, false, ""⟩,
          ⟨"Watch", "weather.WeatherStation.Watch", "weather.Query", "weather.Answer", false, true,
            ""⟩]⟩,
      ⟨"Type", "weather.Type", []⟩]⟩

theorem weatherFile_identifiers :
    (Generator.generate ⟨.empty, fun _ => false, 64⟩ weatherFile).artifact?.map identifiers
      = some (["WEATHER_STATION_READ_HTTP_STATUS"], ["type_", "weather_station"]) := by
  decide +kernel

theorem rustText_of_generate_weatherFile :
    ∃ a text, (Generator.generate ⟨.empty, fun _ => false, 64⟩ weatherFile).result = .ok (some a) ∧
      rustText a = .ok text ∧ Rendered a text ∧ readText? text = some (declared a.catalog) ∧
      a.catalog.tools.keys.map Identifier.constant = ["WEATHER_STATION_READ_HTTP_STATUS"] ∧
      a.catalog.services.keys.map Identifier.moduleName = ["type_", "weather_station"] := by
  obtain ⟨a, text, hresult, htext, hnames⟩ := exists_rustText weatherFile_identifiers
    (by decide) (by decide)
  obtain ⟨-, -, hrendered⟩ := rustText_of_generate hresult
  have hinline : Inline a := inline_of_artifact? (by decide +kernel) hresult
  exact ⟨a, text, hresult, htext, hrendered text htext,
    (hrendered text htext).readBack.2 hinline.unbroken, hnames⟩

/-- The line that opens the constant of a tool. -/
def constantLine (key : String) : Line :=
  nameLine "pub const " (Identifier.constant key) ": McpTool = McpTool \x7b"

theorem exists_toolConstant_eq (key : String) (t : Tool) : ∃ comment rest,
    (toolConstant key t).toList = comment ++ '\n' :: (constantLine key ++ '\n' :: rest) := by
  refine ⟨("/// " ++ (toolItem (Identifier.constant key) t).comment).toList,
    unlines ((toolFields t).map fieldChars ++ ["\x7d;".toList]), ?_⟩
  rw [toolConstant_eq, toolLines, String.toList_append, String.toList_ofList, unlines_cons,
    String.toList_append, List.append_assoc, List.append_assoc]
  rfl

theorem mem_splitOn_of_eq {before l after : List Char} (h : '\n' ∉ l) :
    l ∈ (before ++ '\n' :: (l ++ '\n' :: after)).splitOn '\n' := by
  rw [List.splitOn_append_cons_self, List.splitOn_append_cons_self, Text.splitOn_of_not_mem h]
  simp

/-- The lines in front of a module are lines of its text, and so is the one that opens the constant
of a tool. -/
theorem sublist_lines {a : Artifact} {text key : String} {t : Tool} (h : rustText a = .ok text)
    (ht : (key, t) ∈ a.catalog.tools.entries) :
    (frontLines a ++ [constantLine key]).Sublist (text.toList.splitOn '\n') := by
  have hitem : toolConstant key t ∈ items a.catalog := by
    have htool : toolConstant key t ∈ a.catalog.tools.entries.map fun e => toolConstant e.1 e.2 :=
      List.mem_map.2 ⟨(key, t), ht, rfl⟩
    simp [items, htool]
  obtain ⟨before, after, hitems⟩ := List.append_of_mem hitem
  obtain ⟨comment, rest, htool⟩ := exists_toolConstant_eq key t
  have hjoin : (String.join ((items a.catalog).map ("\n" ++ ·))).toList
      = ((before.flatMap fun s => '\n' :: s.toList) ++ '\n' :: comment) ++ '\n' ::
        (constantLine key ++ '\n' :: (rest ++ after.flatMap fun s => '\n' :: s.toList)) := by
    rw [hitems, String.toList_join, List.flatMap_map, List.flatMap_append, List.flatMap_cons]
    simp [htool, String.toList_append]
  have hline : '\n' ∉ constantLine key :=
    (whole_nameLine (by decide) (fun _ => Identifier.isNameChar_constant) (by decide)).2
  obtain ⟨-, -, rfl⟩ := rustText_eq_ok_iff.1 h
  rw [header_eq_frontLines, String.toList_append, String.toList_ofList,
    splitOn_unlines_append newline_not_mem_frontLines, hjoin]
  exact (List.Sublist.refl _).append (List.singleton_sublist.2 (mem_splitOn_of_eq hline))

/-- A file whose path has a line break, with a declaration behind it. -/
def injectedFile : SourceFile :=
  ⟨"greeter.proto\npub const GREETER_GREET: u8 = 0;", "demo", "greeter", true,
    [⟨"Greeter", "demo.Greeter",
      [⟨"Greet", "demo.Greeter.Greet", "demo.Hello", "demo.Reply", false, false, ""⟩]⟩]⟩

/-- The constant of the only tool is declared twice. -/
theorem injectedFile_constants :
    ∃ a text, (Generator.generate ⟨.empty, fun _ => false, 64⟩ injectedFile).result
        = .ok (some a) ∧ rustText a = .ok text ∧ a.catalog.tools.keys = ["Greeter_Greet"] ∧
      ["pub const GREETER_GREET: u8 = 0;".toList,
        "pub const GREETER_GREET: McpTool = McpTool \x7b".toList].Sublist
          (text.toList.splitOn '\n') ∧
      readText? text ≠ some (declared a.catalog) := by
  have hgenerated : (Generator.generate ⟨.empty, fun _ => false, 64⟩ injectedFile).artifact?.map
      (fun a => (identifiers a, a.catalog.tools.keys, a.sourcePath))
        = some ((["GREETER_GREET"], ["greeter"]), ["Greeter_Greet"], injectedFile.path) := by
    decide +kernel
  obtain ⟨a, ha, hnames⟩ := Option.map_eq_some_iff.1 hgenerated
  obtain ⟨hidentifiers, hnames⟩ := Prod.mk.inj hnames
  obtain ⟨hconstants, hmodules⟩ := Prod.mk.inj hidentifiers
  obtain ⟨hkeys, hpath⟩ := Prod.mk.inj hnames
  have htext : rustText a = .ok _ :=
    rustText_eq_ok_iff.2 ⟨hconstants ▸ by decide, hmodules ▸ by decide, rfl⟩
  refine ⟨a, _, Report.artifact?_eq_some_iff.1 ha, htext, hkeys, ?_, ?_⟩
  · obtain ⟨⟨key, t⟩, ht, rfl⟩ : ∃ e ∈ a.catalog.tools.entries, e.1 = "Greeter_Greet" := by
      rw [← List.mem_map]
      show "Greeter_Greet" ∈ a.catalog.tools.keys
      rw [hkeys]
      exact List.mem_singleton.2 rfl
    have hinjected : "pub const GREETER_GREET: u8 = 0;".toList ∈ frontLines a := by
      refine List.mem_flatMap.2 ⟨"// source: ".toList ++ injectedFile.path.toList, ?_, ?_⟩
      · unfold headerLines
        rw [hpath]
        exact List.mem_cons_of_mem _ List.mem_cons_self
      · decide +kernel
    have hconstant : constantLine "Greeter_Greet"
        = "pub const GREETER_GREET: McpTool = McpTool \x7b".toList := by decide +kernel
    rw [← hconstant]
    exact ((List.singleton_sublist.2 hinjected).append (List.Sublist.refl _)).trans
      (sublist_lines htext ht)
  · intro hread
    have hcontinues : Continues injectedFile.path :=
      hpath ▸ ((readText?_rustText_iff htext).1 hread).1
    have hnot : (injectedFile.path.toList.splitOn '\n').tail.all
        ("//".toList.isPrefixOf ·) = false := by decide +kernel
    rw [List.all_eq_true.2 hcontinues] at hnot
    cases hnot

end Render
end McpCatalog
