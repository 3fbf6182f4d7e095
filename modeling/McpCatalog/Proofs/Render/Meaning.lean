import McpCatalog.Proofs.Render.Literal
import McpCatalog.Proofs.Render.Module
/-!
# What the literals of a Rust module mean

The literals in the declarations of a module are read for their values: the five texts of each tool
and the names of methods. Whatever these texts are, the items of the module and the number of lines
that each of them takes are the same: an item has a line for each entry and some around them.

Results:
* `evaluate?_declared`: the values of the literals are the texts of the catalog.
* `spans_toolConstant`, `spans_serviceModule`: how many lines an item takes.
* `newlines_rustText`: how many lines a module has.
* `Alike.map_outline`: what stands in literals only has no influence on that.
* `literals_of_rustText`: a literal means its text, in every module.
-/
namespace McpCatalog.Render

/-! ## Values -/

/-- The declaration with values in place of the literals. -/
def Declaration.evaluate? : Declaration → Option Declaration
  | .tool name fields => (fields.mapM fun f => (value? f.2).map (f.1, ·)).map (.tool name)
  | .service name methods => (methods.mapM fun m => (value? m.1).map (·, m.2)).map (.service name)
  | d => some d

def Item.evaluate? (i : Item) : Option Item :=
  i.declares.evaluate?.map (Item.mk i.comment)

/-- The values of the fields of a tool. -/
def toolValues (t : Tool) : List (String × String) :=
  [("name", t.name), ("description", t.description), ("input_schema", t.rawInputSchema),
    ("request_type", t.requestType), ("response_type", t.responseType)]

/-- What the module of a catalog means: the structure of tools, each tool with its texts, each
service with the names of its methods, and the list of all tools. -/
def meant (c : Catalog) : List Item :=
  [structItem]
    ++ c.tools.entries.map (fun e => ⟨(toolItem (Identifier.constant e.1) e.2).comment,
      .tool (Identifier.constant e.1) (toolValues e.2)⟩)
    ++ c.services.keys.map (fun s => serviceItem (Identifier.moduleName s) s
      ((c.methods s).keys.map fun m => (m, Identifier.constant (Catalog.key s m))))
    ++ [listItem (c.tools.keys.map Identifier.constant)]

theorem evaluate?_toolItem (identifier : String) (t : Tool) :
    (toolItem identifier t).evaluate?
      = some ⟨(toolItem identifier t).comment, .tool identifier (toolValues t)⟩ := by
  have hfields : (toolFields t).mapM (fun f => (value? f.2).map (f.1, ·))
      = some (toolValues t) := by
    simp [toolFields, toolValues, value?_literal]
  unfold Item.evaluate? Declaration.evaluate? toolItem
  dsimp only
  rw [hfields]
  rfl

theorem evaluate?_serviceItem (identifier service : String) (methods : List String) :
    (serviceItem identifier service (methods.map (methodEntry service))).evaluate?
      = some (serviceItem identifier service
        (methods.map fun m => (m, Identifier.constant (Catalog.key service m)))) := by
  have hmethods : (methods.map (methodEntry service)).mapM (fun m => (value? m.1).map (·, m.2))
      = some (methods.map fun m => (m, Identifier.constant (Catalog.key service m))) := by
    rw [List.mapM_map]
    apply mapM_eq_some_map
    intro m _
    simp [methodEntry, value?_literal]
  unfold Item.evaluate? Declaration.evaluate? serviceItem
  dsimp only
  rw [hmethods]
  rfl

/-- The values of the literals are the texts of the catalog. -/
theorem evaluate?_declared (c : Catalog) :
    (declared c).mapM Item.evaluate? = some (meant c) := by
  have htools : (c.tools.entries.map fun e => toolItem (Identifier.constant e.1) e.2).mapM
      Item.evaluate? = some (c.tools.entries.map fun e =>
        ⟨(toolItem (Identifier.constant e.1) e.2).comment,
          .tool (Identifier.constant e.1) (toolValues e.2)⟩) := by
    rw [List.mapM_map]
    apply mapM_eq_some_map
    intro e _
    rw [Function.comp_apply, evaluate?_toolItem]
  have hservices : (c.services.keys.map fun s => serviceItem (Identifier.moduleName s) s
      ((c.methods s).keys.map (methodEntry s))).mapM Item.evaluate?
        = some (c.services.keys.map fun s => serviceItem (Identifier.moduleName s) s
          ((c.methods s).keys.map fun m => (m, Identifier.constant (Catalog.key s m)))) := by
    rw [List.mapM_map]
    apply mapM_eq_some_map
    intro s _
    rw [Function.comp_apply, evaluate?_serviceItem]
  unfold declared meant
  rw [List.mapM_append, List.mapM_append, List.mapM_append, htools, hservices]
  rfl

/-! ## Lines -/

/-- How many lines end in a text. -/
def newlines (text : String) : Nat :=
  text.toList.count '\n'

/-- The lines of a list in brackets with a number of elements. -/
def sliceHeight (n : Nat) : Nat :=
  if n = 0 then 1 else n + 2

/-- The lines of a declaration, by the number of its entries. -/
def Declaration.height : Declaration → Nat
  | .record _ fields => 2 * fields.length + 3
  | .tool _ fields => fields.length + 2
  | .service _ methods => sliceHeight methods.length + 3
  | .list _ constants => sliceHeight constants.length

/-- The text has a line for the comment, unless a name in it has line breaks, and the lines of the
declaration. -/
def Item.Spans (i : Item) (text : String) : Prop :=
  newlines text = newlines i.comment + 1 + i.declares.height

/-- All of an item that has an influence on its lines: the comment, and the number of the lines
behind it. -/
def Item.outline (i : Item) : String × Nat :=
  (i.comment, i.declares.height)

/-- The lines of items with some outlines, each behind an empty line. -/
def lineCount : List (String × Nat) → Nat
  | [] => 0
  | (comment, height) :: rest => 1 + (newlines comment + 1 + height) + lineCount rest

theorem newlines_append (s t : String) : newlines (s ++ t) = newlines s + newlines t := by
  rw [newlines, String.toList_append, List.count_append]
  rfl

theorem newlines_unlines {ls : List Line} (h : ∀ l ∈ ls, Whole l) :
    newlines (String.ofList (unlines ls)) = ls.length := by
  rw [newlines, String.toList_ofList]
  induction ls with
  | nil => rfl
  | cons l ls ih =>
    have hl : l.count '\n' = 0 := List.count_eq_zero_of_not_mem (h l List.mem_cons_self).2
    have hrest := ih fun l' hl' => h l' (List.mem_cons_of_mem _ hl')
    rw [unlines_cons, List.count_append, List.count_append, hl, hrest, List.length_cons,
      List.count_singleton_self, Nat.zero_add, Nat.add_comm]

theorem spans_of_lines {i : Item} {code : List Line} (hwhole : ∀ l ∈ code, Whole l)
    (hheight : code.length = i.declares.height) :
    i.Spans ("/// " ++ i.comment ++ "\n" ++ String.ofList (unlines code)) := by
  have hmark : newlines "/// " = 0 := by decide
  have hend : newlines "\n" = 1 := by decide
  rw [Item.Spans, newlines_append, newlines_append, newlines_append, hmark, hend,
    newlines_unlines hwhole, hheight, Nat.zero_add]

theorem length_sliceLines (opening closing : String) (ls : List Line) :
    (sliceLines opening closing ls).length = sliceHeight ls.length := by
  cases ls with
  | nil => rfl
  | cons l ls => simp [sliceLines, sliceHeight]

theorem spans_toolStruct : structItem.Spans toolStruct := by
  rw [toolStruct_eq]
  apply spans_of_lines whole_structLines
  rw [List.length_map]
  rfl

theorem spans_toolConstant (key : String) (t : Tool) :
    (toolItem (Identifier.constant key) t).Spans (toolConstant key t) := by
  rw [toolConstant_eq]
  exact spans_of_lines (whole_toolLines key t) rfl

theorem spans_serviceModule (service : String) (methods : Dict Tool) :
    (serviceItem (Identifier.moduleName service) service
      (methods.keys.map (methodEntry service))).Spans (serviceModule service methods) := by
  rw [serviceModule_eq]
  apply spans_of_lines (whole_serviceLines service methods.keys)
  rw [serviceLines, List.length_cons, List.length_cons, List.length_append, length_sliceLines,
    List.length_map]
  rfl

theorem spans_toolList (keys : List String) :
    (listItem (keys.map Identifier.constant)).Spans (toolList keys) := by
  rw [toolList_eq]
  apply spans_of_lines (whole_listLines keys)
  rw [listLines, length_sliceLines, List.length_map]
  rfl

theorem newlines_join {is : List Item} {texts : List String}
    (h : List.Forall₂ Item.Spans is texts) :
    newlines (String.join (texts.map ("\n" ++ ·))) = lineCount (is.map Item.outline) := by
  induction h with
  | nil => rfl
  | @cons i text is texts hspans _ ih =>
    have hend : newlines "\n" = 1 := by decide
    have hjoin : String.join ((text :: texts).map ("\n" ++ ·))
        = "\n" ++ text ++ String.join (texts.map ("\n" ++ ·)) := by
      rw [← String.toList_inj, String.toList_append, String.toList_join, String.toList_join]
      simp
    rw [hjoin, newlines_append, newlines_append, hend, hspans, ih]
    rfl

/-- The lines of a module are those of its comments and of its entries. -/
theorem newlines_rustText {a : Artifact} {text : String} (h : rustText a = .ok text) :
    newlines text = newlines (header a) + lineCount ((declared a.catalog).map Item.outline) := by
  have hspans := forall₂_declared (R := Item.Spans) spans_toolStruct spans_toolConstant
    spans_serviceModule spans_toolList a.catalog
  rw [(rustText_eq_ok_iff.1 h).2.2, newlines_append, newlines_join hspans]

/-- The two differ at most in the names, the descriptions and the schemas of their tools, which
stand in literals only. -/
structure Alike (a a' : Artifact) : Prop where
  header : header a' = header a
  tools : a'.catalog.tools.entries.map (fun e => (e.1, e.2.requestType, e.2.responseType))
    = a.catalog.tools.entries.map fun e => (e.1, e.2.requestType, e.2.responseType)
  services : a'.catalog.services.keys = a.catalog.services.keys
  methods : ∀ s, (a'.catalog.methods s).keys = (a.catalog.methods s).keys

/-- The outline of the item of a tool, by its key and its types. -/
def toolOutline (e : String × String × String) : String × Nat :=
  ("`" ++ e.2.1 ++ "` -> `" ++ e.2.2 ++ "`", 7)

theorem map_outline_tools (c : Catalog) :
    (c.tools.entries.map fun e => toolItem (Identifier.constant e.1) e.2).map Item.outline
      = (c.tools.entries.map fun e => (e.1, e.2.requestType, e.2.responseType)).map
        toolOutline := by
  rw [List.map_map, List.map_map]
  exact List.map_congr_left fun _ _ => rfl

/-- What stands in literals only has no influence on the items and their lines. -/
theorem Alike.map_outline {a a' : Artifact} (h : Alike a a') :
    (declared a'.catalog).map Item.outline = (declared a.catalog).map Item.outline := by
  have hkeys : a'.catalog.tools.keys = a.catalog.tools.keys := by
    have hfirst := congrArg (List.map (·.1)) h.tools
    rwa [List.map_map, List.map_map] at hfirst
  unfold declared
  simp only [List.map_append, map_outline_tools, h.tools, h.services, h.methods, hkeys]

/-- **Literals.** A literal consists of printable ASCII characters, of which only the first and the
last are double quotes without a backslash, and it is read back as its text, whatever comes behind.
The text of a module is put together from the items that it declares, and the literals in them mean
the texts of the tools and the names of the methods. Other names, descriptions and schemas make no
difference to how many items and lines there are; and as long as no name breaks a comment, the
module is read back as these items. -/
theorem literals_of_rustText :
    (∀ s, (∀ c ∈ (literal s).toList, Printable c) ∧
      bareQuotes 0 (literal s).toList = [0, (literal s).toList.length - 1] ∧
      ∀ rest, literal? ((literal s).toList ++ rest) = some (s, rest)) ∧
    ∀ a text, rustText a = .ok text →
      Written (header a) (declared a.catalog) text ∧
      (declared a.catalog).mapM Item.evaluate? = some (meant a.catalog) ∧
      newlines text = newlines (header a) + lineCount ((declared a.catalog).map Item.outline) ∧
      (∀ a' text', Alike a a' → rustText a' = .ok text' →
        (declared a'.catalog).map Item.outline = (declared a.catalog).map Item.outline ∧
          newlines text' = newlines text) ∧
      (Inline a → readText? text = some (declared a.catalog)) := by
  constructor
  · intro s
    exact ⟨fun c hc => printable_literal hc, bareQuotes_literal s, literal?_literal s⟩
  · intro a text h
    refine ⟨written_of_rustText h, evaluate?_declared a.catalog, newlines_rustText h, ?_,
      readText?_rustText h⟩
    intro a' text' halike h'
    refine ⟨halike.map_outline, ?_⟩
    rw [newlines_rustText h', newlines_rustText h, halike.header, halike.map_outline]

theorem literals_of_rustText_weatherFile :
    ∃ a text, rustText a = .ok text ∧
      a.catalog.tools.keys.map Identifier.constant = ["WEATHER_STATION_READ_HTTP_STATUS"] ∧
      ((readText? text).bind fun is => is.mapM Item.evaluate?) = some (meant a.catalog) := by
  obtain ⟨a, text, hresult, htext, hnames, -⟩ := exists_rustText weatherFile_identifiers
    (by decide) (by decide)
  have hinline : Inline a := inline_of_artifact? (by decide +kernel) hresult
  obtain ⟨-, hvalues, -, -, hread⟩ := literals_of_rustText.2 a text htext
  refine ⟨a, text, htext, hnames, ?_⟩
  rw [hread hinline]
  exact hvalues

end McpCatalog.Render
