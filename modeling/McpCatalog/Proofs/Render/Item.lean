import McpCatalog.Proofs.Render.Declaration
/-!
# The items of a Rust module

An item is a comment and the code behind it. The text of each item of a catalog is put together
from lines; none of them is broken by a name or a literal, so that its code can be read back.

Results:
* `reads_toolStruct`, `reads_toolConstant`, `reads_serviceModule`, `reads_toolList`: the text of an
  item declares what the item does.
-/
namespace McpCatalog.Render

open Identifier (isNameChar)

/-! ## Texts from lines -/

/-- The characters of a literal in two parts; the literals are not evaluated. -/
theorem toList_literal {l l₁ l₂ : List Char} (h : l = l₁ ++ l₂) :
    (String.ofList l).toList = (String.ofList l₁).toList ++ (String.ofList l₂).toList := by
  rw [String.toList_ofList, String.toList_ofList, String.toList_ofList, h]

theorem newline_not_mem_ofList {cs : List Char} (h : '\n' ∉ cs) :
    '\n' ∉ (String.ofList cs).toList := by
  rwa [String.toList_ofList]

theorem whole_ofList {cs : List Char} (h : Whole cs) : Whole (String.ofList cs).toList := by
  rwa [String.toList_ofList]

section
variable {α : Type} {text : α → String} {line : α → Line} {opening closing : String}

theorem unlines_cons (l : Line) (ls : List Line) : unlines (l :: ls) = l ++ ['\n'] ++ unlines ls :=
  List.flatMap_cons

theorem unlines_append (ls ls' : List Line) : unlines (ls ++ ls') = unlines ls ++ unlines ls' :=
  List.flatMap_append

theorem toList_join_map (h : ∀ x, (text x).toList = line x ++ ['\n']) (xs : List α) :
    (String.join (xs.map text)).toList = unlines (xs.map line) := by
  rw [String.toList_join, unlines, List.flatMap_map, List.flatMap_map]
  simp only [h]

theorem unlines_sliceLines (opening : String) {last : String} (hlast : last = closing ++ "];")
    (h : ∀ x, (text x).toList = line x ++ ['\n']) (xs : List α) :
    unlines (sliceLines opening last (xs.map line))
      = opening.toList ++ (bracketed (xs.map text) closing).toList := by
  subst hlast
  cases xs with
  | nil => simp [sliceLines, bracketed, unlines]
  | cons x xs =>
    have hlines : sliceLines opening (closing ++ "];") ((x :: xs).map line)
        = [(opening ++ "[").toList] ++ ((x :: xs).map line ++ [(closing ++ "];").toList]) := rfl
    have hbracketed : bracketed ((x :: xs).map text) closing
        = "[\n" ++ String.join ((x :: xs).map text) ++ closing ++ "];\n" := rfl
    rw [hlines, unlines_append, unlines_append, ← toList_join_map h, hbracketed]
    have hopen : "[\n".toList = "[".toList ++ ['\n'] := rfl
    have hclose : "];\n".toList = "];".toList ++ ['\n'] := rfl
    simp only [unlines, List.flatMap_cons, List.flatMap_nil, String.toList_append, hopen, hclose,
      List.append_assoc, List.append_nil]

theorem whole_sliceLines {ls : List Line} (hopening : Whole opening.toList)
    (hclosing : Whole closing.toList) (hlines : ∀ l ∈ ls, Whole l) :
    ∀ l ∈ sliceLines opening closing ls, Whole l := by
  intro l hl
  unfold sliceLines at hl
  split at hl
  · rw [List.mem_singleton] at hl
    rw [hl, String.toList_append]
    exact whole_append hopening (by decide)
  · rw [List.mem_cons, List.mem_append, List.mem_singleton] at hl
    rcases hl with rfl | hl | rfl
    · rw [String.toList_append]
      exact whole_append hopening (by decide)
    · exact hlines l hl
    · exact hclosing

end

theorem exists_sliceLines (opening closing : String) (ls : List Line) :
    ∃ first rest, sliceLines opening closing ls = first :: rest ∧
      (first = (opening ++ "[];").toList ∨ first = (opening ++ "[").toList) := by
  cases ls with
  | nil => exact ⟨_, _, rfl, .inl rfl⟩
  | cons l ls => exact ⟨_, _, rfl, .inr rfl⟩

/-! ## Items -/

/-- An item with the comment in front of it, which is one line unless a name in it has a line
break. -/
structure Item where
  comment : String
  declares : Declaration

/-- The text is the comment of the item, and lines that declare what the item declares. -/
def Item.Reads (i : Item) (text : String) : Prop :=
  ∃ code : List Line, text = "/// " ++ i.comment ++ "\n" ++ String.ofList (unlines code) ∧
    (∀ l ∈ code, Whole l) ∧ Declaration.read? code = some i.declares

/-! ## Tools -/

/-- The fields of the constant of a tool. -/
def toolFields (t : Tool) : List (String × String) :=
  [("name", literal t.name), ("description", literal t.description),
    ("input_schema", literal t.rawInputSchema), ("request_type", literal t.requestType),
    ("response_type", literal t.responseType)]

def toolItem (identifier : String) (t : Tool) : Item :=
  ⟨"`" ++ t.requestType ++ "` -> `" ++ t.responseType ++ "`", .tool identifier (toolFields t)⟩

def toolLines (identifier : String) (t : Tool) : List Line :=
  nameLine "pub const " identifier ": McpTool = McpTool \x7b" ::
    ((toolFields t).map fieldChars ++ ["\x7d;".toList])

theorem toList_fieldLine (field value : String) :
    (fieldLine field value).toList = fieldChars (field, literal value) ++ ['\n'] := by
  have hclose : ",\n".toList = ",".toList ++ ['\n'] := rfl
  unfold fieldLine fieldChars
  simp only [String.toList_append, hclose, List.append_assoc]

theorem toolConstant_eq (key : String) (t : Tool) :
    toolConstant key t = "/// " ++ (toolItem (Identifier.constant key) t).comment ++ "\n"
      ++ String.ofList (unlines (toolLines (Identifier.constant key) t)) := by
  rw [← String.toList_inj]
  have hquote : "/// `".toList = "/// ".toList ++ "`".toList := rfl
  have hend : "`\n".toList = "`".toList ++ "\n".toList := rfl
  have hopen : ": McpTool = McpTool \x7b\n".toList
      = ": McpTool = McpTool \x7b".toList ++ ['\n'] := rfl
  have hclose : "\x7d;\n".toList = "\x7d;".toList ++ ['\n'] := rfl
  unfold toolConstant
  simp only [String.toList_append, String.toList_ofList, toList_fieldLine, hquote, hend, hopen,
    hclose, toolItem, toolLines, nameLine, toolFields, unlines, List.map_cons, List.map_nil,
    List.flatMap_cons, List.flatMap_nil, List.cons_append, List.nil_append, List.append_assoc,
    List.append_nil]

theorem literal_of_mem_toolFields {t : Tool} {f : String × String} (hf : f ∈ toolFields t) :
    (∀ c ∈ f.1.toList, isNameChar c = true) ∧ ∃ value, f.2 = literal value := by
  simp only [toolFields, List.mem_cons, List.not_mem_nil, or_false] at hf
  rcases hf with rfl | rfl | rfl | rfl | rfl
  all_goals exact ⟨List.all_eq_true.1 (by dsimp only; decide), _, rfl⟩

theorem whole_fieldChars {f : String × String} {value : String}
    (hname : ∀ c ∈ f.1.toList, isNameChar c = true) (hvalue : f.2 = literal value) :
    Whole (fieldChars f) := by
  apply whole_append (by decide)
  simp only [List.mem_append, not_or, hvalue]
  exact ⟨⟨newline_not_mem_name hname, by decide, newline_not_mem_literal value⟩, by decide⟩

theorem whole_toolLines (key : String) (t : Tool) :
    ∀ l ∈ toolLines (Identifier.constant key) t, Whole l := by
  intro l hl
  unfold toolLines at hl
  rw [List.mem_cons, List.mem_append, List.mem_map, List.mem_singleton] at hl
  rcases hl with rfl | ⟨f, hf, rfl⟩ | rfl
  · exact whole_nameLine (by decide) (fun _ => Identifier.isNameChar_constant) (by decide)
  · obtain ⟨hname, value, hvalue⟩ := literal_of_mem_toolFields hf
    exact whole_fieldChars hname hvalue
  · decide

theorem reads_toolConstant (key : String) (t : Tool) :
    (toolItem (Identifier.constant key) t).Reads (toolConstant key t) := by
  refine ⟨_, toolConstant_eq key t, whole_toolLines key t, ?_⟩
  have hopen : name? "pub const " ": McpTool = McpTool \x7b"
      (nameLine "pub const " (Identifier.constant key) ": McpTool = McpTool \x7b")
        = some (Identifier.constant key) :=
    name?_nameLine _ _ fun _ => Identifier.isNameChar_constant
  have hfields : upTo? "\x7d;" field? ((toolFields t).map fieldChars ++ ["\x7d;".toList])
      = some ((toolFields t).map id, []) := by
    apply upTo?_map
    · intro f _ heq
      -- a field is indented
      exact absurd (List.cons.inj heq).1 (by decide)
    · intro f hf
      exact field?_fieldChars (literal_of_mem_toolFields hf).1
  have htool : tool? (nameLine "pub const " (Identifier.constant key) ": McpTool = McpTool \x7b")
      ((toolFields t).map fieldChars ++ ["\x7d;".toList])
        = some (.tool (Identifier.constant key) (toolFields t)) := by
    unfold tool?
    rw [hopen, Option.bind_eq_bind, Option.bind_some, hfields, List.map_id]
    rfl
  unfold toolLines
  rw [Declaration.read?_cons, htool]
  rfl

/-! ## Modules of services -/

/-- The literal of a method and the constant of its tool. -/
def methodEntry (service method : String) : String × String :=
  (literal method, Identifier.constant (Catalog.key service method))

def serviceItem (identifier service : String) (methods : List (String × String)) : Item :=
  ⟨"Tools exposed by service `" ++ service ++ "`, keyed by method name.",
    .service identifier methods⟩

def serviceLines (identifier : String) (methods : List (String × String)) : List Line :=
  nameLine "pub mod " identifier " \x7b" ::
    "    /// Tools keyed by method name.".toList ::
    (sliceLines toolsOpening "    ];" (methods.map methodChars) ++ ["\x7d".toList])

theorem toList_methodLine (service method : String) :
    (methodLine service method).toList = methodChars (methodEntry service method) ++ ['\n'] := by
  have hclose : "),\n".toList = "),".toList ++ ['\n'] := rfl
  unfold methodLine methodChars methodEntry
  simp only [String.toList_append, hclose, List.append_assoc]

theorem serviceModule_eq (service : String) (methods : Dict Tool) :
    serviceModule service methods
      = "/// " ++ (serviceItem (Identifier.moduleName service) service
          (methods.keys.map (methodEntry service))).comment ++ "\n"
        ++ String.ofList (unlines (serviceLines (Identifier.moduleName service)
          (methods.keys.map (methodEntry service)))) := by
  rw [← String.toList_inj]
  have hclosing : "    ];" = "    " ++ "];" := rfl
  have hline : ∀ method, (methodLine service method).toList
      = (methodChars ∘ methodEntry service) method ++ ['\n'] := toList_methodLine service
  have hslice := unlines_sliceLines toolsOpening hclosing hline methods.keys
  have hcomment : "/// Tools exposed by service `".toList
      = "/// ".toList ++ "Tools exposed by service `".toList := toList_literal rfl
  have hend : "`, keyed by method name.\n".toList
      = "`, keyed by method name.".toList ++ "\n".toList := toList_literal rfl
  have hopen : " \x7b\n".toList = " \x7b".toList ++ ['\n'] := rfl
  have hdoc : "    /// Tools keyed by method name.\n".toList
      = "    /// Tools keyed by method name.".toList ++ "\n".toList := toList_literal rfl
  unfold serviceModule serviceItem serviceLines nameLine
  rw [List.map_map, unlines_cons, unlines_cons, unlines_append, hslice]
  simp only [String.toList_append, String.toList_ofList, hcomment, hend, hopen, hdoc,
    List.append_assoc]
  rfl

theorem isNameChar_methodEntry {service method : String} {c : Char}
    (h : c ∈ (methodEntry service method).2.toList) : isNameChar c = true :=
  Identifier.isNameChar_constant h

theorem whole_methodChars (service method : String) :
    Whole (methodChars (methodEntry service method)) := by
  have hname : '\n' ∉ (methodEntry service method).2.toList :=
    newline_not_mem_name fun _ => isNameChar_methodEntry
  apply whole_append (by decide)
  simp only [List.mem_append, not_or]
  exact ⟨⟨newline_not_mem_literal method, by decide, hname⟩, by decide⟩

theorem whole_serviceLines (service : String) (methods : List String) :
    ∀ l ∈ serviceLines (Identifier.moduleName service) (methods.map (methodEntry service)),
      Whole l := by
  intro l hl
  unfold serviceLines at hl
  rw [List.mem_cons, List.mem_cons, List.mem_append, List.mem_singleton, List.map_map] at hl
  rcases hl with rfl | rfl | hl | rfl
  · exact whole_nameLine (by decide) (fun _ => Identifier.isNameChar_moduleName) (by decide)
  · exact whole_ofList (by decide)
  · refine whole_sliceLines (whole_ofList (by decide)) (by decide) ?_ l hl
    intro l hl
    obtain ⟨method, -, rfl⟩ := List.mem_map.1 hl
    exact whole_methodChars service method
  · decide

theorem reads_serviceModule (service : String) (methods : Dict Tool) :
    (serviceItem (Identifier.moduleName service) service
      (methods.keys.map (methodEntry service))).Reads (serviceModule service methods) := by
  refine ⟨_, serviceModule_eq service methods, whole_serviceLines service methods.keys, ?_⟩
  have hopen : name? "pub mod " " \x7b"
      (nameLine "pub mod " (Identifier.moduleName service) " \x7b")
        = some (Identifier.moduleName service) :=
    name?_nameLine _ _ fun _ => Identifier.isNameChar_moduleName
  have hmethods : slice? toolsOpening "    ];" method?
      (sliceLines toolsOpening "    ];" ((methods.keys.map (methodEntry service)).map methodChars)
        ++ ["\x7d".toList])
        = some ((methods.keys.map (methodEntry service)).map id, ["\x7d".toList]) := by
    apply slice?_map
    · intro m _ heq
      -- a method is indented further than the end of the list
      exact absurd (congrArg (List.drop 4) heq) (by unfold methodChars; simp)
    · intro m hm
      obtain ⟨method, -, rfl⟩ := List.mem_map.1 hm
      exact method?_methodChars fun _ => isNameChar_methodEntry
  have hservice : service? (nameLine "pub mod " (Identifier.moduleName service) " \x7b")
      ("    /// Tools keyed by method name.".toList ::
        (sliceLines toolsOpening "    ];" ((methods.keys.map (methodEntry service)).map methodChars)
          ++ ["\x7d".toList]))
        = some (.service (Identifier.moduleName service)
          (methods.keys.map (methodEntry service))) := by
    have hcomment : between? "    /// " "" "    /// Tools keyed by method name.".toList
        = some "Tools keyed by method name.".toList := rfl
    unfold service?
    rw [hopen, Option.bind_eq_bind, Option.bind_some, List.head?_cons, Option.bind_eq_bind,
      Option.bind_some, hcomment, Option.bind_eq_bind, Option.bind_some, List.tail_cons, hmethods,
      List.map_id]
    rfl
  unfold serviceLines
  rw [Declaration.read?_cons, hservice]
  rfl

/-! ## The list of all tools -/

def listItem (constants : List String) : Item :=
  ⟨"Every tool in this file, ordered by `Service_Method` key.", .list "TOOLS" constants⟩

def listLines (constants : List String) : List Line :=
  sliceLines (listOpening "TOOLS") "];" (constants.map (nameLine "    &" · ","))

theorem toolList_eq (keys : List String) :
    toolList keys = "/// " ++ (listItem (keys.map Identifier.constant)).comment ++ "\n"
      ++ String.ofList (unlines (listLines (keys.map Identifier.constant))) := by
  rw [← String.toList_inj]
  have hline : ∀ key, ("    &" ++ Identifier.constant key ++ ",\n").toList
      = ((nameLine "    &" · ",") ∘ Identifier.constant) key ++ ['\n'] := by
    intro key
    have hclose : ",\n".toList = ",".toList ++ ['\n'] := rfl
    rw [Function.comp_apply]
    unfold nameLine
    simp only [String.toList_append, hclose, List.append_assoc]
  have hclosing : "];" = "" ++ "];" := rfl
  have hslice := unlines_sliceLines (listOpening "TOOLS") hclosing hline keys
  have hopen : listOpening "TOOLS" = "pub const TOOLS: &[&McpTool] = &" := rfl
  have hcomment : "/// Every tool in this file, ordered by `Service_Method` key.".toList
      = "/// ".toList ++ "Every tool in this file, ordered by `Service_Method` key.".toList :=
    toList_literal rfl
  have hend : "/// Every tool in this file, ordered by `Service_Method` key.\n".toList
      = "/// Every tool in this file, ordered by `Service_Method` key.".toList ++ "\n".toList :=
    toList_literal rfl
  unfold toolList listItem listLines
  rw [List.map_map, hslice, hopen]
  simp only [String.toList_append, String.toList_ofList, hend, hcomment, List.append_assoc]

theorem whole_listLines (keys : List String) :
    ∀ l ∈ listLines (keys.map Identifier.constant), Whole l := by
  have hopening : Whole (listOpening "TOOLS").toList := by decide +kernel
  apply whole_sliceLines hopening (by decide)
  intro l hl
  rw [List.map_map] at hl
  obtain ⟨key, -, rfl⟩ := List.mem_map.1 hl
  exact whole_nameLine (by decide) (fun _ => Identifier.isNameChar_constant) (by decide)

/-- The first line of the list is that of no other item, and the name of the list stands on it. -/
theorem list_first {first : Line} (h : first = (listOpening "TOOLS" ++ "[];").toList ∨
    first = (listOpening "TOOLS" ++ "[").toList) :
    between? "#[derive(" ")]" first = none ∧
      name? "pub const " ": McpTool = McpTool \x7b" first = none ∧
      name? "pub mod " " \x7b" first = none ∧
      first.dropPrefix? "pub const ".toList = some (first.drop 10) ∧
      (first.drop 10).takeWhile isNameChar = "TOOLS".toList := by
  cases h with
  | inl h =>
    subst h
    decide +kernel
  | inr h =>
    subst h
    decide +kernel

theorem reads_toolList (keys : List String) :
    (listItem (keys.map Identifier.constant)).Reads (toolList keys) := by
  refine ⟨_, toolList_eq keys, whole_listLines keys, ?_⟩
  have hconstants : slice? (listOpening "TOOLS") "];" (name? "    &" ",")
      (listLines (keys.map Identifier.constant))
        = some ((keys.map Identifier.constant).map id, []) := by
    rw [← List.append_nil (listLines _)]
    apply slice?_map
    · intro constant _ heq
      exact absurd (List.cons.inj heq).1 (by decide)
    · intro constant hconstant
      obtain ⟨key, -, rfl⟩ := List.mem_map.1 hconstant
      exact name?_nameLine _ _ fun _ => Identifier.isNameChar_constant
  obtain ⟨first, rest, hlines, hfirst⟩ :
      ∃ first rest, listLines (keys.map Identifier.constant) = first :: rest ∧ _ :=
    exists_sliceLines _ _ _
  obtain ⟨hrecord, htool, hservice, hdrop, hname⟩ := list_first hfirst
  have hlist : list? first rest = some (.list "TOOLS" (keys.map Identifier.constant)) := by
    unfold list?
    rw [hdrop, Option.bind_eq_bind, Option.bind_some, hname, String.ofList_toList, ← hlines]
    dsimp only
    rw [hconstants, List.map_id]
    rfl
  rw [hlines, Declaration.read?_cons]
  unfold record? tool? service?
  rw [hrecord, htool, hservice, hlist]
  rfl

/-! ## The structure of tools -/

/-- The fields of the structure with their comments. -/
def structFields : List (String × String) :=
  [("name", "Tool name (possibly shortened to the configured limit)."),
   ("description", "Method documentation."),
   ("input_schema", "Canonical JSON Schema for the request message."),
   ("request_type", "Fully qualified request message name."),
   ("response_type", "Fully qualified response message name.")]

def structItem : Item :=
  ⟨"MCP tool generated from a unary RPC method.", .record "McpTool" (structFields.map (·.1))⟩

/-- The lines of some fields, each with the name of the field on it if there is one. -/
def structBody (fields : List (String × String)) : List (Option String × String) :=
  fields.flatMap fun f =>
    [(none, "    /// " ++ f.2), (some f.1, "    pub " ++ (f.1 ++ ": &'static str,"))]

def structLines : List String :=
  "#[derive(Debug, Clone, Copy, PartialEq, Eq)]" :: "pub struct McpTool \x7b" ::
    ((structBody structFields).map (·.2) ++ ["\x7d"])

theorem toolStruct_eq :
    toolStruct = "/// " ++ structItem.comment ++ "\n"
      ++ String.ofList (unlines (structLines.map String.toList)) := by
  have hlines : toolStruct
      = "/// " ++ structItem.comment ++ "\n" ++ String.join (structLines.map (· ++ "\n")) := rfl
  have hline : ∀ l : String, (l ++ "\n").toList = l.toList ++ ['\n'] :=
    fun _ => String.toList_append
  rw [hlines, ← toList_join_map hline structLines, String.ofList_toList]

theorem toList_structField (name : String) :
    ("    pub " ++ (name ++ ": &'static str,")).toList
      = nameLine "    pub " name ": &'static str," := by
  rw [String.toList_append, String.toList_append]
  rfl

theorem recordField?_structBody {fields : List (String × String)} {l : Option String × String}
    (hname : ∀ f ∈ fields, ∀ c ∈ f.1.toList, isNameChar c = true) (hl : l ∈ structBody fields) :
    recordField? l.2.toList = some l.1 := by
  obtain ⟨f, hf, hl⟩ := List.mem_flatMap.1 hl
  rw [List.mem_cons, List.mem_singleton] at hl
  rcases hl with rfl | rfl
  · unfold recordField?
    rw [String.toList_append, if_pos (List.isPrefixOf_iff_prefix.2 (List.prefix_append _ _))]
  · have hcomment : "    /// ".toList.isPrefixOf
        (nameLine "    pub " f.1 ": &'static str,") = false := rfl
    unfold recordField?
    rw [toList_structField, hcomment, name?_nameLine _ _ (hname f hf)]
    rfl

theorem whole_structBody {fields : List (String × String)} {l : Option String × String}
    (hname : ∀ f ∈ fields, ∀ c ∈ f.1.toList, isNameChar c = true)
    (hcomment : ∀ f ∈ fields, '\n' ∉ f.2.toList) (hl : l ∈ structBody fields) :
    Whole l.2.toList := by
  obtain ⟨f, hf, hl⟩ := List.mem_flatMap.1 hl
  rw [List.mem_cons, List.mem_singleton] at hl
  rcases hl with rfl | rfl
  · rw [String.toList_append]
    exact whole_append (by decide) (hcomment f hf)
  · rw [toList_structField]
    exact whole_nameLine (by decide) (hname f hf) (by decide)

theorem isNameChar_structFields : ∀ f ∈ structFields, ∀ c ∈ f.1.toList, isNameChar c = true := by
  have hall : structFields.all (fun f => f.1.toList.all isNameChar) = true := by decide +kernel
  intro f hf
  exact List.all_eq_true.1 (List.all_eq_true.1 hall f hf)

theorem newline_not_mem_structFields : ∀ f ∈ structFields, '\n' ∉ f.2.toList := by
  intro f hf
  simp only [structFields, List.mem_cons, List.not_mem_nil, or_false] at hf
  rcases hf with rfl | rfl | rfl | rfl | rfl
  all_goals
    dsimp only
    exact newline_not_mem_ofList (by decide)

theorem map_toList_structLines :
    structLines.map String.toList = "#[derive(Debug, Clone, Copy, PartialEq, Eq)]".toList ::
      "pub struct McpTool \x7b".toList ::
      ((structBody structFields).map (·.2.toList) ++ ["\x7d".toList]) := by
  simp only [structLines, List.map_cons, List.map_append, List.map_map, List.map_nil,
    Function.comp_def]

theorem whole_structLines : ∀ l ∈ structLines.map String.toList, Whole l := by
  intro l hl
  rw [map_toList_structLines, List.mem_cons, List.mem_cons, List.mem_append, List.mem_map,
    List.mem_singleton] at hl
  rcases hl with rfl | rfl | ⟨l, hl, rfl⟩ | rfl
  · exact whole_ofList (by decide)
  · exact whole_ofList (by decide)
  · exact whole_structBody isNameChar_structFields newline_not_mem_structFields hl
  · decide

theorem reads_toolStruct : structItem.Reads toolStruct := by
  refine ⟨_, toolStruct_eq, whole_structLines, ?_⟩
  have hfields : upTo? "\x7d" recordField?
      ((structBody structFields).map (·.2.toList) ++ ["\x7d".toList])
        = some ((structBody structFields).map (·.1), []) := by
    apply upTo?_map
    · intro l hl heq
      obtain ⟨f, -, hl⟩ := List.mem_flatMap.1 hl
      rw [List.mem_cons, List.mem_singleton] at hl
      -- a line of a field is indented
      rcases hl with rfl | rfl
      all_goals
        rw [String.toList_append] at heq
        exact absurd (List.cons.inj heq).1 (by decide)
    · intro l hl
      exact recordField?_structBody isNameChar_structFields hl
  have hrecord : record? "#[derive(Debug, Clone, Copy, PartialEq, Eq)]".toList
      ("pub struct McpTool \x7b".toList ::
        ((structBody structFields).map (·.2.toList) ++ ["\x7d".toList]))
        = some structItem.declares := by
    have hderive : between? "#[derive(" ")]" "#[derive(Debug, Clone, Copy, PartialEq, Eq)]".toList
        = some "Debug, Clone, Copy, PartialEq, Eq".toList := by decide +kernel
    have hname : name? "pub struct " " \x7b" "pub struct McpTool \x7b".toList = some "McpTool" := by
      decide +kernel
    unfold record?
    rw [hderive, Option.bind_eq_bind, Option.bind_some, List.head?_cons, Option.bind_eq_bind,
      Option.bind_some, hname, Option.bind_eq_bind, Option.bind_some, List.tail_cons, hfields]
    rfl
  rw [map_toList_structLines, Declaration.read?_cons, hrecord]
  rfl

end McpCatalog.Render
