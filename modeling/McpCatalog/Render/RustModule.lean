import McpCatalog.Render.Identifier
import McpCatalog.Render.JsonCatalog
/-!
# Catalogs as Rust modules

A Rust module with a constant for every tool, a module for every service that lists
its tools by method, and a list of all tools. Texts are written as string literals
of printable ASCII characters.
-/
namespace McpCatalog.Render

/-! ## Literals -/

/-- How a character is written in a string literal. -/
def literalChar (c : Char) : List Char :=
  match c with
  | '\t' => ['\\', 't']
  | '\r' => ['\\', 'r']
  | '\n' => ['\\', 'n']
  | '\'' => ['\\', '\'']
  | '"' => ['\\', '"']
  | '\\' => ['\\', '\\']
  | c =>
    if 0x20 ≤ c.toNat ∧ c.toNat < 0x7F then [c]
    else '\\' :: 'u' :: '\x7b' :: (Numeral.numeral 16 c.toNat ++ ['\x7d'])

/-- The text as a string literal.
mirrors render/rust:242-244 -/
def literal (s : String) : String :=
  String.ofList ('"' :: (s.toList.flatMap literalChar ++ ['"']))

/-! ## Items -/

/-- mirrors render/rust:41-56 -/
def toolStruct : String :=
  String.join
    ["/// MCP tool generated from a unary RPC method.\n",
     "#[derive(Debug, Clone, Copy, PartialEq, Eq)]\n",
     "pub struct McpTool \x7b\n",
     "    /// Tool name (possibly shortened to the configured limit).\n",
     "    pub name: &'static str,\n",
     "    /// Method documentation.\n",
     "    pub description: &'static str,\n",
     "    /// Canonical JSON Schema for the request message.\n",
     "    pub input_schema: &'static str,\n",
     "    /// Fully qualified request message name.\n",
     "    pub request_type: &'static str,\n",
     "    /// Fully qualified response message name.\n",
     "    pub response_type: &'static str,\n",
     "\x7d\n"]

def fieldLine (field value : String) : String :=
  "    " ++ field ++ ": " ++ literal value ++ ",\n"

/-- The constant of a tool.
mirrors render/rust:137-160 -/
def toolConstant (key : String) (t : Tool) : String :=
  "/// `" ++ t.requestType ++ "` -> `" ++ t.responseType ++ "`\n"
    ++ "pub const " ++ Identifier.constant key ++ ": McpTool = McpTool \x7b\n"
    ++ fieldLine "name" t.name
    ++ fieldLine "description" t.description
    ++ fieldLine "input_schema" t.rawInputSchema
    ++ fieldLine "request_type" t.requestType
    ++ fieldLine "response_type" t.responseType
    ++ "\x7d;\n"

def methodLine (service method : String) : String :=
  "        (" ++ literal method ++ ", &super::"
    ++ Identifier.constant (Catalog.key service method) ++ "),\n"

/-- Lines in brackets, or only the brackets if there are none. -/
def bracketed (lines : List String) (closing : String) : String :=
  if lines.isEmpty then "[" ++ "];\n" else "[\n" ++ String.join lines ++ closing ++ "];\n"

/-- The module of a service.
mirrors render/rust:95-118 -/
def serviceModule (service : String) (methods : Dict Tool) : String :=
  "/// Tools exposed by service `" ++ service ++ "`, keyed by method name.\n"
    ++ "pub mod " ++ Identifier.moduleName service ++ " \x7b\n"
    ++ "    /// Tools keyed by method name.\n"
    ++ "    pub const TOOLS: &[(&str, &super::McpTool)] = &"
    ++ bracketed (methods.keys.map (methodLine service)) "    "
    ++ "\x7d\n"

/-- mirrors render/rust:122-132 -/
def toolList (keys : List String) : String :=
  "/// Every tool in this file, ordered by `Service_Method` key.\n"
    ++ "pub const TOOLS: &[&McpTool] = &"
    ++ bracketed (keys.map fun key => "    &" ++ Identifier.constant key ++ ",\n") ""

/-- mirrors render/rust:73-84 -/
def header (a : Artifact) : String :=
  "// @generated by " ++ generator ++ ". DO NOT EDIT.\n"
    ++ "// source: " ++ a.sourcePath ++ "\n"
    ++ (if a.package.isEmpty then "" else "// package: " ++ a.package ++ "\n")

/-- The items of the module, in order. -/
def items (c : Catalog) : List String :=
  [toolStruct] ++ c.tools.entries.map (fun e => toolConstant e.1 e.2)
    ++ c.services.entries.map (fun e => serviceModule e.1 e.2)
    ++ [toolList c.tools.keys]

/-- The text of the module, unless two tools or two services have one identifier.
mirrors render/rust:68-134 (`render_rust`) -/
def rustText (a : Artifact) : Except Identifier.Collision String :=
  match Identifier.collision? Identifier.constant a.catalog.tools.keys with
  | some c => .error c
  | none =>
    match Identifier.collision? Identifier.moduleName a.catalog.services.keys with
    | some c => .error c
    | none => .ok (header a ++ String.join ((items a.catalog).map ("\n" ++ ·)))

end McpCatalog.Render
