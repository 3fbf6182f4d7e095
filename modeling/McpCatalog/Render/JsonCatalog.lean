import McpCatalog.Digest.Hash
import McpCatalog.Generation
/-!
# Catalogs as JSON documents

The tools of a file under both keys of the catalog. Every entry carries the hash of
the canonical text of its input schema, so that a reader can tell when it changes.
-/
namespace McpCatalog.Render

/-- The program and its version, as generated text names them.
mirrors render/lib:44 -/
def generator : String := "protoc-gen-mcp 0.1.0"

/-- mirrors core/hashing:31-43 -/
def hashValue (h : Hash) : Json :=
  .obj [("algorithm", .str h.algorithm), ("value", .str h.value)]

/-- The entry of a tool.
mirrors render/json:45-71 -/
def toolEntry (t : Tool) : Json :=
  .obj
    [("name", .str t.name),
     ("description", .str t.description),
     ("input_schema", t.inputSchema),
     ("input_schema_digest", hashValue (Hash.sha256 t.rawInputSchema)),
     ("request_type", .str t.requestType),
     ("response_type", .str t.responseType)]

def toolEntries (tools : Dict Tool) : Json :=
  .obj (tools.entries.map fun e => (e.1, toolEntry e.2))

/-- The document for the tools of a file.
mirrors render/json:28-41 and 79-101 -/
def jsonDocument (a : Artifact) : Json :=
  .obj
    [("generator", .str generator),
     ("package", .str a.package),
     ("source_path", .str a.sourcePath),
     ("module_name", .str a.moduleName),
     ("services", .obj (a.catalog.services.entries.map fun e => (e.1, toolEntries e.2))),
     ("tools", toolEntries a.catalog.tools)]

/-- The text of the document, which ends with a newline.
mirrors render/json:79-105 (`render_json`) -/
def jsonText (a : Artifact) : String :=
  (jsonDocument a).pretty ++ "\n"

end McpCatalog.Render
