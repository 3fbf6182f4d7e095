import McpCatalog.Render.RustModule
import McpCatalog.Settings.Basic
/-!
# Generated files

The file that is made for a source file: it is named after it and holds its tools in
the format that the settings ask for.

Results:
* `outputName_of_proto`: the extension of a source file is replaced.
-/
namespace McpCatalog

/-- A file by name and content.
mirrors render/lib:65-70 -/
structure Output where
  name : String
  content : String
  deriving DecidableEq

namespace Render

/-- The extension of source files. -/
def extension : List Char := ".proto".toList

/-- The path of a source file without the extension, if it has it. -/
def base (path : List Char) : List Char :=
  if extension.isSuffixOf path then path.take (path.length - extension.length) else path

/-- The name of the file for the tools of a source file.
mirrors render/lib:94-97 -/
def outputName (sourcePath suffix : String) : String :=
  String.ofList (base sourcePath.toList) ++ suffix

def content (format : Format) (a : Artifact) : Except Identifier.Collision String :=
  match format with
  | .json => .ok (jsonText a)
  | .rust => rustText a

/-- The file for the tools of a source file.
mirrors render/lib:78-90 (`render_file`) -/
def output (s : Settings) (a : Artifact) : Except Identifier.Collision Output :=
  (content s.format a).map fun text => ⟨outputName a.sourcePath s.effectiveSuffix, text⟩

theorem base_append_extension (path : List Char) : base (path ++ extension) = path := by
  simp [base]

theorem outputName_of_proto {sourcePath suffix : String} {path : List Char}
    (h : sourcePath.toList = path ++ extension) :
    outputName sourcePath suffix = String.ofList path ++ suffix := by
  rw [outputName, h, base_append_extension]

end Render
end McpCatalog
