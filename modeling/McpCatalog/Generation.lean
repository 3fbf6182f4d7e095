import McpCatalog.Catalog
import McpCatalog.Event
import McpCatalog.Proto.File
import McpCatalog.Schema.Builder
import McpCatalog.Tool.Description
import McpCatalog.Tool.Name
/-!
# Generation of the tools of a file

Every unary method of a requested file becomes a tool. The report on a file holds the
events in order and what came out: the tools of the file, nothing if the file is
passed over, or the first clash between two tools.

Results:
* `generate_of_not_requested`, `generate_of_no_services`: the files that are passed over.
-/
namespace McpCatalog

/-- The tools of a file with the events of their generation.
mirrors core/catalog:142-153 -/
structure Artifact where
  package : String
  sourcePath : String
  moduleName : String
  catalog : Catalog
  events : List Event

/-- What is known while the tools of a file are generated.
mirrors core/assembler:54-86 -/
structure Generator where
  pool : Pool
  required : Requirement
  /-- The limit on the length of the name of a tool. -/
  nameLimit : Nat

/-- What happened to a file and what came out. -/
structure Report where
  events : List Event
  result : Except Clash (Option Artifact)

namespace Generator

/-- The events and the tools so far. -/
structure Progress where
  events : List Event
  catalog : Catalog

def Progress.start : Progress :=
  ⟨[], .empty⟩

def Progress.note (p : Progress) (events : List Event) : Progress :=
  { p with events := p.events ++ events }

/-- Where a clash stopped the generation. -/
structure Failure where
  events : List Event
  clash : Clash

/-! ## Tools -/

/-- The message that a method takes; one without fields if the pool does not know it.
mirrors core/assembler:229-236 -/
def request (g : Generator) (m : Method) : Message :=
  (g.pool.message? m.inputType).getD ⟨m.inputType, []⟩

/-- mirrors core/assembler:198-207 -/
def skipped (file service : String) (m : Method) : Event :=
  (Event.inFile .methodSkipped .info file "streaming methods are not exposed as tools").inMethod
    service m.name

/-- mirrors core/assembler:239-250 -/
def recursion (file service : String) (m : Method) (typeName : String) : Event :=
  (Event.inFile .recursiveReference .info file
    ("recursive reference to " ++ typeName ++ " emitted as an open schema")).inMethod service m.name

/-- The tool of a method, and the names at which its schema was cut.
mirrors core/assembler:219-277 (`build_tool`) -/
def tool (g : Generator) (m : Method) : Tool × List String :=
  let (schema, builder) := (Builder.new g.pool g.required).messageSchema (g.request m)
  ({ name := ToolName.shortened (ToolName.flattened m.fullName) g.nameLimit
     description := Comment.description m.leadingComments
     inputSchema := schema
     rawInputSchema := schema.canonical
     requestType := m.inputType
     responseType := m.outputType }, builder.recursiveReferences)

/-- Adds a method to the tools of a file.
mirrors core/assembler:196-214 -/
def addMethod (g : Generator) (file service : String) (p : Progress) (m : Method) :
    Except Failure Progress :=
  if m.isStreaming then .ok (p.note [skipped file service m])
  else
    let (tool, cuts) := g.tool m
    let p := p.note (cuts.map (recursion file service m))
    match p.catalog.insert file service m.name tool with
    | .ok catalog => .ok { p with catalog }
    | .error clash => .error ⟨p.events, clash⟩

/-- Adds the methods of a service to the tools of a file.
mirrors core/assembler:188-216 -/
def addService (g : Generator) (file : String) (p : Progress) (s : Service) :
    Except Failure Progress :=
  s.methods.foldlM (g.addMethod file s.name) { p with catalog := p.catalog.ensureService s.name }

/-! ## Files -/

/-- mirrors core/assembler:136-153 -/
def skippedFile (path reason : String) : Report :=
  ⟨[.inFile .fileSkipped .info path reason], .ok none⟩

/-- Generates the tools of a file.
mirrors core/assembler:132-185 (`generate_file`) -/
def generate (g : Generator) (f : SourceFile) : Report :=
  if !f.generate then skippedFile f.path "file not requested for generation"
  else if f.services.isEmpty then skippedFile f.path "file declares no services"
  else
    match f.services.foldlM (g.addService f.path) Progress.start with
    | .error failure =>
      ⟨failure.events ++ [.inFile .fileFailed .error f.path failure.clash.message],
        .error failure.clash⟩
    | .ok p =>
      let count := "generated " ++ Numeral.decimal p.catalog.size ++ " tool(s)"
      let events := p.events ++ [.inFile .fileGenerated .info f.path count]
      ⟨events, .ok (some ⟨f.package, f.path, f.moduleName, p.catalog, events⟩)⟩

theorem generate_of_not_requested (g : Generator) {f : SourceFile} (h : f.generate = false) :
    g.generate f = skippedFile f.path "file not requested for generation" := by
  simp [generate, h]

theorem generate_of_no_services (g : Generator) {f : SourceFile} (h : f.generate = true)
    (hs : f.services = []) : g.generate f = skippedFile f.path "file declares no services" := by
  simp [generate, h, hs]

end Generator
end McpCatalog
