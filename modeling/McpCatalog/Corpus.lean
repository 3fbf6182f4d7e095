import McpCatalog.Corpus.Source
import McpCatalog.Proto.Pool
/-!
# The corpus of a request

All that a request declares, in one place: a pool of messages and enumerations, so that
references across files can be resolved, the fields that must be present, and the files
in order. Messages that stand for the entries of maps are not in the pool.

Results:
* `isMapEntry_of_mem_ordinary`: no message of the pool stands for the entries of a map.
-/
namespace McpCatalog

/-- mirrors bin/ingest:109-116 -/
structure Corpus where
  pool : Pool
  /-- The full names of the fields that must be present. -/
  required : NameSet
  files : List SourceFile

namespace Request

/-- The messages that stand for the entries of maps. -/
def entries (r : Request) : Dict MessageDecl :=
  Dict.ofList (r.messages.filter fun m => m.2.isMapEntry)

/-- The other messages. -/
def ordinary (r : Request) : List (String × MessageDecl) :=
  r.messages.filter fun m => !m.2.isMapEntry

theorem isMapEntry_of_mem_ordinary {r : Request} {m : String × MessageDecl} (h : m ∈ r.ordinary) :
    m.2.isMapEntry = false := by
  simpa using (List.mem_filter.1 h).2

end Request

namespace Corpus

/-- The message for a declaration with its full name. -/
def message (entries : Dict MessageDecl) (m : String × MessageDecl) : Message :=
  ⟨m.1, m.2.fields.map (fieldOf entries [] m.1 m.2)⟩

/-- The enumeration for a declaration with its full name. -/
def enumType (e : String × EnumDecl) : EnumType :=
  ⟨e.1, e.2.values.map fun v => v.name.getD ""⟩

/-- The pool of what a request declares; of types with one name the last counts. -/
def poolOf (r : Request) : Pool :=
  .ofTypes (r.ordinary.map (message r.entries)) (r.enums.map enumType)

/-- The full names of the fields that a request declares as required. -/
def requiredOf (r : Request) : NameSet :=
  let entries := r.entries
  let names := r.ordinary.flatMap fun m => m.2.fields.flatMap (requiredNames entries [] m.1)
  Dict.ofList (names.map fun n => (n, ()))

/-- mirrors bin/ingest:120-160 (`ingest`) -/
def ofRequest (r : Request) : Corpus :=
  { pool := poolOf r
    required := requiredOf r
    files := r.files.map fun f => f.toSource r.filesToGenerate }

end Corpus
end McpCatalog
