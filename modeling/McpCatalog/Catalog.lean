import McpCatalog.Dict
import McpCatalog.Json.Value
/-!
# Catalogs of tools

The tools of a file under two keys: by service and method, and by both names joined
by an underscore. The joined keys and the names of the tools are each unique in a
catalog; an insertion that would break this is refused.

Results:
* `insert_isOk_iff`, `insert_eq_duplicateKey_iff`, `insert_eq_duplicateName_iff`: when
  an insertion is accepted and why it is refused.
-/
namespace McpCatalog

/-- A tool made from a method: its name, what it does, and the schema of its input.
mirrors core/catalog:38-52 -/
structure Tool where
  name : String
  description : String
  inputSchema : Json
  /-- The canonical text of the input schema. -/
  rawInputSchema : String
  requestType : String
  responseType : String

/-- Why a tool cannot join a catalog. -/
inductive Clash where
  | duplicateKey (file key : String)
  | duplicateName (file name : String)
  deriving DecidableEq

/-- mirrors core/lib:45-62 -/
def Clash.message : Clash → String
  | duplicateKey file key => file ++ ": duplicate tool key " ++ key
  | duplicateName file name => file ++ ": duplicate tool name " ++ name

/-- mirrors core/catalog:60-67 -/
structure Catalog where
  services : Dict (Dict Tool)
  tools : Dict Tool
  names : NameSet

namespace Catalog

def empty : Catalog :=
  ⟨.empty, .empty, .empty⟩

instance : Inhabited Catalog := ⟨empty⟩

/-- The key of a method of a service. -/
def key (service method : String) : String :=
  service ++ "_" ++ method

/-- mirrors core/catalog:84-86 -/
def tool? (c : Catalog) (key : String) : Option Tool :=
  c.tools.get? key

/-- mirrors core/catalog:90-92 -/
def size (c : Catalog) : Nat :=
  c.tools.size

/-- mirrors core/catalog:96-98 -/
def isEmpty (c : Catalog) : Bool :=
  c.tools.isEmpty

/-- The methods of a service; none if the service is not in the catalog. -/
def methods (c : Catalog) (service : String) : Dict Tool :=
  (c.services.get? service).getD .empty

/-- The catalog with an entry for the service, whether it has methods or not.
mirrors core/catalog:101-103 -/
def ensureService (c : Catalog) (service : String) : Catalog :=
  { c with services := c.services.insert service (c.methods service) }

/-- The catalog with the tool of a method.
mirrors core/catalog:106-133 -/
def insert (c : Catalog) (file service method : String) (tool : Tool) : Except Clash Catalog :=
  let k := key service method
  if c.tools.contains k then .error (.duplicateKey file k)
  else if c.names.contains tool.name then .error (.duplicateName file tool.name)
  else .ok
    { services := c.services.insert service ((c.methods service).insert method tool)
      tools := c.tools.insert k tool
      names := c.names.insert tool.name () }

theorem insert_eq_duplicateKey_iff {c : Catalog} {file service method : String} {tool : Tool} :
    c.insert file service method tool = .error (.duplicateKey file (key service method))
      ↔ c.tools.contains (key service method) = true := by
  unfold insert
  by_cases hk : c.tools.contains (key service method) = true
  · simp [hk]
  · by_cases hn : c.names.contains tool.name = true <;> simp [hk, hn]

theorem insert_eq_duplicateName_iff {c : Catalog} {file service method : String} {tool : Tool} :
    c.insert file service method tool = .error (.duplicateName file tool.name)
      ↔ c.tools.contains (key service method) = false ∧ c.names.contains tool.name = true := by
  unfold insert
  by_cases hk : c.tools.contains (key service method) = true
  · simp [hk]
  · by_cases hn : c.names.contains tool.name = true <;> simp [hk, hn]

theorem insert_isOk_iff {c : Catalog} {file service method : String} {tool : Tool} :
    (c.insert file service method tool).isOk = true
      ↔ c.tools.contains (key service method) = false ∧ c.names.contains tool.name = false := by
  unfold insert
  by_cases hk : c.tools.contains (key service method) = true
  · simp [hk, Except.isOk, Except.toBool]
  · by_cases hn : c.names.contains tool.name = true <;> simp [hk, hn, Except.isOk, Except.toBool]

end Catalog
end McpCatalog
