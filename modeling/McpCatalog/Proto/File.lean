/-!
# Source files and their services

A source file as the generator sees it: where it comes from, whether it was asked
for, and the services it declares.
-/
namespace McpCatalog

/-- A method of a service.
mirrors core/descriptor:377-392 -/
structure Method where
  name : String
  fullName : String
  inputType : String
  outputType : String
  clientStreaming : Bool
  serverStreaming : Bool
  leadingComments : String
  deriving DecidableEq

/-- More than one message is sent in some direction.
mirrors core/descriptor:397-399 -/
def Method.isStreaming (m : Method) : Bool :=
  m.clientStreaming || m.serverStreaming

/-- mirrors core/descriptor:404-411 -/
structure Service where
  name : String
  fullName : String
  methods : List Method
  deriving DecidableEq

/-- A source file with the services it declares, in order.
mirrors core/descriptor:415-426 -/
structure SourceFile where
  path : String
  package : String
  moduleName : String
  generate : Bool
  services : List Service
  deriving DecidableEq

end McpCatalog
