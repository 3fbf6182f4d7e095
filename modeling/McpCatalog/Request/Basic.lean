/-!
# Requests

What a compiler asks of the generator: files by name, a parameter, and all the files
with their declarations. Everything that can be absent is kept apart from its default,
because some of it matters.
-/
namespace McpCatalog

/-- A declaration of which only the name is of interest. -/
structure NamedDecl where
  name : Option String
  deriving DecidableEq, Inhabited

structure FieldOptions where
  /-- The numbers of the annotated behaviors. -/
  behaviors : List Int
  deriving DecidableEq, Inhabited

/-- A field of a message. Its label and its type are numbers, known or not.
mirrors bin/wire:98-123 -/
structure FieldDecl where
  name : Option String
  number : Option Int
  label : Option Int
  type : Option Int
  typeName : Option String
  options : Option FieldOptions
  oneofIndex : Option Int
  proto3Optional : Option Bool
  deriving DecidableEq, Inhabited

/-- mirrors bin/wire:143-150 -/
structure EnumDecl where
  name : Option String
  values : List NamedDecl
  deriving DecidableEq, Inhabited

structure MessageOptions where
  mapEntry : Option Bool
  deriving DecidableEq, Inhabited

/-- A message with the messages and enumerations declared in it.
mirrors bin/wire:67-86 -/
structure MessageDecl where
  name : Option String
  fields : List FieldDecl
  nested : List MessageDecl
  enums : List EnumDecl
  options : Option MessageOptions
  oneofs : List NamedDecl
  deriving Inhabited

/-- mirrors bin/wire:173-189 -/
structure MethodDecl where
  name : Option String
  inputType : Option String
  outputType : Option String
  clientStreaming : Option Bool
  serverStreaming : Option Bool
  deriving DecidableEq, Inhabited

/-- mirrors bin/wire:162-169 -/
structure ServiceDecl where
  name : Option String
  methods : List MethodDecl
  deriving DecidableEq, Inhabited

/-- A place in a file, as a path of field numbers and positions.
mirrors bin/wire:201-208 -/
structure Location where
  path : List Int
  leadingComments : Option String
  deriving DecidableEq, Inhabited

structure SourceInfo where
  locations : List Location
  deriving DecidableEq, Inhabited

/-- mirrors bin/wire:44-63 -/
structure FileDecl where
  name : Option String
  package : Option String
  messages : List MessageDecl
  enums : List EnumDecl
  services : List ServiceDecl
  sourceInfo : Option SourceInfo
  deriving Inhabited

/-- mirrors bin/wire:30-40 -/
structure Request where
  /-- The names of the files that tools are generated for. -/
  filesToGenerate : List String
  parameter : Option String
  files : List FileDecl
  deriving Inhabited

end McpCatalog
