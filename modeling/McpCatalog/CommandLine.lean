import McpCatalog.Render.JsonCatalog
/-!
# The command line

A request is read from the standard input or from a file, and its parameter can be
replaced. Arguments are looked at from left to right, and the first that decides
anything wins.

Results:
* `parse_nil`: without arguments the request comes from the standard input.
-/
namespace McpCatalog.CommandLine

/-- What the program is asked to do. -/
inductive Command where
  | version
  | help
  | generate (request : Option String) (parameter : Option String)
  deriving DecidableEq

/-! ## Texts -/

/-- The name that messages of the program start with. -/
def programName : String := "protoc-gen-mcp"

def versionText : String := Render.generator ++ "\n"

def usageText : String :=
  "Usage: " ++ programName ++ " [--request FILE] [--parameter PARAMS]\n"

/-- The line for an error that leaves the program without a response.
mirrors bin/main:88-97 -/
def errorLine (message : String) : String :=
  programName ++ ": " ++ message ++ "\n"

/-! ## Arguments -/

/-- The options that take a value.
mirrors bin/main:40-47 -/
structure Options where
  request : Option String
  parameter : Option String

/-- The options with a file for the request, which must have a name. -/
def Options.withRequest (o : Options) (value : String) : Option Options :=
  if o.request.isSome ∨ value.isEmpty then none else some { o with request := some value }

def Options.withParameter (o : Options) (value : String) : Option Options :=
  if o.parameter.isSome then none else some { o with parameter := some value }

/-- The options with the value of an option, given by its name. -/
def Options.withOption (o : Options) : (name value : String) → Option Options
  | "--request", value => o.withRequest value
  | "--parameter", value => o.withParameter value
  | _, _ => none

/-- An argument that cannot be the value of the option before it. -/
def isOption (arg : String) : Bool :=
  match arg.toList with
  | '-' :: _ :: _ => true
  | _ => false

/-- The name and the value of an argument with an equals sign. -/
def splitValue (arg : String) : Option (String × String) :=
  match arg.toList.dropWhile (· != '=') with
  | _ :: value =>
    some (String.ofList (arg.toList.takeWhile (· != '=')), String.ofList value)
  | [] => none

/-- An argument that asks for nothing but some information. -/
def information? (arg : String) : Option Command :=
  if arg = "--version" ∨ arg.startsWith "-V" then some .version
  else if arg = "--help" ∨ arg.startsWith "-h" then some .help
  else none

/-- Reads the arguments behind those that gave the options. -/
def parseFrom (o : Options) : List String → Option Command
  | [] => some (.generate o.request o.parameter)
  | ["--"] => some (.generate o.request o.parameter)
  | arg :: rest =>
    match information? arg with
    | some command => some command
    | none =>
      match splitValue arg with
      | some (name, value) => (o.withOption name value).bind fun o => parseFrom o rest
      | none =>
        match rest with
        | value :: rest =>
          if isOption value then none
          else (o.withOption arg value).bind fun o => parseFrom o rest
        | [] => none

/-- The command that the arguments stand for; `none` if they are not understood. -/
def parse (args : List String) : Option Command :=
  parseFrom ⟨none, none⟩ args

theorem parse_nil : parse [] = some (.generate none none) := rfl

end McpCatalog.CommandLine
