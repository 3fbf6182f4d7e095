import McpCatalog.Request.Basic
/-!
# What a request declares

Messages and enumerations are declared in a package or inside other messages. Their
full names have a part for every scope around them. A message comes behind all that is
declared in it; the enumerations of a scope come before those of its messages.

Results:
* `declaredIn_eq`, `enumsInMessages_eq`: what several messages declare is what each of
  them declares, in order.
-/
namespace McpCatalog

/-- A name in a scope; the empty scope leaves it as it is.
mirrors bin/ingest:337-339 -/
def qualify (scope name : String) : String :=
  if scope.isEmpty then name else scope ++ "." ++ name

namespace MessageDecl

mutual

/-- The messages declared by a message in a scope, itself included, under their full names.
mirrors bin/ingest:163-181 (`collect_scope`) -/
def declared (scope : String) : MessageDecl → List (String × MessageDecl)
  | ⟨name, fields, nested, enums, options, oneofs⟩ =>
    let fullName := qualify scope (name.getD "")
    declaredIn fullName nested ++ [(fullName, ⟨name, fields, nested, enums, options, oneofs⟩)]

def declaredIn (scope : String) : List MessageDecl → List (String × MessageDecl)
  | [] => []
  | m :: rest => m.declared scope ++ declaredIn scope rest

end

/-- Enumerations of a scope under their full names. -/
def enumsOf (scope : String) (enums : List EnumDecl) : List (String × EnumDecl) :=
  enums.map fun e => (qualify scope (e.name.getD ""), e)

mutual

/-- The enumerations declared inside a message in a scope, under their full names. -/
def declaredEnums (scope : String) : MessageDecl → List (String × EnumDecl)
  | ⟨name, _, nested, enums, _, _⟩ =>
    let fullName := qualify scope (name.getD "")
    enumsOf fullName enums ++ enumsInMessages fullName nested

def enumsInMessages (scope : String) : List MessageDecl → List (String × EnumDecl)
  | [] => []
  | m :: rest => m.declaredEnums scope ++ enumsInMessages scope rest

end

theorem declaredIn_eq (scope : String) (ms : List MessageDecl) :
    declaredIn scope ms = ms.flatMap fun m => m.declared scope := by
  induction ms with
  | nil => rfl
  | cons m rest ih => rw [declaredIn, ih, List.flatMap_cons]

theorem enumsInMessages_eq (scope : String) (ms : List MessageDecl) :
    enumsInMessages scope ms = ms.flatMap fun m => m.declaredEnums scope := by
  induction ms with
  | nil => rfl
  | cons m rest ih => rw [enumsInMessages, ih, List.flatMap_cons]

end MessageDecl

namespace FileDecl

def scope (f : FileDecl) : String :=
  f.package.getD ""

def declaredMessages (f : FileDecl) : List (String × MessageDecl) :=
  f.messages.flatMap fun m => m.declared f.scope

def declaredEnums (f : FileDecl) : List (String × EnumDecl) :=
  MessageDecl.enumsOf f.scope f.enums ++ f.messages.flatMap fun m => m.declaredEnums f.scope

end FileDecl

namespace Request

/-- The messages that the request declares, under their full names. -/
def messages (r : Request) : List (String × MessageDecl) :=
  r.files.flatMap FileDecl.declaredMessages

/-- The enumerations that the request declares, under their full names. -/
def enums (r : Request) : List (String × EnumDecl) :=
  r.files.flatMap FileDecl.declaredEnums

end Request
end McpCatalog
