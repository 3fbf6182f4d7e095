import McpCatalog.Corpus.Declared
import McpCatalog.Dict
import McpCatalog.Proto.Descriptor
/-!
# Fields from their declarations

A map is declared as a repeated field whose type is a message made up for the entries
of the map. Such a field becomes a map again: its keys and values are described by the
fields of the entry message. Entries whose values are maps are followed in turn, each
entry message at most once, so a circle of them ends.

Results:
* `fieldOf_fullName`: a field is named after the scope it stands in.
-/
namespace McpCatalog

/-- A name without the dot that marks it as fully qualified.
mirrors bin/ingest:342-344 -/
def withoutLeadingDot (name : String) : String :=
  match name.toList with
  | '.' :: rest => String.ofList rest
  | _ => name

namespace FieldDecl

/-- The label of repeated fields. -/
def repeatedLabel : Int := 3

/-- The behavior of fields that must be present. -/
def requiredBehavior : Int := 2

def isRepeated (f : FieldDecl) : Bool :=
  f.label == some repeatedLabel

def isRequired (f : FieldDecl) : Bool :=
  f.options.any fun o => o.behaviors.contains requiredBehavior

def reference? (f : FieldDecl) : Option String :=
  f.typeName.map withoutLeadingDot

def kind (f : FieldDecl) : FieldKind :=
  FieldKind.ofNumber (f.type.getD 0)

def fullName (scope : String) (f : FieldDecl) : String :=
  qualify scope (f.name.getD "")

/-- The field as it is declared, whatever its type stands for.
mirrors bin/ingest:209-219 -/
def plain (f : FieldDecl) : Field :=
  let field := Field.ofKind (f.name.getD "") f.kind
  let field := match f.reference? with
    | some t => field.withTypeName t
    | none => field
  if f.isRepeated then field.repeated else field

end FieldDecl

namespace MessageDecl

/-- The message stands for the entries of a map.
mirrors bin/ingest:332-334 -/
def isMapEntry (m : MessageDecl) : Bool :=
  (m.options.bind (·.mapEntry)).getD false

/-- The first field with the given number. -/
def fieldNumbered? (m : MessageDecl) (n : Int) : Option FieldDecl :=
  m.fields.find? fun f => f.number == some n

/-- The kind of the keys of a map with such entries. -/
def keyKind (m : MessageDecl) : FieldKind :=
  match m.fieldNumbered? 1 with
  | some f => f.kind
  | none => .string

/-- The field for the values of a map with such entries, if there is one. -/
def valueDecl? (m : MessageDecl) : Option FieldDecl :=
  m.fieldNumbered? 2

/-- What the values of a map are if the entries do not say.
mirrors bin/ingest:243 -/
def defaultValue : Field :=
  Field.ofKind "value" .string

/-- The group of alternatives that a field of the message belongs to.
mirrors bin/ingest:250-258 (`oneof_ref`) -/
def oneof? (m : MessageDecl) (f : FieldDecl) : Option Oneof :=
  match f.oneofIndex with
  | some (.ofNat i) =>
    m.oneofs[i]?.map fun o => ⟨o.name.getD "", f.proto3Optional == some true⟩
  | _ => none

/-- Puts a field that was made from a declaration in its place in the message.
mirrors bin/ingest:221-226 -/
def place (scope : String) (m : MessageDecl) (f : FieldDecl) (field : Field) : Field :=
  let field := field.withFullName (f.fullName scope)
  match m.oneof? f with
  | some o => field.withOneof o
  | none => field

end MessageDecl

/-! ## Maps -/

/-- The entry message of a field that stands for a map, if it is not on the path. Without circles
among the entries it never is (`Request.NoCircle`); with a circle the program follows the entries
without end, and only to keep `fieldOf` total they end here where they come back to the path.
mirrors bin/ingest:202-206 -/
def FieldDecl.entry? (entries : Dict MessageDecl) (path : List String) (f : FieldDecl) :
    Option (String × MessageDecl) :=
  if f.isRepeated then
    match f.reference? with
    | some t => if t ∈ path then none else (entries.get? t).map fun e => (t, e)
    | none => none
  else none

theorem FieldDecl.unvisited_lt {entries : Dict MessageDecl} {path : List String} {f : FieldDecl}
    {t : String} {e : MessageDecl} (h : f.entry? entries path = some (t, e)) :
    entries.unvisited (t :: path) < entries.unvisited path := by
  unfold entry? at h
  split at h
  · split at h
    · split at h
      · simp at h
      · rename_i hp
        obtain ⟨e', he, heq⟩ := Option.map_eq_some_iff.1 h
        simp only [Prod.mk.injEq] at heq
        obtain ⟨rfl, rfl⟩ := heq
        exact Dict.unvisited_cons_lt he hp
    · simp at h
  · simp at h

/-- The field for a declaration in a message with the given full name; the entry messages on
the path are followed already.
mirrors bin/ingest:184-247 (`convert_field`, `map_field`) -/
def fieldOf (entries : Dict MessageDecl) (path : List String) (scope : String) (m : MessageDecl)
    (f : FieldDecl) : Field :=
  m.place scope f <|
    match _h : f.entry? entries path with
    | none => f.plain
    | some (t, e) =>
      .ofMap (f.name.getD "") e.keyKind <|
        match e.valueDecl? with
        | some v => fieldOf entries (t :: path) t e v
        | none => MessageDecl.defaultValue
termination_by entries.unvisited path
decreasing_by exact FieldDecl.unvisited_lt _h

/-- The full names of the required fields among a field and the values of the maps that it
stands for.
mirrors bin/ingest:193-199 -/
def requiredNames (entries : Dict MessageDecl) (path : List String) (scope : String)
    (f : FieldDecl) : List String :=
  (if f.isRequired then [f.fullName scope] else []) ++
    match _h : f.entry? entries path with
    | none => []
    | some (t, e) =>
      match e.valueDecl? with
      | some v => requiredNames entries (t :: path) t v
      | none => []
termination_by entries.unvisited path
decreasing_by exact FieldDecl.unvisited_lt _h

theorem fieldOf_fullName (entries : Dict MessageDecl) (path : List String) (scope : String)
    (m : MessageDecl) (f : FieldDecl) :
    (fieldOf entries path scope m f).fullName = f.fullName scope := by
  rw [fieldOf]
  simp only [MessageDecl.place]
  split <;> rfl

end McpCatalog
