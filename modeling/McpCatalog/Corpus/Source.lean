import McpCatalog.Corpus.Conversion
import McpCatalog.Path
import McpCatalog.Proto.File
/-!
# Source files from their declarations

The services of a file with their methods. A location of the file is that of a method
if its path is the number of the services of a file, the position of the service, the
number of the methods of a service, the position of the method. The comments of these
locations are noted one after the other, under the positions.

Results:
* `positions?_eq_some_iff`: the paths of methods.
* `lookup_note_self`, `lookup_note_of_silent`: a location is seen at its own method only.
-/
namespace McpCatalog

/-! ## Comments -/

namespace SourceInfo

/-- The path of a method, by the positions of its service and of the method in it. -/
def methodPath (service method : Nat) : List Int :=
  [6, service, 2, method]

/-- The positions of the method that a path is the path of. -/
def positions? : List Int → Option (Nat × Nat)
  | [6, .ofNat service, 2, .ofNat method] => some (service, method)
  | _ => none

theorem positions?_eq_some_iff {path : List Int} {service method : Nat} :
    positions? path = some (service, method) ↔ path = methodPath service method := by
  constructor
  · intro h
    unfold positions? at h
    split at h
    · obtain ⟨rfl, rfl⟩ := Prod.mk.inj (Option.some.inj h)
      rfl
    · simp at h
  · rintro rfl
    rfl

/-- The comments in front of methods by the positions of the methods. Of two for one method
the one that was noted later comes first. -/
abbrev Comments := List ((Nat × Nat) × String)

/-- Notes the comment of a location, if it is the location of a method and has one. -/
def note (comments : Comments) (l : Location) : Comments :=
  match positions? l.path, l.leadingComments with
  | some position, some text => (position, text) :: comments
  | _, _ => comments

/-- The comments in front of the methods of a file.
mirrors bin/ingest:311-325 -/
def methodComments (locations : List Location) : Comments :=
  locations.foldl note []

theorem lookup_note_self {l : Location} {service method : Nat} {text : String}
    (hpath : l.path = methodPath service method) (htext : l.leadingComments = some text)
    (comments : Comments) : (note comments l).lookup (service, method) = some text := by
  simp [note, positions?_eq_some_iff.2 hpath, htext]

theorem lookup_note_of_silent {l : Location} {service method : Nat}
    (h : l.path ≠ methodPath service method ∨ l.leadingComments = none) (comments : Comments) :
    (note comments l).lookup (service, method) = comments.lookup (service, method) := by
  unfold note
  split
  · next position text hposition htext =>
    have hne : (service, method) ≠ position := by
      rintro rfl
      exact h.elim (fun hpath => hpath (positions?_eq_some_iff.1 hposition)) (by simp [htext])
    rw [List.lookup_cons, beq_eq_false_iff_ne.2 hne]
  · rfl

end SourceInfo

/-! ## Services -/

/-- mirrors bin/ingest:276-292 -/
def MethodDecl.toMethod (m : MethodDecl) (service comment : String) : Method :=
  { name := m.name.getD ""
    fullName := qualify service (m.name.getD "")
    inputType := withoutLeadingDot (m.inputType.getD "")
    outputType := withoutLeadingDot (m.outputType.getD "")
    clientStreaming := m.clientStreaming.getD false
    serverStreaming := m.serverStreaming.getD false
    leadingComments := comment }

/-- The service at a position of a file, where `comment` finds the comments of methods.
mirrors bin/ingest:269-299 -/
def ServiceDecl.toService (s : ServiceDecl) (scope : String) (position : Nat)
    (comment : Nat → Nat → String) : Service :=
  let fullName := qualify scope (s.name.getD "")
  { name := s.name.getD ""
    fullName
    methods := s.methods.zipIdx.map fun m => m.1.toMethod fullName (comment position m.2) }

/-! ## Files -/

namespace FileDecl

def path (f : FileDecl) : String :=
  f.name.getD ""

def locations (f : FileDecl) : List Location :=
  match f.sourceInfo with
  | some info => info.locations
  | none => []

/-- The comment in front of a method; empty if there is none. -/
def comment (f : FileDecl) (service method : Nat) : String :=
  ((SourceInfo.methodComments f.locations).lookup (service, method)).getD ""

/-- The package with underscores for dots; without a package, the name of the file without
its directories and its extension.
mirrors bin/ingest:347-356 -/
def moduleName (f : FileDecl) : String :=
  if f.scope.isEmpty then String.ofList ((Path.stem? f.path.toList).getD [])
  else String.ofList (f.scope.toList.map fun c => if c = '.' then '_' else c)

/-- The file with its services; `requested` are the files that tools are generated for.
mirrors bin/ingest:261-308 (`convert_file`) -/
def toSource (f : FileDecl) (requested : List String) : SourceFile :=
  { path := f.path
    package := f.scope
    moduleName := f.moduleName
    generate := requested.contains f.path
    services := f.services.zipIdx.map fun s => s.1.toService f.scope s.2 f.comment }

end FileDecl
end McpCatalog
