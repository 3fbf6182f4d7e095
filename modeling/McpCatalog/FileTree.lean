import McpCatalog.Plugin
/-!
# File trees

The directories and files of a file system, to run the plugin on without touching a
disk. A path leads through directories that exist to a name. With a slash in front it
starts at the root, else at the working directory; above the root is the root again.
The null device can be read and appended to, and always stays empty.

Results:
* `lookup_appendAt_self`: what is appended to a file stands behind what it held.
* `resolve?_append`: appending changes no way to a place.
* `read?_append_self`: so what is appended under a path is read under it.
-/
namespace McpCatalog

/-- Directories and files at their places below the root, which is always there. -/
structure FileTree where
  /-- Where a path without a slash in front starts. -/
  working : List String
  directories : List (List String)
  files : List (List String × Bytes)
  deriving DecidableEq

namespace FileTree

def nullDevice : List String := ["dev", "null"]

/-- The directories that lead to a place, with the place itself. -/
def wayTo (place : List String) : List (List String) :=
  (List.range place.length).map fun n => place.take (n + 1)

/-- The tree with a directory and those around it. -/
def makeDirectory (t : FileTree) (place : List String) : FileTree :=
  { t with directories := wayTo place ++ t.directories }

/-- The tree with a file and the directories around it. -/
def addFile (t : FileTree) (place : List String) (bytes : Bytes) : FileTree :=
  let t := t.makeDirectory place.dropLast
  { t with files := t.files ++ [(place, bytes)] }

/-- The tree in which there is nothing but an empty working directory and the place of
the null device. -/
def empty (working : List String) : FileTree :=
  makeDirectory ⟨working, wayTo working, []⟩ nullDevice.dropLast

/-! ## Paths -/

/-- The most bytes of a name. -/
def maxNameBytes : Nat := 255

/-- The most bytes of a path. -/
def maxPathBytes : Nat := 4095

def isDirectory (t : FileTree) (place : List String) : Bool :=
  place.isEmpty || t.directories.contains place

def isName (name : String) : Bool :=
  decide (name.utf8ByteSize ≤ maxNameBytes) && !name.toList.contains '\x00'

/-- Enters the directory with a name. -/
def enter (t : FileTree) (here : List String) (name : String) : Option (List String) :=
  if name = "" ∨ name = "." then some here
  else if name = ".." then some here.dropLast
  else if t.isDirectory (here ++ [name]) then some (here ++ [name])
  else none

/-- The names in a path, with empty ones where slashes meet. -/
def splitPath (path : String) : List String :=
  (path.toList.splitOn '/').map String.ofList

/-- Where a path starts. -/
def start (t : FileTree) (path : String) : List String :=
  if path.startsWith "/" then [] else t.working

/-- The place that a path leads to, which is no directory. -/
def resolve? (t : FileTree) (path : String) : Option (List String) :=
  let names := splitPath path
  if maxPathBytes < path.utf8ByteSize ∨ !names.all isName then none
  else
    match names.getLast? with
    | some name =>
      if name = "" ∨ name = "." ∨ name = ".." then none
      else
        (names.dropLast.foldlM t.enter (t.start path)).bind fun here =>
          if t.isDirectory (here ++ [name]) then none else some (here ++ [name])
    | none => none

/-! ## Files -/

def read? (t : FileTree) (path : String) : Option Bytes :=
  (t.resolve? path).bind fun place =>
    if place = nullDevice then some [] else t.files.lookup place

def canAppend (t : FileTree) (path : String) : Bool :=
  (t.resolve? path).isSome

/-- Appends to a file, which is made if there is none. -/
def appendAt (place : List String) (bytes : Bytes) :
    List (List String × Bytes) → List (List String × Bytes)
  | [] => [(place, bytes)]
  | (p, held) :: rest =>
    if p = place then (p, held ++ bytes) :: rest else (p, held) :: appendAt place bytes rest

/-- The tree after something was appended to a file, if that is possible. -/
def append (t : FileTree) (path : String) (bytes : Bytes) : FileTree :=
  match t.resolve? path with
  | some place =>
    if place = nullDevice then t else { t with files := appendAt place bytes t.files }
  | none => t

/-- What a run sees of the tree. -/
def view (t : FileTree) : Files :=
  ⟨t.read?, t.canAppend⟩

/-! ## Logs -/

/-- Appends events to a file, if it can be opened; `time` is when they are recorded. -/
def record (t : FileTree) (time : Nat) (path : String) (events : List Event) : Option FileTree :=
  if t.canAppend path then some (t.append path (Text.toBytes (Event.log time events))) else none

/-- The tree after a run wrote what it wanted to be written. -/
def afterRun (t : FileTree) (time : Nat) (o : Plugin.Outcome) : FileTree :=
  match o.log with
  | some (path, events) => t.append path (Text.toBytes (Event.log time events))
  | none => t

theorem lookup_appendAt_self (place : List String) (bytes : Bytes)
    (files : List (List String × Bytes)) :
    (appendAt place bytes files).lookup place
      = some ((files.lookup place).getD [] ++ bytes) := by
  induction files with
  | nil => simp [appendAt]
  | cons f rest ih =>
    obtain ⟨p, held⟩ := f
    by_cases h : p = place
    · simp [appendAt, h]
    · have h' : (place == p) = false := by simpa using fun e => h e.symm
      simp [appendAt, h, List.lookup_cons, h', ih]

theorem resolve?_append (t : FileTree) (path : String) (bytes : Bytes) :
    (t.append path bytes).resolve? = t.resolve? := by
  unfold append
  split
  · split <;> rfl
  · rfl

theorem read?_append_self {t : FileTree} {path : String} {place : List String} {bytes : Bytes}
    (h : t.resolve? path = some place) (hn : place ≠ nullDevice) :
    (t.append path bytes).read? path = some ((t.read? path).getD [] ++ bytes) := by
  have hr : (t.append path bytes).resolve? path = some place := by rw [resolve?_append, h]
  have hf : (t.append path bytes).files = appendAt place bytes t.files := by simp [append, h, hn]
  simp [read?, hr, hf, h, hn, lookup_appendAt_self]

end FileTree
end McpCatalog
