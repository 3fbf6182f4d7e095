import McpCatalog.Json.Text
/-!
# Events of a generation pass

What happens to files and methods is told by events, each with a level. A log holds
one event to a line, as a JSON object.

Results:
* `mem_atLeast`: a filter by level keeps the events of that level and above.
-/
namespace McpCatalog

/-- How serious an event is.
mirrors core/diagnostics:35-42 -/
inductive Level where
  | info
  | warning
  | error
  deriving DecidableEq

namespace Level

def name : Level → String
  | info => "info"
  | warning => "warning"
  | error => "error"

def rank : Level → Nat
  | info => 0
  | warning => 1
  | error => 2

end Level

/-- What happened.
mirrors core/diagnostics:47-60 -/
inductive EventKind where
  | fileGenerated
  | fileSkipped
  | fileFailed
  | methodSkipped
  | toolSkipped
  | recursiveReference
  deriving DecidableEq

def EventKind.name : EventKind → String
  | fileGenerated => "file_generated"
  | fileSkipped => "file_skipped"
  | fileFailed => "file_failed"
  | methodSkipped => "method_skipped"
  | toolSkipped => "tool_skipped"
  | recursiveReference => "recursive_reference"

/-- An event in a file, or in a method of a service of the file.
mirrors core/diagnostics:64-79 -/
structure Event where
  kind : EventKind
  level : Level
  file : String
  service : Option String
  method : Option String
  message : String
  deriving DecidableEq

namespace Event

/-- mirrors core/diagnostics:84-98 -/
def inFile (kind : EventKind) (level : Level) (file message : String) : Event :=
  ⟨kind, level, file, none, none, message⟩

/-- mirrors core/diagnostics:102-106 -/
def inMethod (e : Event) (service method : String) : Event :=
  { e with service := some service, method := some method }

/-- The members of the event as a JSON object, in the order in which they are written. -/
def members (e : Event) : List (String × Json) :=
  [("event", .str e.kind.name), ("level", .str e.level.name), ("file", .str e.file)]
    ++ (e.service.map fun s => ("service", Json.str s)).toList
    ++ (e.method.map fun m => ("method", Json.str m)).toList
    ++ [("message", .str e.message)]

/-- The event as a line of a log, recorded at a time in milliseconds.
mirrors core/diagnostics:111-130 and 174-181 -/
def line (e : Event) (time : Nat) : String :=
  (Json.obj (("timestamp_ms", .int time) :: e.members)).compact

/-- The events of at least the given level.
mirrors core/diagnostics:204-208 -/
def atLeast (level : Level) (events : List Event) : List Event :=
  events.filter fun e => decide (level.rank ≤ e.level.rank)

/-- The text that a log grows by. -/
def log (time : Nat) (events : List Event) : String :=
  String.join (events.map fun e => e.line time ++ "\n")

theorem mem_atLeast {level : Level} {events : List Event} {e : Event} :
    e ∈ atLeast level events ↔ e ∈ events ∧ level.rank ≤ e.level.rank := by
  simp [atLeast]

end Event
end McpCatalog
