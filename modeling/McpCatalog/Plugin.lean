import McpCatalog.Request.Decoding
import McpCatalog.Response
import McpCatalog.Settings.Parameter
/-!
# The plugin

One run: the request is decoded, the settings are found, the file for events is
opened, and a pass goes over the files of the request. All that the run needs to know
of the file system is given to it, and what it wants to be written is part of its
outcome.

Results:
* `generate_eq_undecodable`: bytes that are no request stop a run before anything else.
-/
namespace McpCatalog

/-- What a run sees of the file system. -/
structure Files where
  /-- The contents of a file, if it can be read. -/
  read? : String → Option Bytes
  /-- The file can be opened to append to it, and is made if there is none. -/
  canAppend : String → Bool

namespace Plugin

/-! ## Errors -/

/-- Why there is no pass.
mirrors bin/plugin:57-76 -/
inductive Error where
  | io
  | tooLarge (limit : Nat)
  | undecodable
  | settings (e : Settings.Error)
  | closedDiagnosticsFile
  deriving DecidableEq

def Error.message : Error → String
  | io => "io error"
  | tooLarge limit => "request exceeds " ++ Numeral.decimal limit ++ " bytes"
  | undecodable => "failed to decode code generator request"
  | settings e => e.message
  | closedDiagnosticsFile => "failed to open diagnostics file"

/-! ## Input -/

/-- The most bytes that a request can have.
mirrors bin/plugin:47 -/
def maxRequestBytes : Nat := 64 * 1024 * 1024

/-- The bytes of a request that was read, if they are within the limit.
mirrors bin/plugin:214-227 (`read_request`) -/
def accept (limit : Nat) : Option Bytes → Except Error Bytes
  | none => .error .io
  | some bytes => if limit < bytes.length then .error (.tooLarge limit) else .ok bytes

def request (bytes : Bytes) : Except Error Request :=
  match Request.decode? bytes with
  | some r => .ok r
  | none => .error .undecodable

/-- The parameter of a run: the one given beside the request, else that of the request. -/
def parameter (r : Request) (override : Option String) : String :=
  (override.or r.parameter).getD ""

def settings (read? : String → Option Bytes) (r : Request) (override : Option String) :
    Except Error Settings :=
  (Settings.ofParameter read? (parameter r override)).mapError .settings

/-! ## Runs -/

/-- What a run gives back and what it wants to be written. -/
structure Outcome where
  response : Response
  /-- The events for the standard error stream. -/
  shown : List Event
  /-- The file to append to, with the events for it. -/
  log : Option (String × List Event)

/-- The events of a pass that are shown.
mirrors bin/plugin:94-103 -/
def shown : Diagnostics → List Event → List Event
  | .stderr, events => Event.atLeast .warning events
  | .verbose, events => events
  | .off, _ => []

/-- The outcome of the pass over a request. -/
def outcome (s : Settings) (r : Request) : Outcome :=
  let pass := Pass.run s (Corpus.ofRequest r)
  { response := .ofPass pass
    shown := shown s.diagnostics pass.events
    log := s.diagnosticsFile.map fun path => (path, pass.events) }

/-- The file for events can be opened, if there is to be one.
mirrors bin/plugin:104-108 -/
def canLog (files : Files) (s : Settings) : Bool :=
  s.diagnosticsFile.all files.canAppend

/-- A run over the bytes of a request.
mirrors bin/plugin:142-193 -/
def generate (files : Files) (bytes : Bytes) (override : Option String) :
    Except Error Outcome := do
  let r ← request bytes
  let s ← settings files.read? r override
  if canLog files s then return outcome s r else throw .closedDiagnosticsFile

/-- A run whose error, if there is one, becomes the response.
mirrors bin/plugin:129-131 -/
def run (files : Files) (bytes : Bytes) (override : Option String) : Outcome :=
  match generate files bytes override with
  | .ok outcome => outcome
  | .error e => ⟨.ofError e.message, [], none⟩

theorem generate_eq_undecodable {files : Files} {bytes : Bytes} {override : Option String}
    (h : Request.decode? bytes = none) :
    generate files bytes override = .error .undecodable := by
  simp [generate, request, h, bind, Except.bind]

/-! ## What a run looks at -/

/-- The file with settings that a run reads. -/
def baseFile? (bytes : Bytes) (override : Option String) : Option String :=
  match Request.decode? bytes with
  | some r => Settings.baseFile? (parameter r override)
  | none => none

/-- The file that a run opens to append to. -/
def logFile? (read? : String → Option Bytes) (bytes : Bytes) (override : Option String) :
    Option String :=
  match Request.decode? bytes with
  | some r =>
    match settings read? r override with
    | .ok s => s.diagnosticsFile
    | .error _ => none
  | none => none

end Plugin
end McpCatalog
