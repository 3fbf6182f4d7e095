import McpCatalog.Path
import McpCatalog.Text.Blank
import McpCatalog.Text.Bytes
import McpCatalog.Tool.Name
/-!
# Settings

What a run can be told: the names of the files it makes, the limit on the names of
tools, the format, and where events are reported. Settings are checked before they
are used, whatever way they came in.

Results:
* `check_eq_ok_iff`: the settings that are accepted.
-/
namespace McpCatalog

/-- How a catalog is written.
mirrors config/config:72-78 -/
inductive Format where
  | json
  | rust
  deriving DecidableEq

namespace Format

def name : Format → String
  | json => "json"
  | rust => "rust"

def ofName? : String → Option Format
  | "json" => some json
  | "rust" => some rust
  | _ => none

/-- What the names of generated files end in if nothing else is asked for. -/
def defaultSuffix : Format → String
  | json => ".pb.mcp.json"
  | rust => ".pb.mcp.rs"

end Format

/-- What is reported on the standard error stream: warnings and errors, everything, or
nothing.
mirrors config/config:105-113 -/
inductive Diagnostics where
  | stderr
  | verbose
  | off
  deriving DecidableEq

namespace Diagnostics

def name : Diagnostics → String
  | stderr => "stderr"
  | verbose => "verbose"
  | off => "off"

def ofName? : String → Option Diagnostics
  | "stderr" => some stderr
  | "verbose" => some verbose
  | "off" => some off
  | _ => none

end Diagnostics

/-- mirrors config/config:136-152 -/
structure Settings where
  /-- What the names of generated files end in, if it is not the default of the format. -/
  suffix : Option String
  /-- The limit on the length of the name of a tool. -/
  nameLimit : Nat
  format : Format
  diagnostics : Diagnostics
  /-- The file that all events are appended to. -/
  diagnosticsFile : Option String
  deriving DecidableEq

namespace Settings

/-- mirrors config/config:155-163 -/
def default : Settings :=
  ⟨none, ToolName.defaultLimit, .json, .stderr, none⟩

instance : Inhabited Settings := ⟨default⟩

/-- mirrors config/config:238-243 -/
def effectiveSuffix (s : Settings) : String :=
  s.suffix.getD s.format.defaultSuffix

/-! ## Faults -/

/-- What is wrong with a value of a setting. -/
inductive Fault where
  | nameLimitOutOfRange
  | emptySuffix
  | longSuffix
  | separatorInSuffix
  | blankDiagnosticsFile
  | longDiagnosticsFile
  | longDiagnosticsFileComponent
  deriving DecidableEq

def minNameLimit : Nat := 8

def maxNameLimit : Nat := 1024

def maxSuffixBytes : Nat := 64

def maxPathBytes : Nat := 4096

def maxComponentBytes : Nat := 255

/-- A component of the path takes more bytes than it may. -/
def hasLongComponent (path : List Char) : Bool :=
  (Path.components path).any fun c => decide (maxComponentBytes < Text.byteCount c.text)

/-- mirrors config/config:327-338 -/
def suffixFault? (suffix : String) : Option Fault :=
  if suffix.isEmpty then some .emptySuffix
  else if maxSuffixBytes < suffix.utf8ByteSize then some .longSuffix
  else if suffix.toList.any fun c => c == '/' || c == '\\' then some .separatorInSuffix
  else none

/-- What is wrong with the path of the file for events, which is looked at without the
blanks at its ends.
mirrors config/config:356-371 -/
def diagnosticsFileFault? (path : String) : Option Fault :=
  let trimmed := Text.trim path.toList
  if trimmed.isEmpty then some .blankDiagnosticsFile
  else if maxPathBytes < Text.byteCount trimmed then some .longDiagnosticsFile
  else if hasLongComponent trimmed then some .longDiagnosticsFileComponent
  else none

/-- The first thing that is wrong with the settings.
mirrors config/config:221-234 (`validate`) -/
def fault? (s : Settings) : Option Fault :=
  if s.nameLimit < minNameLimit ∨ maxNameLimit < s.nameLimit then some .nameLimitOutOfRange
  else (s.suffix.bind suffixFault?).or (s.diagnosticsFile.bind diagnosticsFileFault?)

/-- The settings, if nothing is wrong with them. -/
def check (s : Settings) : Except Fault Settings :=
  match s.fault? with
  | some fault => .error fault
  | none => .ok s

theorem check_eq_ok_iff {s t : Settings} : s.check = .ok t ↔ s = t ∧ s.fault? = none := by
  unfold check
  split <;> simp_all

end Settings
end McpCatalog
