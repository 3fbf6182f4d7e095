import McpCatalog.CommandLine
import McpCatalog.Plugin
import Std.Time.DateTime.Timestamp
/-!
# The program

Reads a request, runs the plugin on it and writes the response to the standard output.
Events go to the standard error stream and to a file, where the settings ask for it.
-/
namespace McpCatalog

/-- The contents of a file, if it can be read. -/
def readFile? (path : String) : IO (Option Bytes) := do
  try
    return some (← IO.FS.readBinFile path).data.toList
  catch _ => return none

/-- The bytes of a stream up to one over the limit. -/
partial def readUpTo (stream : IO.FS.Stream) (limit : Nat) (bytes : ByteArray) : IO ByteArray := do
  if limit < bytes.size then return bytes
  let more ← stream.read 65536
  if more.isEmpty then return bytes
  readUpTo stream limit (bytes ++ more)

def readInput? (request : Option String) : IO (Option Bytes) := do
  match request with
  | some path => readFile? path
  | none =>
    try
      return some (← readUpTo (← IO.getStdin) Plugin.maxRequestBytes .empty).data.toList
    catch _ => return none

/-- Opens a file to append to it, and makes it if there is none. -/
def openLog? (path : String) : IO (Option IO.FS.Handle) := do
  try
    return some (← IO.FS.Handle.mk path .append)
  catch _ => return none

def now : IO Nat := do
  return (← Std.Time.Timestamp.now).toMillisecondsSinceUnixEpoch.val.toNat

/-- Runs the plugin and writes what it wants to be written.
mirrors bin/main:62-74 -/
def execute (bytes : Bytes) (override : Option String) : IO Unit := do
  let base ← match Plugin.baseFile? bytes override with
    | some path => readFile? path
    | none => pure none
  let read? : String → Option Bytes := fun _ => base
  let log ← match Plugin.logFile? read? bytes override with
    | some path => openLog? path
    | none => pure none
  let outcome := Plugin.run ⟨read?, fun _ => log.isSome⟩ bytes override
  let time ← now
  (← IO.getStderr).putStr (Event.log time outcome.shown)
  match log, outcome.log with
  | some handle, some (_, events) => handle.putStr (Event.log time events)
  | _, _ => pure ()
  let stdout ← IO.getStdout
  stdout.write ⟨(Response.encode outcome.response).toArray⟩
  stdout.flush

end McpCatalog

open McpCatalog in
/-- The entry point: exit code 1 without a request, 2 for arguments that are not understood.
mirrors bin/main:54-59 -/
def main (args : List String) : IO UInt32 := do
  match CommandLine.parse args with
  | none =>
    (← IO.getStderr).putStr CommandLine.usageText
    return 2
  | some .version =>
    (← IO.getStdout).putStr CommandLine.versionText
    return 0
  | some .help =>
    (← IO.getStdout).putStr CommandLine.usageText
    return 0
  | some (.generate request override) =>
    match Plugin.accept Plugin.maxRequestBytes (← readInput? request) with
    | .error e =>
      (← IO.getStderr).putStr (CommandLine.errorLine e.message)
      return 1
    | .ok bytes =>
      execute bytes override
      return 0
