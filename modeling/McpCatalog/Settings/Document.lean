import McpCatalog.Settings.Error
import McpCatalog.Toml.Document
/-!
# Settings from documents

A TOML document with a key for each setting that is not to have its default. Every
other key spoils the document, and so does a value of the wrong type.

Results:
* `ofDocument_eq_ok`: settings from a document are in bounds.
-/
namespace McpCatalog.Settings

/-! ## Values -/

/-- The name that a value chooses: a string, or the only key of a table with nothing
under it. -/
def choice? : Toml.Value → Option String
  | .text s => some s
  | .table _ [(name, .emptyList)] => some name
  | .table _ [(name, .table _ [])] => some name
  | _ => none

def text? : Toml.Value → Option String
  | .text s => some s
  | _ => none

/-- A number that fits in 64 bits without a sign. -/
def natural? : Toml.Value → Option Nat
  | .number (.ofNat n) => if n < UInt64.size then some n else none
  | _ => none

/-! ## Tables -/

/-- The settings with the value of a key. -/
def withEntry? (s : Settings) (entry : String × Toml.Value) : Option Settings :=
  match entry with
  | ("suffix", v) => (text? v).map fun text => { s with suffix := some text }
  | ("max_tool_name_len", v) => (natural? v).map fun n => { s with nameLimit := n }
  | ("format", v) => (choice? v >>= Format.ofName?).map fun format => { s with format }
  | ("diagnostics", v) =>
    (choice? v >>= Diagnostics.ofName?).map fun diagnostics => { s with diagnostics }
  | ("diagnostics_file", v) => (text? v).map fun text => { s with diagnosticsFile := some text }
  | _ => none

/-- The settings of a table, before they are checked. -/
def ofTable? (t : Toml.Table) : Option Settings :=
  t.foldlM withEntry? default

/-- The settings that a document describes.
mirrors config/config:188-193 (`from_toml_str`) -/
def ofDocument (document : String) : Except Error Settings :=
  match Toml.parse? document >>= ofTable? with
  | none => .error .unparsable
  | some s => s.check.mapError .fault

/-! ## Files -/

/-- The most bytes that a file with settings can have.
mirrors config/config:36 -/
def maxFileBytes : Nat := 1024 * 1024

/-- The settings in a file, as `read?` gives its contents.
mirrors config/config:172-181 -/
def load (read? : String → Option Bytes) (path : String) : Except Error Settings :=
  if maxPathBytes < path.utf8ByteSize then .error .longPath
  else if hasLongComponent path.toList then .error .longPathComponent
  else
    match read? path with
    | none => .error .unreadable
    | some bytes =>
      if maxFileBytes < bytes.length then .error .largeFile
      else
        match Text.ofBytes? bytes with
        | none => .error .notUtf8
        | some document => ofDocument document

theorem ofDocument_eq_ok {document : String} {s : Settings} (h : ofDocument document = .ok s) :
    s.fault? = none := by
  unfold ofDocument at h
  split at h
  · simp at h
  · rename_i t _
    cases ht : t.check with
    | error f =>
      rw [ht] at h
      cases h
    | ok u =>
      obtain ⟨rfl, hf⟩ := check_eq_ok_iff.1 ht
      rw [ht] at h
      cases h
      exact hf

end McpCatalog.Settings
