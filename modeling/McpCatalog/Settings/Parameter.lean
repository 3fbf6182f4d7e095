import McpCatalog.Settings.Document
/-!
# Settings from parameters

A parameter is a list of segments `key=value` with commas between them. Blanks around
a segment, a key or a value count for nothing, and neither do blank segments. The key
`config` names a file with settings to start from, wherever it stands.

Results:
* `ofParameter_empty`: the empty parameter stands for the default settings.
-/
namespace McpCatalog.Settings

/-! ## Segments -/

def trimmed (cs : List Char) : String :=
  String.ofList (Text.trim cs)

/-- The segments of a parameter, trimmed, without the blank ones. -/
def segments (parameter : String) : List (List Char) :=
  ((parameter.toList.splitOn ',').map Text.trim).filter fun s => !s.isEmpty

/-- The key and the value of a segment. -/
def pair (segment : List Char) : Except Error (String × String) :=
  match segment.dropWhile (· != '=') with
  | [] => .error (.malformed (String.ofList segment))
  | _ :: value =>
    let key := trimmed (segment.takeWhile (· != '='))
    if key.isEmpty then .error (.emptyKey (String.ofList segment)) else .ok (key, trimmed value)

/-- Adds the pair of a segment to those before it, which must not have its key. -/
def addPair (pairs : List (String × String)) (segment : List Char) :
    Except Error (List (String × String)) := do
  let (key, value) ← pair segment
  if (pairs.lookup key).isSome then throw (.duplicateKey key)
  return pairs ++ [(key, value)]

/-- The pairs of a parameter in order.
mirrors config/config:304-324 (`parse_pairs`) -/
def pairs (parameter : String) : Except Error (List (String × String)) :=
  (segments parameter).foldlM addPair []

/-! ## Values -/

/-- The number that a text stands for: digits behind an optional plus sign, and less than
`2 ^ 64`. -/
def natural (text : String) : Option Nat :=
  let digits := match text.toList with
    | '+' :: digits => digits
    | digits => digits
  if digits.isEmpty ∨ !digits.all Char.isDigit then none
  else
    let n := digits.foldl (fun n c => 10 * n + (c.toNat - '0'.toNat)) 0
    if n < UInt64.size then some n else none

def orError {α : Type} (error : Error) : Option α → Except Error α
  | some a => .ok a
  | none => .error error

/-- The key of the file with settings to start from. -/
def baseKey : String := "config"

/-- The settings with the value of a key.
mirrors config/config:254-273 (`apply`) -/
def withPair (s : Settings) (pair : String × String) : Except Error Settings :=
  match pair with
  | ("config", _) => .ok s
  | ("suffix", v) => .ok { s with suffix := some v }
  | ("max_tool_name_len", v) =>
    (orError (.notANumber v) (natural v)).map fun n => { s with nameLimit := n }
  | ("format", v) =>
    (orError (.unknownFormat v) (Format.ofName? v)).map fun format => { s with format }
  | ("diagnostics", v) =>
    (orError (.unknownDiagnostics v) (Diagnostics.ofName? v)).map fun diagnostics =>
      { s with diagnostics }
  | ("diagnostics_file", v) => .ok { s with diagnosticsFile := some v }
  | (key, _) => .error (.unknownKey key)

/-! ## Parameters -/

/-- The file that a parameter starts from, if it is well formed and names one. -/
def baseFile? (parameter : String) : Option String :=
  match pairs parameter with
  | .ok ps => ps.lookup baseKey
  | .error _ => none

/-- The settings to start from. -/
def base (read? : String → Option Bytes) (ps : List (String × String)) : Except Error Settings :=
  match ps.lookup baseKey with
  | some path => load read? path
  | none => .ok default

/-- The settings that a parameter describes, where `read?` gives the contents of files.
mirrors config/config:203-214 (`from_parameter`) -/
def ofParameter (read? : String → Option Bytes) (parameter : String) : Except Error Settings := do
  let ps ← pairs parameter
  let s ← ps.foldlM withPair (← base read? ps)
  s.check.mapError .fault

theorem ofParameter_empty (read? : String → Option Bytes) :
    ofParameter read? "" = .ok default := by
  rfl

end McpCatalog.Settings
