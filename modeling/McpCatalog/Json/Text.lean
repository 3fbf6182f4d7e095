import McpCatalog.Json.Value
import McpCatalog.Json.Quoted
/-!
# JSON texts

Three ways to write a value: compact, without any space; pretty, one item or member
to a line and two spaces for each level; and canonical, compact with the members of
every object ordered by their names as written, quotes and escapes included.
-/
namespace McpCatalog.Json

/-! ## Compact and pretty -/

mutual

/-- The value without any space, members in the order in which they are held. -/
def compact : Json → String
  | .null => "null"
  | .bool b => if b then "true" else "false"
  | .int n => Numeral.decimal n
  | .str s => quoted s
  | .arr items => "[" ++ ",".intercalate (compactItems items) ++ "]"
  | .obj ms => "\x7b" ++ ",".intercalate (compactMembers ms) ++ "\x7d"

def compactItems : List Json → List String
  | [] => []
  | v :: rest => v.compact :: compactItems rest

def compactMembers : List (String × Json) → List String
  | [] => []
  | (k, v) :: rest => (quoted k ++ ":" ++ v.compact) :: compactMembers rest

end

/-- A new line that is indented to a level. -/
def newline (level : Nat) : String :=
  String.ofList ('\n' :: List.replicate (2 * level) ' ')

/-- Lines between an opening and a closing mark; nothing between them if there are none. -/
def block (opening closing : String) (level : Nat) (lines : List String) : String :=
  if lines.isEmpty then opening ++ closing
  else opening ++ newline (level + 1) ++ ("," ++ newline (level + 1)).intercalate lines
    ++ newline level ++ closing

mutual

/-- The value over several lines, as it stands at a level of indentation. -/
def prettyAt (level : Nat) : Json → String
  | .null => "null"
  | .bool b => if b then "true" else "false"
  | .int n => Numeral.decimal n
  | .str s => quoted s
  | .arr items => block "[" "]" level (prettyItems (level + 1) items)
  | .obj ms => block "\x7b" "\x7d" level (prettyMembers (level + 1) ms)

def prettyItems (level : Nat) : List Json → List String
  | [] => []
  | v :: rest => v.prettyAt level :: prettyItems level rest

def prettyMembers (level : Nat) : List (String × Json) → List String
  | [] => []
  | (k, v) :: rest => (quoted k ++ ": " ++ v.prettyAt level) :: prettyMembers level rest

end

/-- The value over several lines. -/
def pretty (v : Json) : String :=
  v.prettyAt 0

/-! ## Canonical -/

/-- Texts in the order of the names they belong to, as `name:text`. -/
def canonicalMembers (ms : List (String × String)) : List String :=
  (Dict.ofList ms).entries.map fun m => m.1 ++ ":" ++ m.2

mutual

/-- The canonical text of the value.
mirrors core/hashing:66-68 (`canonical_json_string`) -/
def canonical : Json → String
  | .null => "null"
  | .bool b => if b then "true" else "false"
  | .int n => Numeral.decimal n
  | .str s => quoted s
  | .arr items => "[" ++ ",".intercalate (canonicalItems items) ++ "]"
  | .obj ms => "\x7b" ++ ",".intercalate (canonicalMembers (quotedMembers ms)) ++ "\x7d"

def canonicalItems : List Json → List String
  | [] => []
  | v :: rest => v.canonical :: canonicalItems rest

/-- The members with their names quoted and their values written canonically. -/
def quotedMembers : List (String × Json) → List (String × String)
  | [] => []
  | (k, v) :: rest => (quoted k, v.canonical) :: quotedMembers rest

end

end McpCatalog.Json
