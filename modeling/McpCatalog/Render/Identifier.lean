import McpCatalog.Dict
/-!
# Identifiers from names

Names of tools and services are turned into identifiers of a Rust module: a name is
split into words at changes of case and at everything that is no ASCII letter or
digit, and the words are joined by underscores.

Results:
* `startsWord_upper`: only an upper-case letter can start a word inside a run.
-/
namespace McpCatalog.Identifier

/-! ## Words -/

/-- The letter `c` starts a word after `before`: it ends a lower-case word or a number,
or it is the last of some upper-case letters and a lower-case word follows.
mirrors render/rust:197-203 -/
def startsWord (before c : Char) (after : Option Char) : Bool :=
  c.isUpper && (before.isLower || before.isDigit || (before.isUpper && after.any Char.isLower))

/-- The words of a run of letters and digits. -/
def splitRun : List Char → List (List Char)
  | [] => []
  | [c] => [[c]]
  | c :: d :: rest =>
    if startsWord c d rest.head? then [c] :: splitRun (d :: rest)
    else
      match splitRun (d :: rest) with
      | word :: more => (c :: word) :: more
      | [] => [[c]]

/-- The maximal runs of ASCII letters and digits. -/
def runs (name : List Char) : List (List Char) :=
  (name.splitOnP fun c => !c.isAlphanum).filter fun run => !run.isEmpty

/-- The words of a name in lower case.
mirrors render/rust:186-213 -/
def words (name : List Char) : List (List Char) :=
  ((runs name).flatMap splitRun).map fun word => word.map Char.toLower

/-! ## Identifiers -/

/-- The words that a Rust module cannot be named by.
mirrors render/rust:33-38 -/
def keywords : List String :=
  ["as", "async", "await", "box", "break", "const", "continue", "crate", "dyn", "else", "enum",
   "extern", "false", "fn", "for", "gen", "if", "impl", "in", "let", "loop", "match", "mod",
   "move", "mut", "pub", "ref", "return", "self", "static", "struct", "super", "trait", "true",
   "try", "type", "unsafe", "use", "where", "while", "yield"]

/-- An underscore in front of a digit; a name of its own where nothing is left.
mirrors render/rust:233-239 (`leading_digit_guard`) -/
def guarded (identifier : List Char) : List Char :=
  match identifier with
  | [] => "_unnamed".toList
  | c :: _ => if c.isDigit then '_' :: identifier else identifier

/-- The identifier of the constant of a tool: the words of its key in upper case.
mirrors render/rust:216-219 (`screaming_snake_case`) -/
def constant (key : String) : String :=
  String.ofList (guarded ((['_'].intercalate (words key.toList)).map Char.toUpper))

/-- The identifier of the module of a service: the words of its name, with an
underscore behind if they are a keyword.
mirrors render/rust:222-229 (`module_identifier`) -/
def moduleName (service : String) : String :=
  let identifier := String.ofList (guarded (['_'].intercalate (words service.toList)))
  if keywords.contains identifier then identifier ++ "_" else identifier

/-! ## Collisions -/

/-- Two names with the same identifier. -/
structure Collision where
  first : String
  second : String
  identifier : String
  deriving DecidableEq

/-- mirrors render/rust:175-179 -/
def Collision.message (c : Collision) : String :=
  "identifier collision: " ++ c.first ++ " and " ++ c.second ++ " both render as " ++ c.identifier

/-- The first name whose identifier belongs to one of the names before it; `owners` holds
the names before it under their identifiers. -/
def collisionFrom (identifier : String → String) (owners : Dict String) :
    List String → Option Collision
  | [] => none
  | name :: rest =>
    match owners.get? (identifier name) with
    | some earlier => some ⟨earlier, name, identifier name⟩
    | none => collisionFrom identifier (owners.insert (identifier name) name) rest

/-- The first collision among the names.
mirrors render/rust:167-183 (`assign_identifiers`) -/
def collision? (identifier : String → String) (names : List String) : Option Collision :=
  collisionFrom identifier .empty names

theorem startsWord_upper {before c : Char} {after : Option Char}
    (h : startsWord before c after = true) : c.isUpper = true := by
  simp only [startsWord, Bool.and_eq_true] at h
  exact h.1

end McpCatalog.Identifier
