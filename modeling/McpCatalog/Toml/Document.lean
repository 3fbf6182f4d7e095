import McpCatalog.Toml.Literal
import McpCatalog.Toml.Table
/-!
# TOML documents

Documents of strings, whole numbers and tables. Truth values, dates, numbers with a
fraction and lists with items are refused like anything malformed: whoever reads a
document here has no use for them.

Results:
* `skipTrivia_newline`: ends of lines between statements count for nothing.
-/
namespace McpCatalog.Toml

/-- How deep values can be nested, and how many parts a key can have. -/
def maxDepth : Nat := 80

/-! ## Between statements -/

/-- What follows after blanks, ends of lines and comments. -/
def skipTrivia (inComment : Bool) : List Char → Option (List Char)
  | [] => some []
  | c :: rest =>
    if isNewline c then skipTrivia false rest
    else if inComment then if isText c then skipTrivia true rest else none
    else if c = '#' then skipTrivia true rest
    else if isSpace c then skipTrivia false rest
    else some (c :: rest)

/-- Nothing but a comment follows on the line. -/
def lineEnds (cs : List Char) : Bool :=
  match cs.dropWhile isSpace with
  | [] => true
  | c :: _ => isNewline c || c == '#'

/-- A carriage return stands somewhere else than in front of a line feed. -/
def hasLoneReturn : List Char → Bool
  | [] => false
  | '\r' :: '\n' :: rest => hasLoneReturn rest
  | c :: rest => c == '\r' || hasLoneReturn rest

/-! ## Keys -/

/-- A character of a key without quotes. -/
def isBare (c : Char) : Bool :=
  c.isAlphanum || c == '_' || c == '-'

def readKeyPart? (cs : List Char) : Option (String × List Char) :=
  match cs with
  | '"' :: rest => (readBasic .plain [] rest).map fun r => (String.ofList r.1, r.2)
  | '\'' :: rest => (readRaw [] rest).map fun r => (String.ofList r.1, r.2)
  | _ =>
    let name := cs.takeWhile isBare
    if name.isEmpty then none else some (String.ofList name, cs.dropWhile isBare)

/-- A key of at most `parts` parts with dots between them, and what follows it and the
blanks behind it. -/
def readKey? : (parts : Nat) → List Char → Option (List String × List Char)
  | 0, _ => none
  | parts + 1, cs => do
    let (part, rest) ← readKeyPart? cs
    match rest.dropWhile isSpace with
    | '.' :: rest =>
      let (path, rest) ← readKey? parts (rest.dropWhile isSpace)
      return (part :: path, rest)
    | rest => return ([part], rest)

/-! ## Values -/

/-- What reads a value in front of some characters and gives what follows. -/
abbrev ValueReader := List Char → Option (Value × List Char)

/-- What skips the characters that may stand around the sign between a key and its value. -/
abbrev Gap := List Char → Option (List Char)

/-- Outside of inline tables a key and its value stand on one line. -/
def blanks : Gap := fun cs => some (cs.dropWhile isSpace)

/-- A key with a value, which is put into the table. -/
def readEntry? (gap : Gap) (value : ValueReader) (assign : List String → Value → Option Table)
    (cs : List Char) : Option (Table × List Char) := do
  let (path, rest) ← readKey? maxDepth cs
  match ← gap rest with
  | '=' :: rest =>
    let (v, rest) ← value (← gap rest)
    return (← assign path v, rest)
  | _ => none

/-- The entries of an inline table, at most `limit`, up to the closing brace. Lines can end
between any two of its parts, but not inside a key. -/
def readInline? (value : ValueReader) : (limit : Nat) → Table → List Char →
    Option (Table × List Char)
  | _, t, '\x7d' :: rest => some (t, rest)
  | 0, _, _ => none
  | limit + 1, t, cs => do
    let (t, rest) ← readEntry? (skipTrivia false) value (fun path v => t.assign path v) cs
    match ← skipTrivia false rest with
    | ',' :: rest => readInline? value limit t (← skipTrivia false rest)
    | '\x7d' :: rest => return (t, rest)
    | _ => none

def isWord (c : Char) : Bool :=
  c.isAlphanum || c == '_' || c == '+' || c == '-'

/-- A value that is nested no deeper than `depth`. -/
def readValue? : (depth : Nat) → ValueReader
  | 0, _ => none
  | depth + 1, cs =>
    match cs with
    | '"' :: _ | '\'' :: _ => (readString? cs).map fun r => (.text (String.ofList r.1), r.2)
    | '[' :: rest =>
      match skipTrivia false rest with
      | some (']' :: rest) => some (.emptyList, rest)
      | _ => none
    | '\x7b' :: rest => do
      let rest ← skipTrivia false rest
      let (t, rest) ← readInline? (readValue? depth) rest.length [] rest
      return (.table .inline t, rest)
    | _ => do return (.number (← integer? (cs.takeWhile isWord)), cs.dropWhile isWord)

/-! ## Statements -/

/-- The path of a header, from behind the opening bracket. -/
def readHeader? (cs : List Char) : Option (List String × List Char) := do
  let (path, rest) ← readKey? maxDepth (cs.dropWhile isSpace)
  match rest with
  | ']' :: rest => return (path, rest)
  | _ => none

/-- A header or an entry under the current header. -/
def readStatement? (header : List String) (t : Table) (cs : List Char) :
    Option ((List String × Table) × List Char) :=
  match cs with
  | '[' :: rest => do
    let (path, rest) ← readHeader? rest
    return ((path, ← t.openHeader path), rest)
  | _ => do
    let (t, rest) ← readEntry? blanks (readValue? maxDepth)
      (fun path v => t.within (Table.assign path v) header) cs
    return ((header, t), rest)

/-- At most `limit` statements, each on a line of its own. -/
def readStatements? : (limit : Nat) → (header : List String) → Table → List Char → Option Table
  | 0, _, _, _ => none
  | limit + 1, header, t, cs =>
    match skipTrivia false cs with
    | none => none
    | some [] => some t
    | some cs =>
      match readStatement? header t cs with
      | none => none
      | some ((header, t), rest) =>
        if lineEnds rest then readStatements? limit header t rest else none

/-- The characters without a byte order mark in front. -/
def dropMark : List Char → List Char
  | '\ufeff' :: rest => rest
  | cs => cs

/-- The table that a document describes. -/
def parse? (document : String) : Option Table :=
  let cs := dropMark document.toList
  if hasLoneReturn cs then none else readStatements? (cs.length + 1) [] [] cs

theorem skipTrivia_newline {c : Char} {rest : List Char} {b : Bool} (h : isNewline c = true) :
    skipTrivia b (c :: rest) = skipTrivia false rest := by
  simp [skipTrivia, h]

end McpCatalog.Toml
