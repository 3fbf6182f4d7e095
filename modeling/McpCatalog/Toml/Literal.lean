import McpCatalog.Text.Blank
import McpCatalog.Numeral
/-!
# Literals of TOML documents

Readers for strings and whole numbers. Each takes the characters of a document from
where the literal starts and gives what the literal stands for and the characters
behind it. A document holds a carriage return only in front of a line feed, so in
strings of several lines it needs no rule of its own.

Results:
* `readBasic_plain`: a character that is not special stands for itself.
-/
namespace McpCatalog.Toml

/-! ## Characters -/

/-- A character that may stand in a comment or a string of one line as it is. -/
def isText (c : Char) : Bool :=
  c == '\t' || (decide (0x20 ≤ c.toNat) && c.toNat != 0x7F)

def isSpace (c : Char) : Bool :=
  c == ' ' || c == '\t'

def isNewline (c : Char) : Bool :=
  c == '\n' || c == '\r'

/-- The value of a digit, for bases up to 16. -/
def digitValue? (base : Nat) (c : Char) : Option Nat :=
  let v :=
    if c.isDigit then c.toNat - '0'.toNat
    else if 'a' ≤ c ∧ c ≤ 'f' then c.toNat - 'a'.toNat + 10
    else if 'A' ≤ c ∧ c ≤ 'F' then c.toNat - 'A'.toNat + 10
    else base
  if v < base then some v else none

/-- The character with a code point, unless that is none or a surrogate. -/
def char? (n : Nat) : Option Char :=
  if h : n.isValidChar then some (Char.ofNatAux n h) else none

/-! ## Strings -/

/-- What an escape sequence starts. -/
inductive Escape where
  | char (c : Char)
  /-- A code point in a number of hexadecimal digits. -/
  | code (digits : Nat)

/-- The escape with the given letter. -/
def escape? (c : Char) : Option Escape :=
  match c with
  | 'b' => some (.char '\x08')
  | 't' => some (.char '\t')
  | 'n' => some (.char '\n')
  | 'f' => some (.char '\x0c')
  | 'r' => some (.char '\r')
  | 'e' => some (.char '\x1b')
  | '"' => some (.char '"')
  | '\\' => some (.char '\\')
  | 'x' => some (.code 2)
  | 'u' => some (.code 4)
  | 'U' => some (.code 8)
  | _ => none

/-- Where a reader of a quoted string is. -/
inductive Place where
  | plain
  /-- Behind a backslash. -/
  | escape
  /-- In a code point, with the digits that are missing and the value of those read. -/
  | code (missing value : Nat)
  /-- Behind a backslash and blanks, before the line ends. -/
  | lineEnd
  /-- Behind a backslash and the end of a line, before the next text. -/
  | nextLine

/-- Goes on behind a digit of a code point; `back` are the characters read, latest first. -/
def afterDigit (missing value : Nat) (back : List Char) : Option (Place × List Char) :=
  if missing = 0 then (char? value).map fun c => (.plain, c :: back)
  else some (.code missing value, back)

/-- Goes on behind the letter of an escape. -/
def afterEscape (c : Char) (back : List Char) : Option (Place × List Char) :=
  match escape? c with
  | some (.char d) => some (.plain, d :: back)
  | some (.code digits) => some (.code digits 0, back)
  | none => none

/-- Goes on behind a digit, which there must be. -/
def inCode (missing value : Nat) (c : Char) (back : List Char) : Option (Place × List Char) :=
  match digitValue? 16 c with
  | some v => afterDigit (missing - 1) (16 * value + v) back
  | none => none

/-- A string of one line between double quotes, from behind the opening quote. -/
def readBasic (place : Place) (back : List Char) : List Char → Option (List Char × List Char)
  | [] => none
  | c :: rest =>
    match place with
    | .plain =>
      if c = '"' then some (back.reverse, rest)
      else if c = '\\' then readBasic .escape back rest
      else if isText c then readBasic .plain (c :: back) rest
      else none
    | .escape =>
      match afterEscape c back with
      | some (place, back) => readBasic place back rest
      | none => none
    | .code missing value =>
      match inCode missing value c back with
      | some (place, back) => readBasic place back rest
      | none => none
    | .lineEnd | .nextLine => none

/-- A string of one line between single quotes, from behind the opening quote. -/
def readRaw (back : List Char) : List Char → Option (List Char × List Char)
  | [] => none
  | c :: rest =>
    if c = '\'' then some (back.reverse, rest)
    else if isText c then readRaw (c :: back) rest
    else none

/-- The string that ends with a run of quotes: three of them close it, up to two more
belong to it. -/
def closed (quote : Char) (run : Nat) (back : List Char) : List Char :=
  (List.replicate (run - 3) quote ++ back).reverse

/-- A string of several lines between single quotes, from behind the opening quotes. -/
def readRawLines (quotes : Nat) (back : List Char) : List Char → Option (List Char × List Char)
  | [] => if 3 ≤ quotes then some (closed '\'' quotes back, []) else none
  | c :: rest =>
    if c = '\'' ∧ quotes < 5 then readRawLines (quotes + 1) back rest
    else if 3 ≤ quotes then some (closed '\'' quotes back, c :: rest)
    else if isText c || isNewline c then
      readRawLines 0 (c :: (List.replicate quotes '\'' ++ back)) rest
    else none

/-- A string of several lines between double quotes, from behind the opening quotes. -/
def readBasicLines (place : Place) (quotes : Nat) (back : List Char) :
    List Char → Option (List Char × List Char)
  | [] => if 3 ≤ quotes then some (closed '"' quotes back, []) else none
  | c :: rest =>
    match place with
    | .plain | .nextLine =>
      if c = '"' ∧ quotes < 5 then readBasicLines .plain (quotes + 1) back rest
      else if 3 ≤ quotes then some (closed '"' quotes back, c :: rest)
      else
        let back := List.replicate quotes '"' ++ back
        if c = '\\' then readBasicLines .escape 0 back rest
        else if (place matches .nextLine) && (isSpace c || isNewline c) then
          readBasicLines .nextLine 0 back rest
        else if isText c || isNewline c then readBasicLines .plain 0 (c :: back) rest
        else none
    | .escape =>
      if isSpace c then readBasicLines .lineEnd 0 back rest
      else if isNewline c then readBasicLines .nextLine 0 back rest
      else
        match afterEscape c back with
        | some (place, back) => readBasicLines place 0 back rest
        | none => none
    | .lineEnd =>
      if isSpace c then readBasicLines .lineEnd 0 back rest
      else if isNewline c then readBasicLines .nextLine 0 back rest
      else none
    | .code missing value =>
      match inCode missing value c back with
      | some (place, back) => readBasicLines place 0 back rest
      | none => none

/-- The characters behind a line that ends at once. -/
def dropNewline : List Char → List Char
  | '\n' :: rest => rest
  | '\r' :: '\n' :: rest => rest
  | cs => cs

/-- The string in front of the characters, which start with a quote, and what follows. -/
def readString? (cs : List Char) : Option (List Char × List Char) :=
  match cs with
  | '"' :: '"' :: '"' :: rest => readBasicLines .plain 0 [] (dropNewline rest)
  | '"' :: rest => readBasic .plain [] rest
  | '\'' :: '\'' :: '\'' :: rest => readRawLines 0 [] (dropNewline rest)
  | '\'' :: rest => readRaw [] rest
  | _ => none

/-! ## Whole numbers -/

/-- The number of some digits in which an underscore can stand between two digits. -/
def digits? (base : Nat) (cs : List Char) : Option Nat :=
  if (cs.splitOn '_').any (·.isEmpty) then none
  else (cs.filter (· != '_')).foldlM (fun n c => (digitValue? base c).map (base * n + ·)) 0

/-- A number in base 10 has no zero in front. -/
def decimal? (cs : List Char) : Option Nat :=
  match cs with
  | '0' :: _ :: _ => none
  | _ => digits? 10 cs

/-- The whole number that the characters stand for. -/
def integer? (cs : List Char) : Option Int :=
  match cs with
  | '0' :: 'x' :: digits => (digits? 16 digits).map Int.ofNat
  | '0' :: 'o' :: digits => (digits? 8 digits).map Int.ofNat
  | '0' :: 'b' :: digits => (digits? 2 digits).map Int.ofNat
  | '-' :: digits => (decimal? digits).map fun n => -Int.ofNat n
  | '+' :: digits => (decimal? digits).map Int.ofNat
  | digits => (decimal? digits).map Int.ofNat

theorem readBasic_plain {c : Char} {back rest : List Char} (ht : isText c = true) (hq : c ≠ '"')
    (hb : c ≠ '\\') : readBasic .plain back (c :: rest) = readBasic .plain (c :: back) rest := by
  simp [readBasic, ht, hq, hb]

end McpCatalog.Toml
