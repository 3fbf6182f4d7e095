import McpCatalog.Numeral
/-!
# Quoted strings of JSON

A string between double quotes. Quotes, backslashes and the characters below U+0020
are escaped, by a letter where JSON has one and by four hexadecimal digits otherwise;
all other characters stand as they are.
-/
namespace McpCatalog.Json

/-- The letter that escapes a control character. -/
def controlLetter? (c : Char) : Option Char :=
  match c with
  | '\x08' => some 'b'
  | '\x0c' => some 'f'
  | '\n' => some 'n'
  | '\r' => some 'r'
  | '\t' => some 't'
  | _ => none

/-- How a character is written inside quotes. -/
def escapeChar (c : Char) : List Char :=
  if c = '"' ∨ c = '\\' then ['\\', c]
  else if c.toNat < 0x20 then
    match controlLetter? c with
    | some l => ['\\', l]
    | none => ['\\', 'u', '0', '0', Numeral.digit (c.toNat / 16), Numeral.digit (c.toNat % 16)]
  else [c]

def escape (cs : List Char) : List Char :=
  cs.flatMap escapeChar

/-- The string as JSON writes it. -/
def quoted (s : String) : String :=
  String.ofList ('"' :: (escape s.toList ++ ['"']))

end McpCatalog.Json
