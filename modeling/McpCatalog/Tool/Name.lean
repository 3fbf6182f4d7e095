import McpCatalog.Digest.Hash
/-!
# Tool names

A tool is named after its method: the last two components of the full name, joined
by an underscore. A name over the length limit keeps its tail, behind the first
digits of its hash; lengths are counted in bytes of UTF-8.

Results:
* `shortened_of_le`: a name within the limit stays as it is.
-/
namespace McpCatalog.ToolName

/-- The limit on the length of a name where none is given. -/
def defaultLimit : Nat := 64

/-- How many digits of the hash stand in front of a shortened name. -/
def hashDigits : Nat := 6

/-- The last two components of a dotted name joined by an underscore; a name of one
component as it is.
mirrors core/naming:34-40 (`flattened_method_name`) -/
def flattened (fullName : String) : String :=
  match (fullName.toList.splitOn '.').reverse with
  | method :: service :: _ => String.ofList (service ++ '_' :: method)
  | _ => fullName

/-- The part of the hash that stands in front of a name shortened to the limit.
mirrors core/naming:59-61 -/
def hashPart (name : String) (limit : Nat) : List Char :=
  (Hash.sha1Base36 name).take (min hashDigits limit)

/-- The name in at most `limit` bytes. Where the limit leaves no room for a tail behind
the hash and an underscore, the hash stands alone.
mirrors core/naming:54-73 (`mangle`) -/
def shortened (name : String) (limit : Nat) : String :=
  if name.utf8ByteSize ≤ limit then name
  else
    let hash := hashPart name limit
    let room := limit - (hash.length + 1)
    if room = 0 then String.ofList hash
    else String.ofList (hash ++ '_' :: Text.dropBytes (name.utf8ByteSize - room) name.toList)

theorem shortened_of_le {name : String} {limit : Nat} (h : name.utf8ByteSize ≤ limit) :
    shortened name limit = name := by
  simp [shortened, h]

end McpCatalog.ToolName
