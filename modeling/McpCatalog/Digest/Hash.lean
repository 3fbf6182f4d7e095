import McpCatalog.Digest.Sha1
import McpCatalog.Digest.Sha256
import McpCatalog.Numeral
import McpCatalog.Text.Bytes
/-!
# Hashes of texts

A hash names the algorithm beside the hexadecimal digest of the UTF-8 bytes of a
text. Short hashes for names are the SHA-1 digest as one number in base 36.
-/
namespace McpCatalog

/-- A digest that says how it was computed. -/
structure Hash where
  algorithm : String
  value : String
  deriving DecidableEq

namespace Hash

/-- mirrors core/hashing:72-79 (`sha256_digest`) -/
def sha256 (text : String) : Hash :=
  ⟨"sha256", String.ofList (Numeral.hex (Digest.sha256 (Text.toBytes text)))⟩

/-- The SHA-1 digest as a number in base 36.
mirrors core/naming:44-47 (`sha1_base36`) -/
def sha1Base36 (text : String) : List Char :=
  Numeral.numeral 36 (Numeral.ofBytes (Digest.sha1 (Text.toBytes text)))

end Hash
end McpCatalog
