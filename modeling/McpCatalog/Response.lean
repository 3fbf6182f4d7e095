import McpCatalog.Pass
import McpCatalog.Wire.Field
/-!
# Responses

What the compiler gets back: an error text if something failed, the features that are
supported, and the generated files.
-/
namespace McpCatalog

structure Response where
  error : Option String
  /-- The supported features as bits. -/
  features : Nat
  outputs : List Output
  deriving DecidableEq

namespace Response

/-- Optional fields of the third version of the language are supported.
mirrors bin/plugin:49 -/
def supportedFeatures : Nat := 1

/-- mirrors bin/plugin:187-192 -/
def ofPass (p : Pass) : Response :=
  ⟨p.error, supportedFeatures, p.outputs⟩

/-- The response when there is no pass.
mirrors bin/plugin:196-202 (`error_response`) -/
def ofError (message : String) : Response :=
  ⟨some message, supportedFeatures, []⟩

def encodeOutput (o : Output) : Bytes :=
  Wire.text 1 o.name ++ Wire.text 15 o.content

/-- The bytes of the response. -/
def encode (r : Response) : Bytes :=
  Wire.optional (Wire.text 1) r.error ++ Wire.varint 2 r.features
    ++ r.outputs.flatMap fun o => Wire.chunk 15 (encodeOutput o)

end Response
end McpCatalog
