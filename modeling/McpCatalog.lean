import McpCatalog.FileTree
import McpCatalog.Main
import McpCatalog.Request.Encoding
import McpCatalog.Proofs.Numeral
import McpCatalog.Proofs.Schema.Pattern
import McpCatalog.Proofs.Dict
import McpCatalog.Proofs.Schema.Validation
import McpCatalog.Proofs.Schema.Typing
import McpCatalog.Proofs.Schema.Exclusion
import McpCatalog.Proofs.Schema.Descent
import McpCatalog.Proofs.Generation.Events
import McpCatalog.Proofs.Catalog
import McpCatalog.Proofs.Generation.Filling
import McpCatalog.Proofs.Corpus.Lookup
import McpCatalog.Proofs.Schema.Parts
import McpCatalog.Proofs.Corpus.Marking
import McpCatalog.Proofs.Corpus.Content
import McpCatalog.Proofs.Generation.Isolation
import McpCatalog.Proofs.Wire.Varint
import McpCatalog.Proofs.Wire.Record
import McpCatalog.Proofs.Wire.Field
import McpCatalog.Proofs.Request.Decoding
import McpCatalog.Proofs.Wire.Written
import McpCatalog.Proofs.Request.Encoding
import McpCatalog.Proofs.Request.Reading
import McpCatalog.Proofs.Catalog.Calls
import McpCatalog.Proofs.Generation.Order
import McpCatalog.Proofs.Render.Declaration
import McpCatalog.Proofs.Render.Item
import McpCatalog.Proofs.Render.Module
import McpCatalog.Proofs.Render.Namespace
import McpCatalog.Proofs.Render.Text
import McpCatalog.Proofs.Render.Legality
import McpCatalog.Proofs.Generation.Outcome
import McpCatalog.Proofs.Generation.Identity
import McpCatalog.Proofs.Json.Token
import McpCatalog.Proofs.Json.Reading
import McpCatalog.Proofs.Render.Document
import McpCatalog.Proofs.Schema.Naming
import McpCatalog.Proofs.Corpus.Place
import McpCatalog.Proofs.Json.Inside
import McpCatalog.Proofs.Json.Normal
import McpCatalog.Proofs.Json.Canonical
import McpCatalog.Proofs.Schema.Content
import McpCatalog.Proofs.Generation.Canonical
import McpCatalog.Proofs.Schema.Ungrouped
import McpCatalog.Proofs.Corpus.Optional
import McpCatalog.Proofs.Generation.Transparency
import McpCatalog.Proofs.Schema.Acyclic
import McpCatalog.Proofs.Schema.Locality
import McpCatalog.Proofs.Schema.Partition
import McpCatalog.Proofs.Schema.Reuse
import McpCatalog.Proofs.Corpus.Folding
import McpCatalog.Proofs.Text.Offset
import McpCatalog.Proofs.Tool.Shortening
import McpCatalog.Proofs.Digest.Base36
import McpCatalog.Proofs.Generation.Keys
import McpCatalog.Proofs.Json.Equality
import McpCatalog.Proofs.Generation.SchemaText
import McpCatalog.Proofs.Render.Literal
import McpCatalog.Proofs.Render.Meaning
import McpCatalog.Proofs.Event.Sink
import McpCatalog.Proofs.Event.Log
import McpCatalog.Proofs.Generation.Delivery
import McpCatalog.Proofs.Text.Blank
import McpCatalog.Proofs.Settings.Change
import McpCatalog.Proofs.Settings.Parameter
import McpCatalog.Proofs.Toml.Entry
import McpCatalog.Proofs.Settings.Agreement
import McpCatalog.Proofs.Settings.Bounds
import McpCatalog.Proofs.Tool.Description
import McpCatalog.Proofs.Render.Words
import McpCatalog.Proofs.Generation.Comments
