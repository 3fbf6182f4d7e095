import McpCatalog.Schema.Lowering
/-!
# Schema builders

A builder makes schemas over one pool and remembers the names at which it had to cut
a circle of references.

Results:
* `messageSchema_fst`, `fieldSchema_fst`: a schema does not depend on what the builder
  was used for before.
-/
namespace McpCatalog

/-- The pool, the fields that must be present, and the names met so far at which a
schema was cut.
mirrors core/schema:57-66 -/
structure Builder where
  pool : Pool
  required : Requirement
  recursive : NameSet

namespace Builder

/-- mirrors core/schema:71-78 -/
def new (pool : Pool) (required : Requirement) : Builder :=
  ⟨pool, required, .empty⟩

/-- Remembers where a shape was cut. -/
def note (b : Builder) (s : Shape) : Builder :=
  { b with recursive := s.cuts.foldl (fun names t => names.insert t ()) b.recursive }

/-- The schema of a message.
mirrors core/schema:87-129 -/
def messageSchema (b : Builder) (m : Message) : Json × Builder :=
  let shape := b.pool.messageShape b.required [] m
  (shape.schema, b.note shape)

/-- The schema of a field.
mirrors core/schema:132-147 -/
def fieldSchema (b : Builder) (f : Field) : Json × Builder :=
  let shape := f.shape b.pool (b.pool.reference b.required [])
  (shape.schema, b.note shape)

/-- The names at which a schema was cut, in order.
mirrors core/schema:82-84 -/
def recursiveReferences (b : Builder) : List String :=
  b.recursive.keys

theorem messageSchema_fst (b : Builder) (m : Message) :
    (b.messageSchema m).1 = ((new b.pool b.required).messageSchema m).1 := rfl

theorem fieldSchema_fst (b : Builder) (f : Field) :
    (b.fieldSchema f).1 = ((new b.pool b.required).fieldSchema f).1 := rfl

end Builder
end McpCatalog
