import McpCatalog.Proofs.Generation.Canonical
import McpCatalog.Proofs.Json.Equality
/-!
# What the text of a schema tells

The text that comes with a tool stands for its input schema wherever the two are stored or compared.
It can do so since no two schemas have one text. Objects inside the schemas that are generated have
their members in order, so schemas that agree as maps are equal as they stand.

Results:
* `ordered_inputSchema`: the schemas of tools are in order.
* `canonical_identifies`: texts are equal if and only if the values are the same, and the texts of
  tools are equal if and only if their schemas are.
-/
namespace McpCatalog

theorem Schema.ordered_of_parts {N C : String → Prop} {v : Json} (h : Parts N C v) : v.Ordered :=
  Json.ordered_of_inside fun _ hms => (h _ hms).members.1

namespace Generator

theorem ordered_inputSchema (g : Generator) (m : Method) : (g.tool m).1.inputSchema.Ordered :=
  Schema.ordered_of_parts (Shape.parts_schema (g.pool.messageShape g.required [] (g.request m))
    (N := fun _ => True) (C := fun _ => True) (fun _ _ _ _ _ => trivial) fun _ _ => trivial)

/-- **Texts identify values.** Two values have the same canonical text if and only if they are the
same, where objects are maps; so a change of the order of members at any depth does not show. The
texts of two tools, of one file or of two, are equal if and only if their schemas are the same, and
the schemas are the same only if they are equal as they stand. -/
theorem canonical_identifies :
    (∀ v w : Json, v.canonical = w.canonical ↔ v.Same w) ∧
    (∀ v w : Json, Relation.ReflTransGen Json.Swapped v w → v.canonical = w.canonical) ∧
    ∀ (g g' : Generator) (f f' : SourceFile) (a a' : Artifact) (t t' : Tool),
      (g.generate f).result = .ok (some a) → a.catalog.Has t →
      (g'.generate f').result = .ok (some a') → a'.catalog.Has t' →
      (t.rawInputSchema = t'.rawInputSchema ↔ t.inputSchema.Same t'.inputSchema) ∧
      (t.inputSchema.Same t'.inputSchema ↔ t.inputSchema = t'.inputSchema) := by
  refine ⟨fun v w => Json.canonical_eq_iff, fun v w => Json.canonical_eq_of_swaps, ?_⟩
  intro g g' f f' a a' t t' ha ht ha' ht'
  obtain ⟨m, rfl⟩ := exists_method_of_has ha ht
  obtain ⟨m', rfl⟩ := exists_method_of_has ha' ht'
  refine ⟨Json.canonical_eq_iff, ?_, ?_⟩
  · exact (ordered_inputSchema g m).eq_of_same (ordered_inputSchema g' m')
  · intro heq
    rw [← Json.canonical_eq_iff, heq]

/-- Two messages with the same fields in a different order. -/
def pairGenerator : Generator :=
  ⟨Pool.ofTypes
    [⟨"demo.Left", [Field.ofKind "from" .string, Field.ofKind "to" .int64]⟩,
      ⟨"demo.Right", [Field.ofKind "to" .int64, Field.ofKind "from" .string]⟩] [],
    fun _ => false, 64⟩

def pairFile : SourceFile :=
  ⟨"demo.proto", "demo", "demo", true,
    [⟨"Ranges", "demo.Ranges",
      [⟨"Cut", "demo.Ranges.Cut", "demo.Left", "demo.Left", false, false, ""⟩,
        ⟨"Join", "demo.Ranges.Join", "demo.Right", "demo.Left", false, false, ""⟩]⟩]⟩

theorem canonical_identifies_pairFile :
    ∃ a t t', (pairGenerator.generate pairFile).result = .ok (some a) ∧
      a.catalog.Has t ∧ a.catalog.Has t' ∧ t.name ≠ t'.name ∧ t.inputSchema = t'.inputSchema := by
  have htexts : (pairGenerator.generate pairFile).artifact?.bind (fun a =>
      (a.catalog.tool? "Ranges_Cut").bind fun t => (a.catalog.tool? "Ranges_Join").map fun t' =>
        (t.name != t'.name, t.rawInputSchema == t'.rawInputSchema)) = some (true, true) := by
    decide +kernel
  obtain ⟨a, ha, htexts⟩ := Option.bind_eq_some_iff.1 htexts
  obtain ⟨t, ht, htexts⟩ := Option.bind_eq_some_iff.1 htexts
  obtain ⟨t', ht', htexts⟩ := Option.map_eq_some_iff.1 htexts
  obtain ⟨hname, htext⟩ := Prod.mk.inj htexts
  have hresult := Report.artifact?_eq_some_iff.1 ha
  have hhas : a.catalog.Has t := .inl ⟨"Ranges_Cut", ht⟩
  have hhas' : a.catalog.Has t' := .inl ⟨"Ranges_Join", ht'⟩
  obtain ⟨hsame, hequal⟩ := canonical_identifies.2.2 _ _ _ _ _ _ _ _ hresult hhas hresult hhas'
  exact ⟨a, t, t', hresult, hhas, hhas', bne_iff_ne.1 hname, hequal.1 (hsame.1 (eq_of_beq htext))⟩

end Generator
end McpCatalog
