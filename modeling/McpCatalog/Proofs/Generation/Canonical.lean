import McpCatalog.Proofs.Catalog.Calls
import McpCatalog.Proofs.Generation.Filling
import McpCatalog.Proofs.Json.Canonical
import McpCatalog.Proofs.Render.Module
import McpCatalog.Proofs.Schema.Content
/-!
# The text of an input schema

A tool comes with its input schema and with a text of that schema. The text orders the members of
an object by their names as they are written, the canonical form by the UTF-16 code units of the
names. Names of fields that are identifiers are in the same order both ways, with the names that
schemas bring along among them.

Results:
* `regular_schema`: the schema of a message, if the names of fields are identifiers.
* `canonicalText_of_generate`: the text that comes with a tool is the canonical form.
-/
namespace McpCatalog

/-! ## Names -/

/-- Fields are called by ASCII letters, digits and underscores. -/
def Message.NamesIdentifiers (m : Message) : Prop :=
  ∀ f ∈ m.fields, ∀ c ∈ f.name.toList, Identifier.isNameChar c = true

/-- So are the fields of all messages of a pool. -/
def Pool.NamesIdentifiers (pool : Pool) : Prop :=
  ∀ n m, pool.message? n = some m → m.NamesIdentifiers

namespace Json

theorem plainName_of_isNameChar {name : String}
    (h : ∀ c ∈ name.toList, Identifier.isNameChar c = true) : PlainName name := by
  intro c hc
  have hascii : c.toNat < 128 := by
    rcases Bool.or_eq_true_iff.1 (h c hc) with hword | hunderscore
    · exact Identifier.toNat_lt_of_isAlphanum hword
    · rw [eq_of_beq hunderscore]
      decide
  have hplain : '"' < c ∧ c ≠ '\\' :=
    Identifier.forall_ascii
      (P := fun c => Identifier.isNameChar c = true → '"' < c ∧ c ≠ '\\')
      (by decide +kernel) hascii (h c hc)
  exact ⟨hplain.1, hascii, hplain.2⟩

theorem plainName_of_mem {name : String} (h : name ∈ "$comment" :: Schema.fixedNames) :
    PlainName name := by
  have hall : ("$comment" :: Schema.fixedNames).all (fun name => name.toList.all fun c =>
      decide ('"' < c ∧ c.toNat < 0x80 ∧ c ≠ '\\')) = true := by decide +kernel
  intro c hc
  exact of_decide_eq_true (List.all_eq_true.1 (List.all_eq_true.1 hall name h) c hc)

end Json

/-! ## Schemas -/

/-- What stands inside a schema, if the fields in it have plain names. -/
theorem Schema.regular_of_parts {N C : String → Prop} (hN : ∀ name, N name → Json.PlainName name)
    {v : Json} (h : Parts N C v) : v.Regular where
  ordered := fun _ hms => (h _ hms).members.1
  plain := by
    intro ms hms m hm
    have hmember := (h _ hms).members.2 m hm
    generalize m.1 = name at hmember
    generalize m.2 = w at hmember
    cases hmember with
    | fixed hname => exact Json.plainName_of_mem (List.mem_cons_of_mem _ hname)
    | groupComment => exact Json.plainName_of_mem List.mem_cons_self
    | backComment => exact Json.plainName_of_mem List.mem_cons_self
    | property hname => exact hN name hname
  exact := fun n hn => nomatch h _ hn

/-- The schema of a message has plain names in order, if fields are called by identifiers. -/
theorem Pool.regular_schema {pool : Pool} (hpool : pool.NamesIdentifiers) {m : Message}
    (hm : m.NamesIdentifiers) (required : Requirement) :
    (pool.messageShape required [] m).schema.Regular := by
  have hnames : ∀ n ms, Shape.Within (.message n ms) (pool.messageShape required [] m) →
      ∀ x ∈ ms, Json.PlainName x.1.name := by
    intro n ms hwithin x hx
    obtain ⟨m', hm', f, hf, hname⟩ := name_of_within_messageShape hwithin hx
    rw [← hname]
    refine Json.plainName_of_isNameChar ?_
    rcases hm' with rfl | hm'
    · exact hm f hf
    · exact hpool n m' hm' f hf
  exact Schema.regular_of_parts (fun _ => id) (Shape.parts_schema _ hnames fun _ => id)

/-! ## Tools -/

/-- The tool stands in the catalog, under its key or with the methods of a service. -/
def Catalog.Has (c : Catalog) (t : Tool) : Prop :=
  (∃ k, c.tools.get? k = some t) ∨ ∃ s m, (c.methods s).get? m = some t

namespace Generator

variable {g : Generator} {f : SourceFile} {a : Artifact}

/-- The tools of a file are those of its unary methods. -/
theorem exists_method_of_has (h : (g.generate f).result = .ok (some a)) {t : Tool}
    (ht : a.catalog.Has t) : ∃ m, t = (g.tool m).1 := by
  obtain ⟨catalog, events, rfl, hholds⟩ := artifact_of_generate h
  have hentry : ∃ e ∈ g.entries f, e.tool = t := by
    rcases ht with ⟨k, ht⟩ | ⟨s, n, ht⟩
    · obtain ⟨e, he, -, htool⟩ := (hholds.tools k t).1 ht
      exact ⟨e, he, htool⟩
    · obtain ⟨e, he, -, -, htool⟩ := (hholds.methods s n t).1 ht
      exact ⟨e, he, htool⟩
  obtain ⟨e, he, rfl⟩ := hentry
  obtain ⟨s, -, m, -, -, rfl⟩ := mem_entries.1 he
  exact ⟨m, rfl⟩

/-- A method takes a message of the pool or one without fields. -/
theorem namesIdentifiers_request (h : g.pool.NamesIdentifiers) (m : Method) :
    (g.request m).NamesIdentifiers := by
  unfold request
  cases hm : g.pool.message? m.inputType with
  | none => exact fun f hf => nomatch hf
  | some m' => exact h m.inputType m' hm

/-- **The text of an input schema.** If the fields of all messages are called by ASCII letters,
digits and underscores, the text that comes with a tool of a file is the canonical form of its
input schema, and the only one. -/
theorem canonicalText_of_generate (hpool : g.pool.NamesIdentifiers)
    (h : (g.generate f).result = .ok (some a)) {t : Tool} (ht : a.catalog.Has t)
    (text : List Char) :
    Json.CanonicalText t.inputSchema text ↔ text = t.rawInputSchema.toList := by
  obtain ⟨m, rfl⟩ := exists_method_of_has h ht
  exact Json.canonicalText_iff
    (Pool.regular_schema hpool (namesIdentifiers_request hpool m) g.required)

/-- A message in itself, with a name that begins another one and two that differ only in case. -/
def queryMessage : Message :=
  ⟨"demo.Query",
    [(Field.ofKind "type_url" .string).withFullName "demo.Query.type_url",
      Field.ofKind "type" .string, Field.ofKind "Type" .int32,
      Field.ofMessage "next" "demo.Query"]⟩

def queryGenerator : Generator :=
  ⟨Pool.ofTypes [queryMessage] [], fun f => f.fullName == "demo.Query.type_url", 64⟩

def queryFile : SourceFile :=
  ⟨"demo.proto", "demo", "demo", true,
    [⟨"Index", "demo.Index",
      [⟨"Find", "demo.Index.Find", "demo.Query", "demo.Query", false, false, ""⟩]⟩]⟩

def queryText : String :=
  "\x7b\"properties\":\x7b\"Type\":\x7b\"type\":\"integer\"\x7d," ++
    "\"next\":\x7b\"$comment\":\"recursive reference to demo.Query\"\x7d," ++
    "\"type\":\x7b\"type\":\"string\"\x7d,\"type_url\":\x7b\"type\":\"string\"\x7d\x7d," ++
    "\"required\":[\"type_url\"],\"type\":\"object\"\x7d"

theorem namesIdentifiers_queryGenerator : queryGenerator.pool.NamesIdentifiers := by
  intro n m hm f hf
  have hfind : [queryMessage].find? (fun m => m.fullName == n) = some m := by
    rw [← hm]
    exact (Pool.message?_ofTypes [queryMessage] [] n).symm
  obtain rfl := List.mem_singleton.1 (List.mem_of_find?_eq_some hfind)
  have hall : queryMessage.fields.all
      (fun f => f.name.toList.all Identifier.isNameChar) = true := by decide +kernel
  exact List.all_eq_true.1 (List.all_eq_true.1 hall f hf)

theorem canonicalText_of_generate_queryFile :
    ∃ a t, (queryGenerator.generate queryFile).result = .ok (some a) ∧ a.catalog.Has t ∧
      t.rawInputSchema = queryText ∧ Json.CanonicalText t.inputSchema queryText.toList := by
  have htext : (queryGenerator.generate queryFile).artifact?.bind (fun a =>
      (a.catalog.tool? "Index_Find").map (·.rawInputSchema)) = some queryText := by
    decide +kernel
  obtain ⟨a, ha, htext⟩ := Option.bind_eq_some_iff.1 htext
  obtain ⟨t, ht, htext⟩ := Option.map_eq_some_iff.1 htext
  have hresult := Report.artifact?_eq_some_iff.1 ha
  have hhas : a.catalog.Has t := .inl ⟨"Index_Find", ht⟩
  have hcanonical := canonicalText_of_generate namesIdentifiers_queryGenerator hresult hhas
  exact ⟨a, t, hresult, hhas, htext, (hcanonical _).2 (htext ▸ rfl)⟩

end Generator
end McpCatalog
