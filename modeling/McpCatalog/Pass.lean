import McpCatalog.Corpus
import McpCatalog.Render.Output
/-!
# Generation passes

A pass goes over the files of a corpus in order. Each file contributes a generated
file, a line of the error text, or nothing, and the events of its generation. What a
file contributes depends on the pool and on the file alone.

Results:
* `error_eq_none_iff`: there is an error text only if some file failed.
-/
namespace McpCatalog

/-- What a file adds to the response. -/
inductive Contribution where
  | output (o : Output)
  | failure (line : String)
  | nothing
  deriving DecidableEq

namespace Contribution

def output? : Contribution → Option Output
  | output o => some o
  | _ => none

def failure? : Contribution → Option String
  | failure line => some line
  | _ => none

end Contribution

/-- What happened to a file in a pass. -/
structure FileResult where
  events : List Event
  contribution : Contribution

/-- A pass as a list of what happened to the files. -/
structure Pass where
  results : List FileResult

namespace Pass

/-! ## Files -/

/-- The event of a file whose tools cannot be written.
mirrors bin/plugin:176-181 -/
def notRendered (path : String) (c : Identifier.Collision) : Event :=
  .inFile .fileFailed .error path c.message

/-- Generates and writes the tools of a file.
mirrors bin/plugin:160-185 -/
def file (g : Generator) (s : Settings) (f : SourceFile) : FileResult :=
  let report := g.generate f
  match report.result with
  | .error clash => ⟨report.events, .failure clash.message⟩
  | .ok none => ⟨report.events, .nothing⟩
  | .ok (some artifact) =>
    match Render.output s artifact with
    | .ok output => ⟨report.events, .output output⟩
    | .error c =>
      ⟨report.events ++ [notRendered f.path c], .failure (f.path ++ ": " ++ c.message)⟩

/-- What generates the tools of a corpus under some settings. -/
def generator (s : Settings) (c : Corpus) : Generator :=
  ⟨c.pool, .ofNames c.required, s.nameLimit⟩

/-- The pass over a corpus.
mirrors bin/plugin:153-186 -/
def run (s : Settings) (c : Corpus) : Pass :=
  ⟨c.files.map (file (generator s c) s)⟩

/-! ## Results -/

def events (p : Pass) : List Event :=
  p.results.flatMap (·.events)

def outputs (p : Pass) : List Output :=
  p.results.filterMap (·.contribution.output?)

/-- A line for each file that failed. -/
def failures (p : Pass) : List String :=
  p.results.filterMap (·.contribution.failure?)

/-- The error text of the pass, if some file failed. -/
def error (p : Pass) : Option String :=
  if p.failures.isEmpty then none else some ("\n".intercalate p.failures)

theorem error_eq_none_iff {p : Pass} :
    p.error = none ↔ ∀ r ∈ p.results, r.contribution.failure? = none := by
  simp [error, failures]

end Pass
end McpCatalog
