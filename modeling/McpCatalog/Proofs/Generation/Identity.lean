import Mathlib.Data.List.Nodup
import McpCatalog.Proofs.Catalog.Calls
import McpCatalog.Proofs.Generation.Isolation
import McpCatalog.Proofs.Render.Module
/-!
# The identity of tools

A catalog refuses a tool whose key or name is taken, and each file has a catalog of its own. So the
keys and the names of the tools of a file are unique in the file. Nothing compares them with those
of other files: keys leave out the package, and names all but the last two parts of the full name.

Results:
* `emitted?_cases`, `outputs_emitted`: the tools that are written, in the order of the outputs.
* `nodup_emitted_iff`: what is unique in each file is unique in all of them if and only if no two
  files that are asked for have methods that share it.
* `identity_of_run`: the keys and the names of all tools of a run without errors.
-/
namespace McpCatalog

namespace Catalog

/-- The names of the tools, in the order of their keys. -/
def toolNames (c : Catalog) : List String :=
  c.tools.entries.map (·.2.name)

variable {c : Catalog} {services : List String} {es : List Entry}

theorem Holds.mem_keys_iff (h : c.Holds services es) {k : String} :
    k ∈ c.tools.keys ↔ ∃ e ∈ es, e.key = k := by
  rw [h.perm_keys.mem_iff, List.mem_map]

theorem Holds.mem_toolNames_iff (h : c.Holds services es) {n : String} :
    n ∈ c.toolNames ↔ ∃ e ∈ es, e.tool.name = n := by
  unfold toolNames
  rw [List.mem_map, ← h.names, h.consistent.names]
  constructor
  · intro ⟨e, he, hn⟩
    exact ⟨e.1, e.2, Dict.mem_entries_iff.1 he, hn⟩
  · intro ⟨k, t, ht, hn⟩
    exact ⟨(k, t), Dict.mem_entries_iff.2 ht, hn⟩

end Catalog

/-- The files that tools are generated for. -/
def Request.asked (r : Request) : List FileDecl :=
  r.files.filter fun f => r.filesToGenerate.contains f.path

namespace Plugin

/-- The unary methods of a file of a request, with their tools. -/
def entries (s : Settings) (r : Request) (f : FileDecl) : List Catalog.Entry :=
  (Pass.generator s (Corpus.ofRequest r)).entries (f.toSource r.filesToGenerate)

/-- The tools of a file of a request, if they are written. -/
def emitted? (s : Settings) (r : Request) (f : FileDecl) : Option Artifact :=
  ((Pass.generator s (Corpus.ofRequest r)).generate
    (f.toSource r.filesToGenerate)).artifact?.filter fun a => (Render.output s a).isOk

/-- The tools that are written, file by file. -/
def emitted (s : Settings) (r : Request) : List Artifact :=
  r.files.filterMap (emitted? s r)

/-- The keys of all tools that are written. -/
def allKeys (s : Settings) (r : Request) : List String :=
  (emitted s r).flatMap fun a => a.catalog.tools.keys

/-- The names of all tools that are written. -/
def allNames (s : Settings) (r : Request) : List String :=
  (emitted s r).flatMap fun a => a.catalog.toolNames

/-! ## Written tools -/

section
variable {s : Settings} {r : Request} {f : FileDecl}

theorem emitted?_cases (s : Settings) (r : Request) (f : FileDecl) :
    emitted? s r f = none ∧ (∀ o, contribution s r f ≠ .output o) ∨
      ∃ a o, emitted? s r f = some a ∧ contribution s r f = .output o ∧
        Render.output s a = .ok o := by
  unfold emitted? contribution Pass.file Report.artifact?
  dsimp only
  cases hresult : ((Pass.generator s (Corpus.ofRequest r)).generate
    (f.toSource r.filesToGenerate)).result with
  | error clash => exact .inl ⟨rfl, fun o => Contribution.noConfusion⟩
  | ok out =>
    cases out with
    | none => exact .inl ⟨rfl, fun o => Contribution.noConfusion⟩
    | some a =>
      cases houtput : Render.output s a with
      | error c =>
        refine .inl ⟨?_, ?_⟩
        · simp [Except.toOption, houtput, Except.isOk, Except.toBool]
        · simp [houtput]
      | ok o =>
        refine .inr ⟨a, o, ?_, ?_, houtput⟩
        · simp [Except.toOption, houtput, Except.isOk, Except.toBool]
        · simp [houtput]

/-- The outputs are made from the tools that are written, in the same order. -/
theorem outputs_emitted (s : Settings) (r : Request) :
    List.Forall₂ (fun a o => Render.output s a = .ok o) (emitted s r)
      (outcome s r).response.outputs := by
  rw [(response_assembled (s := s) (r := r)).outputs, emitted]
  induction r.files with
  | nil => exact .nil
  | cons f fs ih =>
    rcases emitted?_cases s r f with ⟨hnone, hother⟩ | ⟨a, o, ha, hcontribution, houtput⟩
    · have hno : (contribution s r f).output? = none := by
        rw [Option.eq_none_iff_forall_ne_some]
        intro o ho
        exact hother o (output?_eq_some_iff.1 ho)
      rw [List.filterMap_cons_none hnone, List.map_cons, List.filterMap_cons_none hno]
      exact ih
    · have ho : (contribution s r f).output? = some o := output?_eq_some_iff.2 hcontribution
      rw [List.filterMap_cons_some ha, List.map_cons, List.filterMap_cons_some ho]
      exact .cons houtput ih

theorem asks_of_emitted? {a : Artifact} (h : emitted? s r f = some a) : r.Asks f := by
  rcases emitted?_cases s r f with ⟨hnone, -⟩ | ⟨_, o, -, hcontribution, -⟩
  · rw [hnone] at h
    cases h
  · by_contra hasked
    have hnothing : contribution s r f = .nothing :=
      contribution_eq_nothing_iff.2 fun hboth => hasked hboth.1
    rw [hcontribution] at hnothing
    cases hnothing

theorem holds_of_emitted? {a : Artifact} (h : emitted? s r f = some a) :
    a.catalog.Holds ((f.toSource r.filesToGenerate).services.map (·.name)) (entries s r f) := by
  obtain ⟨ha, -⟩ := Option.filter_eq_some_iff.1 h
  obtain ⟨catalog, events, rfl, hholds⟩ :=
    Generator.artifact_of_generate (Report.artifact?_eq_some_iff.1 ha)
  exact hholds

/-- If nothing fails, the tools of a file that has some are written. -/
theorem exists_emitted? (hok : ∀ line, contribution s r f ≠ .failure line) (hasked : r.Asks f)
    {e : Catalog.Entry} (he : e ∈ entries s r f) : ∃ a, emitted? s r f = some a := by
  rcases emitted?_cases s r f with ⟨-, hother⟩ | ⟨a, o, ha, -, -⟩
  · have hnothing : contribution s r f = .nothing := by
      cases hcontribution : contribution s r f with
      | output o => exact absurd hcontribution (hother o)
      | failure line => exact absurd hcontribution (hok line)
      | nothing => rfl
    obtain ⟨service, hservice, -⟩ := Generator.mem_entries.1 he
    have hservices : f.services ≠ [] := by
      intro hnil
      simp [FileDecl.toSource, hnil] at hservice
    exact absurd ⟨hasked, hservices⟩ (contribution_eq_nothing_iff.1 hnothing)
  · exact ⟨a, ha⟩

/-! ## All files -/

/-- A label that is unique in every catalog is unique in a run without errors if and only if no two
files that are asked for have methods with one label. -/
theorem nodup_emitted_iff {label : Catalog.Entry → String} {labels : Catalog → List String}
    (hnodup : ∀ c services es, c.Holds services es → (labels c).Nodup)
    (hmem : ∀ c services es, c.Holds services es → ∀ l, l ∈ labels c ↔ ∃ e ∈ es, label e = l)
    (herror : (outcome s r).response.error = none) :
    ((emitted s r).flatMap fun a => labels a.catalog).Nodup ↔
      r.asked.Pairwise fun f f' =>
        ∀ e ∈ entries s r f, ∀ e' ∈ entries s r f', label e ≠ label e' := by
  have hok := response_assembled.error_none.1 herror
  have hunique : ∀ a ∈ emitted s r, (labels a.catalog).Nodup := by
    intro a ha
    obtain ⟨f, -, hf⟩ := List.mem_filterMap.1 ha
    exact hnodup _ _ _ (holds_of_emitted? hf)
  rw [List.nodup_flatMap, and_iff_right hunique, emitted, List.pairwise_filterMap, Request.asked,
    List.pairwise_filter]
  apply List.Pairwise.iff_of_mem
  intro f f' hf hf'
  constructor
  · intro hdisjoint hasked hasked' e he e' he' heq
    rw [List.contains_iff_mem] at hasked hasked'
    obtain ⟨a, ha⟩ := exists_emitted? (hok f hf) hasked he
    obtain ⟨a', ha'⟩ := exists_emitted? (hok f' hf') hasked' he'
    have hleft : label e ∈ labels a.catalog := (hmem _ _ _ (holds_of_emitted? ha) _).2 ⟨e, he, rfl⟩
    have hright : label e ∈ labels a'.catalog :=
      (hmem _ _ _ (holds_of_emitted? ha') _).2 ⟨e', he', heq.symm⟩
    exact hdisjoint a ha a' ha' hleft hright
  · intro hdistinct a ha a' ha' l hleft hright
    obtain ⟨e, he, hl⟩ := (hmem _ _ _ (holds_of_emitted? ha) l).1 hleft
    obtain ⟨e', he', hl'⟩ := (hmem _ _ _ (holds_of_emitted? ha') l).1 hright
    have hasked := List.contains_iff_mem.2 (asks_of_emitted? ha)
    have hasked' := List.contains_iff_mem.2 (asks_of_emitted? ha')
    exact hdistinct hasked hasked' e he e' he' (hl.trans hl'.symm)

/-- **The identity of tools.** In a run without errors, the keys and the names of the tools in each
file that is written are distinct. Those of all files together are distinct if and only if no two
files that are asked for have unary methods with the same key, or with the same name. -/
theorem identity_of_run (run : Run s r) {o : Outcome} (ho : run.outcome? = .ok o)
    (herror : o.response.error = none) :
    List.Forall₂ (fun a out => Render.output s a = .ok out) (emitted s r) o.response.outputs ∧
    (∀ a ∈ emitted s r, a.catalog.tools.keys.Nodup ∧ a.catalog.toolNames.Nodup) ∧
    ((allKeys s r).Nodup ↔ r.asked.Pairwise fun f f' =>
      ∀ e ∈ entries s r f, ∀ e' ∈ entries s r f', e.key ≠ e'.key) ∧
    ((allNames s r).Nodup ↔ r.asked.Pairwise fun f f' =>
      ∀ e ∈ entries s r f, ∀ e' ∈ entries s r f', e.tool.name ≠ e'.tool.name) := by
  obtain rfl := Except.ok.inj (run.outcome?_eq.symm.trans ho)
  refine ⟨outputs_emitted s r, ?_, ?_, ?_⟩
  · intro a ha
    obtain ⟨f, -, hf⟩ := List.mem_filterMap.1 ha
    exact ⟨Dict.nodup_keys _, (holds_of_emitted? hf).consistent.distinct⟩
  · exact nodup_emitted_iff (fun c _ _ _ => c.tools.nodup_keys) (fun _ _ _ h _ => h.mem_keys_iff)
      herror
  · exact nodup_emitted_iff (fun _ _ _ h => h.consistent.distinct)
      (fun _ _ _ h _ => h.mem_toolNames_iff) herror

end

/-- A file of a version, with a service that has one method. -/
def versionFile (version service : String) : FileDecl :=
  let typeName (name : String) := ".greeter." ++ version ++ "." ++ name
  ⟨some ("greeter/" ++ version ++ ".proto"), some ("greeter." ++ version),
    [emptyDecl "Hello", emptyDecl "Reply"], [],
    [⟨some service,
      [⟨some "Greet", some (typeName "Hello"), some (typeName "Reply"), none, none⟩]⟩], none⟩

/-- Tools are asked for of two versions, whose services have the given names. -/
def versions (service service' : String) : Request :=
  ⟨["greeter/v1.proto", "greeter/v2.proto"], none,
    [versionFile "v1" service, versionFile "v2" service']⟩

theorem fits_versionFile (version service : String) :
    FitsInside FileDecl.Fits Request.maxNesting (versionFile version service) := by
  refine fits_plainFile (fun m hm => ?_) rfl rfl
  rcases List.mem_pair.1 hm with rfl | rfl
  · exact ⟨"Hello", rfl⟩
  · exact ⟨"Reply", rfl⟩

def renamedRun : Run .default (versions "Greeter" "Welcomer") :=
  runOver _ ⟨by simp [versions, fits_versionFile], by decide +kernel⟩ rfl

theorem identity_of_run_renamed :
    ∃ o, renamedRun.outcome? = .ok o ∧ o.response.error = none ∧
      (∀ a ∈ emitted .default (versions "Greeter" "Welcomer"),
        a.catalog.tools.keys.Nodup ∧ a.catalog.toolNames.Nodup) ∧
      (allKeys .default (versions "Greeter" "Welcomer")).Nodup ∧
      (allNames .default (versions "Greeter" "Welcomer")).Nodup := by
  have herror : (outcome .default (versions "Greeter" "Welcomer")).response.error = none := by
    decide +kernel
  obtain ⟨-, hunique, hkeys, hnames⟩ := identity_of_run renamedRun renamedRun.outcome?_eq herror
  refine ⟨_, renamedRun.outcome?_eq, herror, hunique, hkeys.2 ?_, hnames.2 ?_⟩
  · decide +kernel
  · decide +kernel

def versionsRun : Run .default (versions "Greeter" "Greeter") :=
  runOver _ ⟨by simp [versions, fits_versionFile], by decide +kernel⟩ rfl

/-- Two versions of a service are written without an error, and their tools are not told apart. -/
theorem not_nodup_versions :
    ∃ o, versionsRun.outcome? = .ok o ∧ o.response.error = none ∧ o.response.outputs.length = 2 ∧
      allKeys .default (versions "Greeter" "Greeter") = ["Greeter_Greet", "Greeter_Greet"] ∧
      ¬ (allKeys .default (versions "Greeter" "Greeter")).Nodup ∧
      ¬ (allNames .default (versions "Greeter" "Greeter")).Nodup := by
  refine ⟨_, versionsRun.outcome?_eq, ?_, ?_, ?_, ?_, ?_⟩
  · decide +kernel
  · decide +kernel
  · decide +kernel
  · decide +kernel
  · decide +kernel

end Plugin
end McpCatalog
