import Mathlib.Data.List.Forall2
import McpCatalog.Proofs.Generation.Filling
import McpCatalog.Render.Output
/-!
# The order of declarations

The tools of a file are put into a catalog in the order of their declarations. Clashes are
between any two of them, and what a catalog holds does not tell in which order it came; so the
order of services and methods shows in the events of a file and in the clash that is reported,
and nowhere else.

Results:
* `SourceFile.Reordered.perm_entries`: another order of declarations permutes the entries.
* `generate_reordered`: files that differ in the order of declarations fail both or neither,
  and have the same catalog and the same output.
-/
namespace McpCatalog

/-! ## Other orders -/

/-- The same service with its methods in another order. -/
structure Service.Reordered (s s' : Service) : Prop where
  name : s.name = s'.name
  fullName : s.fullName = s'.fullName
  methods : s.methods.Perm s'.methods

/-- The same file with its services, and the methods in each of them, in another order. -/
structure SourceFile.Reordered (f f' : SourceFile) : Prop where
  path : f.path = f'.path
  package : f.package = f'.package
  moduleName : f.moduleName = f'.moduleName
  generate : f.generate = f'.generate
  services : ∃ ss, f.services.Perm ss ∧ List.Forall₂ Service.Reordered ss f'.services

theorem Service.map_name_of_reordered {ss ss' : List Service}
    (h : List.Forall₂ Service.Reordered ss ss') : ss.map (·.name) = ss'.map (·.name) := by
  induction h with
  | nil => rfl
  | cons hs _ ih => rw [List.map_cons, List.map_cons, hs.name, ih]

theorem Generator.perm_methodEntries (g : Generator) {ss ss' : List Service}
    (h : List.Forall₂ Service.Reordered ss ss') :
    (ss.flatMap fun s => g.methodEntries s.name s.methods).Perm
      (ss'.flatMap fun s => g.methodEntries s.name s.methods) := by
  induction h with
  | nil => exact .refl []
  | cons hs _ ih =>
    rw [List.flatMap_cons, List.flatMap_cons, hs.name]
    exact ((hs.methods.filter _).map _).append ih

namespace SourceFile.Reordered

variable {f f' : SourceFile}

theorem perm_names (h : f.Reordered f') :
    (f.services.map (·.name)).Perm (f'.services.map (·.name)) := by
  obtain ⟨ss, hperm, hservices⟩ := h.services
  rw [← Service.map_name_of_reordered hservices]
  exact hperm.map _

theorem perm_entries (h : f.Reordered f') (g : Generator) :
    (g.entries f).Perm (g.entries f') := by
  obtain ⟨ss, hperm, hservices⟩ := h.services
  exact (hperm.flatMap_right _).trans (g.perm_methodEntries hservices)

theorem services_eq_nil_iff (h : f.Reordered f') : f.services = [] ↔ f'.services = [] := by
  have hlength := h.perm_names.length_eq
  rw [List.length_map, List.length_map] at hlength
  rw [← List.length_eq_zero_iff, hlength, List.length_eq_zero_iff]

end SourceFile.Reordered

/-! ## Outputs -/

/-- The events of a file are not written to its output. -/
theorem Render.output_congr {a a' : Artifact} (hpackage : a.package = a'.package)
    (hpath : a.sourcePath = a'.sourcePath) (hmodule : a.moduleName = a'.moduleName)
    (hcatalog : a.catalog = a'.catalog) (s : Settings) : output s a = output s a' := by
  cases a
  cases a'
  cases hpackage
  cases hpath
  cases hmodule
  cases hcatalog
  unfold output content
  cases s.format <;> rfl

/-! ## Generation -/

namespace Generator

theorem FirstClash.not_pairwise {file : String} {es : List Catalog.Entry} {c : Clash}
    (h : FirstClash file es c) : ¬ es.Pairwise fun e e' => ¬ e.Clashes e' := by
  intro hdistinct
  obtain ⟨e, e', hsub, hclash⟩ := h.exists_clashes
  exact List.pairwise_iff_forall_sublist.1 hdistinct hsub hclash

/-- A requested file fails if and only if two of its entries clash, whatever their order. -/
theorem generate_eq_error_iff (g : Generator) {f : SourceFile} :
    (∃ c, (g.generate f).result = .error c) ↔
      ¬ (f.generate = false ∨ f.services = []) ∧
        ¬ (g.entries f).Pairwise fun e e' => ¬ e.Clashes e' := by
  constructor
  · rintro ⟨c, hc⟩
    have hrequested : ¬ (f.generate = false ∨ f.services = []) := by
      rw [← generate_eq_ok_none_iff (g := g), hc]
      simp
    exact ⟨hrequested, (firstClash_of_generate hc).not_pairwise⟩
  · rintro ⟨hrequested, hclash⟩
    simp only [not_or, Bool.not_eq_false] at hrequested
    rcases generate_cases g hrequested.1 hrequested.2 with ⟨c, hc, -⟩ | ⟨_, _, -, hholds⟩
    · exact ⟨c, hc⟩
    · exact absurd hholds.distinct hclash

/-- **Order of declarations.** Two files that differ in the order of their services, and of the
methods in each service, fail both or neither. If they do not fail, both are passed over, or both
have the same catalog, and then their outputs are the same in either format. -/
theorem generate_reordered (g : Generator) {f f' : SourceFile} (h : f.Reordered f') :
    ((∃ c, (g.generate f).result = .error c) ↔ ∃ c, (g.generate f').result = .error c) ∧
    ((g.generate f).result = .ok none ↔ (g.generate f').result = .ok none) ∧
    ∀ a, (g.generate f).result = .ok (some a) →
      ∃ a', (g.generate f').result = .ok (some a') ∧ a'.catalog = a.catalog ∧
        ∀ s : Settings, Render.output s a' = Render.output s a := by
  have hentries := h.perm_entries g
  have hfails : (∃ c, (g.generate f).result = .error c) ↔
      ∃ c, (g.generate f').result = .error c := by
    rw [generate_eq_error_iff, generate_eq_error_iff, h.generate, h.services_eq_nil_iff,
      hentries.pairwise_iff fun hab hba => hab hba.symm]
  have hpassed : (g.generate f).result = .ok none ↔ (g.generate f').result = .ok none := by
    rw [generate_eq_ok_none_iff, generate_eq_ok_none_iff, h.generate, h.services_eq_nil_iff]
  refine ⟨hfails, hpassed, ?_⟩
  intro a ha
  cases hr : (g.generate f').result with
  | error c =>
    obtain ⟨c, hc⟩ := hfails.2 ⟨c, hr⟩
    rw [ha] at hc
    cases hc
  | ok out =>
    cases out with
    | none =>
      rw [hpassed.2 hr] at ha
      cases ha
    | some a' =>
      obtain ⟨catalog, events, rfl, hholds⟩ := artifact_of_generate ha
      obtain ⟨catalog', events', rfl, hholds'⟩ := artifact_of_generate hr
      have hcatalog : catalog' = catalog :=
        hholds'.ext hholds (fun _ => h.perm_names.mem_iff.symm) fun _ => hentries.mem_iff.symm
      refine ⟨_, rfl, hcatalog, ?_⟩
      exact Render.output_congr h.package.symm h.path.symm h.moduleName.symm hcatalog

/-- A service with unary methods of the given names. -/
def shopService (name : String) (methods : List String) : Service :=
  ⟨name, "shop." ++ name, methods.map fun m =>
    ⟨m, "shop." ++ name ++ "." ++ m, "shop.Query", "shop.Query", false, false, ""⟩⟩

def shopFile (services : List Service) : SourceFile :=
  ⟨"shop.proto", "shop", "shop", true, services⟩

/-- Two services, and the same two with everything in reverse. -/
def forwardFile : SourceFile :=
  shopFile [shopService "Catalog" ["Search", "Count"], shopService "Inventory" ["Search"]]

def backwardFile : SourceFile :=
  shopFile [shopService "Inventory" ["Search"], shopService "Catalog" ["Count", "Search"]]

theorem forwardFile_reordered : forwardFile.Reordered backwardFile := by
  refine ⟨rfl, rfl, rfl, rfl, _, .swap _ _ [], ?_⟩
  refine .cons ⟨rfl, rfl, .refl _⟩ (.cons ⟨rfl, rfl, ?_⟩ .nil)
  exact .swap _ _ []

theorem generate_reordered_forwardFile :
    forwardFile.Reordered backwardFile ∧ ∃ a a',
      (generate ⟨.empty, fun _ => false, 64⟩ forwardFile).result = .ok (some a) ∧
      (generate ⟨.empty, fun _ => false, 64⟩ backwardFile).result = .ok (some a') ∧
      a'.catalog = a.catalog ∧ Render.output .default a' = Render.output .default a := by
  obtain ⟨-, -, hsame⟩ := generate_reordered ⟨.empty, fun _ => false, 64⟩ forwardFile_reordered
  have hdistinct : (entries ⟨.empty, fun _ => false, 64⟩ forwardFile).Pairwise
      fun e e' => ¬ e.Clashes e' := by
    simp only [Catalog.Entry.Clashes]
    decide +kernel
  have hs : forwardFile.services ≠ [] := by simp [forwardFile, shopFile]
  rcases generate_cases ⟨.empty, fun _ => false, 64⟩ (f := forwardFile) rfl hs with
    ⟨c, -, hfirst⟩ | ⟨catalog, events, ha, -⟩
  · exact absurd hdistinct hfirst.not_pairwise
  · obtain ⟨a', ha', hcatalog, houtput⟩ := hsame _ ha
    exact ⟨forwardFile_reordered, _, a', ha, ha', hcatalog, houtput .default⟩

end Generator
end McpCatalog
