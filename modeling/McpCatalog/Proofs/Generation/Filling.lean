import McpCatalog.Generation
import McpCatalog.Proofs.Catalog
/-!
# The tools of a file

The unary methods of a file are put into a catalog one after the other. The first of them
that shares its key or its tool name with one before it stops the generation.

Results:
* `reached_addMethod`, `reached_addService`: what a method and what a service add to a
  catalog, or why they do not.
* `generate_cases`, `artifact_of_generate`, `firstClash_of_generate`: a requested file ends with
  its first clash, or with a catalog that holds its entries.
* `FirstClash.refuses`, `filled_of_holds`: the same of the unary methods of the file, with the keys
  and names that they have from their own names.
* `generate_requested`: a requested file fails if and only if two of its unary methods
  collide; otherwise its catalog has these methods and no others.
-/
namespace McpCatalog

/-! ## Adding methods and services -/

namespace Generator

open Catalog (Entry)

/-- The entry for a method of a service. -/
def entry (g : Generator) (service : String) (m : Method) : Entry :=
  ⟨service, m.name, (g.tool m).1⟩

/-- The entries for some methods of a service, streaming methods left out. -/
def methodEntries (g : Generator) (service : String) (ms : List Method) : List Entry :=
  (ms.filter fun m => !m.isStreaming).map (g.entry service)

/-- The entries for the unary methods of a file, in order. -/
def entries (g : Generator) (f : SourceFile) : List Entry :=
  f.services.flatMap fun s => g.methodEntries s.name s.methods

theorem mem_methodEntries {g : Generator} {service : String} {ms : List Method} {e : Entry} :
    e ∈ g.methodEntries service ms ↔ ∃ m ∈ ms, m.isStreaming = false ∧ e = g.entry service m := by
  simp only [methodEntries, List.mem_map, List.mem_filter, Bool.not_eq_true']
  constructor
  · rintro ⟨m, ⟨hm, hunary⟩, rfl⟩
    exact ⟨m, hm, hunary, rfl⟩
  · rintro ⟨m, hm, hunary, rfl⟩
    exact ⟨m, ⟨hm, hunary⟩, rfl⟩

theorem mem_entries {g : Generator} {f : SourceFile} {e : Entry} :
    e ∈ g.entries f ↔
      ∃ s ∈ f.services, ∃ m ∈ s.methods, m.isStreaming = false ∧ e = g.entry s.name m := by
  simp only [entries, List.mem_flatMap, mem_methodEntries]

/-- Of the entries, one clashes with one before it, and no earlier one does; `c` tells why. -/
def FirstClash (file : String) (es : List Entry) (c : Clash) : Prop :=
  ∃ before e after, es = before ++ e :: after ∧ (before.Pairwise fun a b => ¬ a.Clashes b) ∧
    (∃ e' ∈ before, e'.Clashes e) ∧ c = e.clash file before

/-- What came out of adding entries: a catalog that holds them, or the first clash. -/
def Reached (file : String) (services : List String) (es : List Entry) :
    Except Failure Progress → Prop
  | .ok p => p.catalog.Holds services es
  | .error failure => FirstClash file es failure.clash

theorem FirstClash.append {file : String} {es : List Entry} {c : Clash}
    (h : FirstClash file es c) (more : List Entry) : FirstClash file (es ++ more) c := by
  obtain ⟨before, e, after, rfl, hrest⟩ := h
  exact ⟨before, e, after ++ more, by simp, hrest⟩

theorem pair_sublist {α : Type} {before after : List α} {x y : α} (hy : y ∈ before) :
    [y, x].Sublist (before ++ x :: after) :=
  (List.singleton_sublist.2 hy).append (List.singleton_sublist.2 List.mem_cons_self)

theorem FirstClash.exists_clashes {file : String} {es : List Entry} {c : Clash}
    (h : FirstClash file es c) : ∃ e e', [e, e'].Sublist es ∧ e.Clashes e' := by
  obtain ⟨before, e, after, rfl, -, ⟨e', he', hclash⟩, -⟩ := h
  exact ⟨e', e, pair_sublist he', hclash⟩

/-- A clash ends the generation, otherwise it goes on with what was added so far. -/
theorem Reached.bind {file : String} {services services' : List String} {es more : List Entry}
    {x : Except Failure Progress} {next : Progress → Except Failure Progress}
    (h : Reached file services es x)
    (hnext : ∀ p, p.catalog.Holds services es → Reached file services' (es ++ more) (next p)) :
    Reached file services' (es ++ more) (x >>= next) := by
  cases x with
  | error failure => exact h.append more
  | ok p => exact hnext p h

section
variable (g : Generator) (file : String)

theorem reached_addMethod (service : String) {p : Progress} {services : List String}
    {es : List Entry} (h : p.catalog.Holds services es) (hs : service ∈ services) (m : Method) :
    Reached file services (es ++ g.methodEntries service [m]) (g.addMethod file service p m) := by
  by_cases hm : m.isStreaming = true
  · have hnone : g.methodEntries service [m] = [] := by simp [methodEntries, hm]
    rw [hnone, List.append_nil, addMethod, if_pos hm]
    exact h
  · have hone : g.methodEntries service [m] = [g.entry service m] := by simp [methodEntries, hm]
    rw [hone, addMethod, if_neg hm]
    simp only [Progress.note]
    by_cases hc : ∃ e' ∈ es, e'.Clashes (g.entry service m)
    · obtain ⟨e', he', hclash⟩ := hc
      have hinsert : p.catalog.insert file service m.name (g.tool m).1
          = .error ((g.entry service m).clash file es) := h.insert_eq_clash he' hclash file
      rw [hinsert]
      exact ⟨es, _, [], rfl, h.distinct, ⟨e', he', hclash⟩, rfl⟩
    · have hnew : ∀ e' ∈ es, ¬ e'.Clashes (g.entry service m) := by simpa using hc
      have hinsert : p.catalog.insert file service m.name (g.tool m).1
          = .ok (p.catalog.add (g.entry service m)) := h.insert_eq_add hnew file
      rw [hinsert]
      exact h.add hs hnew

theorem reached_addMethods (service : String) {p : Progress} {services : List String}
    {es : List Entry} (h : p.catalog.Holds services es) (hs : service ∈ services)
    (ms : List Method) :
    Reached file services (es ++ g.methodEntries service ms)
      (ms.foldlM (g.addMethod file service) p) := by
  induction ms generalizing p es with
  | nil =>
    rw [List.foldlM_nil, methodEntries, List.filter_nil, List.map_nil, List.append_nil]
    exact h
  | cons m ms ih =>
    have hsplit : g.methodEntries service (m :: ms)
        = g.methodEntries service [m] ++ g.methodEntries service ms := by
      simp only [methodEntries, ← List.map_append, ← List.filter_append, List.singleton_append]
    rw [hsplit, List.foldlM_cons, ← List.append_assoc]
    exact (reached_addMethod g file service h hs m).bind fun _ hp => ih hp

theorem reached_addService {p : Progress} {services : List String} {es : List Entry}
    (h : p.catalog.Holds services es) (s : Service) :
    Reached file (services ++ [s.name]) (es ++ g.methodEntries s.name s.methods)
      (g.addService file p s) :=
  reached_addMethods g file s.name (h.ensureService s.name) (by simp) s.methods

theorem reached_addServices {p : Progress} {services : List String} {es : List Entry}
    (h : p.catalog.Holds services es) (ss : List Service) :
    Reached file (services ++ ss.map (·.name))
      (es ++ ss.flatMap fun s => g.methodEntries s.name s.methods)
      (ss.foldlM (g.addService file) p) := by
  induction ss generalizing p services es with
  | nil =>
    rw [List.foldlM_nil, List.map_nil, List.flatMap_nil, List.append_nil, List.append_nil]
    exact h
  | cons s ss ih =>
    rw [List.foldlM_cons, List.map_cons, List.append_cons, List.flatMap_cons, ← List.append_assoc]
    exact (reached_addService g file h s).bind fun _ hp => ih hp

end

/-! ## Requested files -/

theorem generate_eq_ok_none_iff {g : Generator} {f : SourceFile} :
    (g.generate f).result = .ok none ↔ f.generate = false ∨ f.services = [] := by
  unfold generate
  cases hf : f.generate with
  | false => simp [skippedFile]
  | true =>
    cases hs : f.services with
    | nil => simp [skippedFile]
    | cons service rest =>
      simp only [Bool.not_true, Bool.false_eq_true, if_false, List.isEmpty_cons]
      split <;> simp

/-- A requested file ends with its first clash, or with a catalog that holds its entries. -/
theorem generate_cases (g : Generator) {f : SourceFile} (hf : f.generate = true)
    (hs : f.services ≠ []) :
    (∃ c, (g.generate f).result = .error c ∧ FirstClash f.path (g.entries f) c) ∨
    ∃ catalog events, (g.generate f).result
        = .ok (some ⟨f.package, f.path, f.moduleName, catalog, events⟩) ∧
      catalog.Holds (f.services.map (·.name)) (g.entries f) := by
  have hempty : Progress.start.catalog.Holds [] [] := Catalog.holds_empty
  have hreached : Reached f.path (f.services.map (·.name)) (g.entries f)
      (f.services.foldlM (g.addService f.path) .start) :=
    reached_addServices g f.path hempty f.services
  have hne : f.services.isEmpty = false := by simpa using hs
  unfold generate
  simp only [hf, hne, Bool.not_true, Bool.false_eq_true, if_false]
  cases hp : f.services.foldlM (g.addService f.path) .start with
  | error failure =>
    rw [hp] at hreached
    exact .inl ⟨_, rfl, hreached⟩
  | ok p =>
    rw [hp] at hreached
    exact .inr ⟨_, _, rfl, hreached⟩

/-- What comes out of a file is named after the file and holds its entries. -/
theorem artifact_of_generate {g : Generator} {f : SourceFile} {a : Artifact}
    (h : (g.generate f).result = .ok (some a)) :
    ∃ catalog events, a = ⟨f.package, f.path, f.moduleName, catalog, events⟩ ∧
      catalog.Holds (f.services.map (·.name)) (g.entries f) := by
  have hrequested : ¬ (f.generate = false ∨ f.services = []) := by
    rw [← generate_eq_ok_none_iff (g := g), h]
    simp
  simp only [not_or, Bool.not_eq_false] at hrequested
  rcases generate_cases g hrequested.1 hrequested.2 with ⟨c, hc, -⟩ | ⟨catalog, events, ha, hholds⟩
  · rw [hc] at h
    simp at h
  · rw [ha] at h
    exact ⟨catalog, events, (Option.some.inj (Except.ok.inj h)).symm, hholds⟩

/-- A file that fails does so with the first clash of its entries. -/
theorem firstClash_of_generate {g : Generator} {f : SourceFile} {c : Clash}
    (h : (g.generate f).result = .error c) : FirstClash f.path (g.entries f) c := by
  have hrequested : ¬ (f.generate = false ∨ f.services = []) := by
    rw [← generate_eq_ok_none_iff (g := g), h]
    simp
  simp only [not_or, Bool.not_eq_false] at hrequested
  rcases generate_cases g hrequested.1 hrequested.2 with ⟨c', hc, hfirst⟩ | ⟨_, _, ha, -⟩
  · rw [h] at hc
    exact Except.error.inj hc ▸ hfirst
  · rw [h] at ha
    simp at ha

/-! ## The unary methods of a file -/

/-- The methods of a file with their services, as they are declared. -/
def declared (f : SourceFile) : List (Service × Method) :=
  f.services.flatMap fun s => s.methods.map fun m => (s, m)

/-- The unary ones of some methods. -/
def unary (ms : List (Service × Method)) : List (Service × Method) :=
  ms.filter fun sm => !sm.2.clientStreaming && !sm.2.serverStreaming

/-- The key of a method. -/
def keyOf (sm : Service × Method) : String :=
  sm.1.name ++ "_" ++ sm.2.name

/-- The name of the tool of a method. -/
def nameOf (limit : Nat) (sm : Service × Method) : String :=
  ToolName.shortened (ToolName.flattened sm.2.fullName) limit

/-- The two methods have the same key, or their tools have the same name. -/
def Collide (limit : Nat) (sm sm' : Service × Method) : Prop :=
  keyOf sm = keyOf sm' ∨ nameOf limit sm = nameOf limit sm'

/-- What a method is refused for: its key is taken by one before it, or else its name is. -/
def refusal (limit : Nat) (path : String) (before : List (Service × Method))
    (sm : Service × Method) : Clash :=
  if keyOf sm ∈ before.map keyOf then .duplicateKey path (keyOf sm)
  else .duplicateName path (nameOf limit sm)

/-- Of some methods one collides with one before it, and no earlier one does; `c` tells why. -/
def Refuses (limit : Nat) (path : String) (ms : List (Service × Method)) (c : Clash) : Prop :=
  ∃ before sm after, ms = before ++ sm :: after ∧
    (before.Pairwise fun a b => ¬ Collide limit a b) ∧ (∃ sm' ∈ before, Collide limit sm' sm) ∧
    c = refusal limit path before sm

/-- The catalog has the services of a file and its unary methods, and nothing else. -/
structure Filled (g : Generator) (f : SourceFile) (c : Catalog) : Prop where
  /-- There is one tool for each unary method, under its key. -/
  keys : c.tools.keys.Perm ((unary (declared f)).map keyOf)
  /-- It is the tool of the method, and has the name that the method gives it. -/
  tools : ∀ sm ∈ unary (declared f), ∃ t, c.tools.get? (keyOf sm) = some t ∧ t = (g.tool sm.2).1 ∧
    t.name = nameOf g.nameLimit sm
  names : ∀ n, c.names.contains n = true ↔
    ∃ sm ∈ unary (declared f), nameOf g.nameLimit sm = n
  services : ∀ s, (c.services.get? s).isSome = true ↔ ∃ d ∈ f.services, d.name = s
  /-- Under a service stand its unary methods, with the tools under their keys. -/
  methods : ∀ s ms, c.services.get? s = some ms → ∀ m t, ms.get? m = some t ↔
    ∃ sm ∈ unary (declared f), sm.1.name = s ∧ sm.2.name = m ∧ c.tools.get? (keyOf sm) = some t

section
variable (g : Generator)

/-- The entries for the unary ones of some methods. -/
def unaryEntries (ms : List (Service × Method)) : List Entry :=
  (unary ms).map fun sm => g.entry sm.1.name sm.2

theorem unaryEntries_append (ms ms' : List (Service × Method)) :
    g.unaryEntries (ms ++ ms') = g.unaryEntries ms ++ g.unaryEntries ms' := by
  simp [unaryEntries, unary]

theorem unaryEntries_service (s : Service) (ms : List Method) :
    g.unaryEntries (ms.map fun m => (s, m)) = g.methodEntries s.name ms := by
  simp [unaryEntries, unary, methodEntries, Method.isStreaming, List.filter_map, Function.comp_def]

theorem unaryEntries_services (ss : List Service) :
    g.unaryEntries (ss.flatMap fun s => s.methods.map fun m => (s, m))
      = ss.flatMap fun s => g.methodEntries s.name s.methods := by
  induction ss with
  | nil => rfl
  | cons s ss ih =>
    rw [List.flatMap_cons, List.flatMap_cons, unaryEntries_append, unaryEntries_service, ih]

theorem unaryEntries_declared (f : SourceFile) : g.unaryEntries (declared f) = g.entries f :=
  g.unaryEntries_services f.services

/-- The entries of two methods clash if and only if the methods collide. -/
theorem clashes_entry_iff {sm sm' : Service × Method} :
    (g.entry sm.1.name sm.2).Clashes (g.entry sm'.1.name sm'.2) ↔ Collide g.nameLimit sm sm' :=
  Iff.rfl

theorem pairwise_unary {ms : List (Service × Method)}
    (h : (g.unaryEntries ms).Pairwise fun e e' => ¬ e.Clashes e') :
    (unary ms).Pairwise fun sm sm' => ¬ Collide g.nameLimit sm sm' := by
  refine (List.pairwise_map.1 h).imp fun hclash => ?_
  rwa [clashes_entry_iff] at hclash

theorem clash_entry (path : String) (before : List (Service × Method)) (sm : Service × Method) :
    (g.entry sm.1.name sm.2).clash path (before.map fun sm => g.entry sm.1.name sm.2)
      = refusal g.nameLimit path before sm := by
  unfold Entry.clash
  rw [List.map_map]
  rfl

end

/-- The first clash of the entries is that of the methods. -/
theorem FirstClash.refuses {g : Generator} {path : String} {ms : List (Service × Method)}
    {c : Clash} (h : FirstClash path (ms.map fun sm => g.entry sm.1.name sm.2) c) :
    Refuses g.nameLimit path ms c := by
  obtain ⟨before, e, after, hsplit, hdistinct, ⟨e', he', hclash⟩, rfl⟩ := h
  obtain ⟨before, rest, rfl, rfl, hrest⟩ := List.map_eq_append_iff.1 hsplit
  obtain ⟨sm, after, rfl, rfl, -⟩ := List.map_eq_cons_iff.1 hrest
  obtain ⟨sm', hsm', rfl⟩ := List.mem_map.1 he'
  exact ⟨before, sm, after, rfl, List.pairwise_map.1 hdistinct,
    ⟨sm', hsm', g.clashes_entry_iff.1 hclash⟩, g.clash_entry path before sm⟩

theorem Refuses.exists_collide {limit : Nat} {path : String} {ms : List (Service × Method)}
    {c : Clash} (h : Refuses limit path ms c) :
    ∃ sm sm', [sm, sm'].Sublist ms ∧ Collide limit sm sm' := by
  obtain ⟨before, sm, after, rfl, -, ⟨sm', hsm', hcollide⟩, -⟩ := h
  exact ⟨sm', sm, pair_sublist hsm', hcollide⟩

theorem filled_of_holds {g : Generator} {f : SourceFile} {c : Catalog}
    (h : c.Holds (f.services.map (·.name)) (g.entries f)) : Filled g f c := by
  rw [← unaryEntries_declared] at h
  have hentry : ∀ sm ∈ unary (declared f),
      g.entry sm.1.name sm.2 ∈ g.unaryEntries (declared f) := fun _ => List.mem_map_of_mem
  have htools : ∀ sm ∈ unary (declared f),
      c.tools.get? (keyOf sm) = some (g.tool sm.2).1 := by
    intro sm hsm
    exact (h.tools _ _).2 ⟨_, hentry sm hsm, rfl, rfl⟩
  constructor
  case keys =>
    have hkeys := h.perm_keys
    unfold unaryEntries at hkeys
    rwa [List.map_map] at hkeys
  case tools => exact fun sm hsm => ⟨_, htools sm hsm, rfl, rfl⟩
  case names =>
    intro n
    rw [h.names]
    constructor
    · rintro ⟨e, he, rfl⟩
      obtain ⟨sm, hsm, rfl⟩ := List.mem_map.1 he
      exact ⟨sm, hsm, rfl⟩
    · rintro ⟨sm, hsm, rfl⟩
      exact ⟨_, hentry sm hsm, rfl⟩
  case services =>
    intro s
    rw [h.services, List.mem_map]
  case methods =>
    intro s ms hs m t
    have hms : c.methods s = ms := by
      unfold Catalog.methods
      rw [hs, Option.getD_some]
    rw [← hms, h.methods]
    constructor
    · rintro ⟨e, he, rfl, rfl, rfl⟩
      obtain ⟨sm, hsm, rfl⟩ := List.mem_map.1 he
      exact ⟨sm, hsm, rfl, rfl, htools sm hsm⟩
    · rintro ⟨sm, hsm, rfl, rfl, ht⟩
      rw [htools sm hsm] at ht
      exact ⟨_, hentry sm hsm, rfl, rfl, Option.some.inj ht⟩

/-- **Requested files.** A requested file with services fails if and only if two of its unary
methods have the same key or give their tools the same name; the error is that of the first method
that collides with one before it. Otherwise there is a catalog, which has the declared services, the
unary methods and nothing else. -/
theorem generate_requested (g : Generator) {f : SourceFile} (hf : f.generate = true)
    (hs : f.services ≠ []) :
    ((∃ c, (g.generate f).result = .error c)
      ↔ ∃ sm sm', [sm, sm'].Sublist (unary (declared f)) ∧ Collide g.nameLimit sm sm') ∧
    (∀ c, (g.generate f).result = .error c →
      Refuses g.nameLimit f.path (unary (declared f)) c) ∧
    ∀ out, (g.generate f).result = .ok out → ∃ a, out = some a ∧ Filled g f a.catalog := by
  rcases generate_cases g hf hs with ⟨c, hc, hfirst⟩ | ⟨catalog, events, ha, hholds⟩
  · rw [← unaryEntries_declared] at hfirst
    have hrefuses : Refuses g.nameLimit f.path (unary (declared f)) c := hfirst.refuses
    rw [hc]
    refine ⟨⟨fun _ => hrefuses.exists_collide, fun _ => ⟨c, rfl⟩⟩, ?_, by simp⟩
    intro c' hc'
    exact Except.error.inj hc' ▸ hrefuses
  · rw [ha]
    refine ⟨⟨by simp, ?_⟩, by simp, ?_⟩
    · rintro ⟨sm, sm', hsub, hcollide⟩
      rw [← unaryEntries_declared] at hholds
      have hdistinct := g.pairwise_unary hholds.distinct
      exact absurd hcollide (List.pairwise_iff_forall_sublist.1 hdistinct hsub)
    · intro out hout
      exact ⟨_, (Except.ok.inj hout).symm, filled_of_holds hholds⟩

/-- Two services with a method each, whose names are joined to one key. -/
def foldedFile : SourceFile :=
  ⟨"folded.proto", "folded", "folded", true,
    [⟨"A_B", "folded.A_B", [⟨"C", "folded.A_B.C", "", "", false, false, ""⟩]⟩,
     ⟨"A", "folded.A", [⟨"B_C", "folded.A.B_C", "", "", false, false, ""⟩]⟩]⟩

theorem generate_requested_foldedFile :
    foldedFile.generate = true ∧ foldedFile.services ≠ [] ∧
      (generate ⟨.empty, fun _ => false, 64⟩ foldedFile).result
        = .error (.duplicateKey "folded.proto" "A_B_C") := by
  have hs : foldedFile.services ≠ [] := by simp [foldedFile]
  refine ⟨rfl, hs, ?_⟩
  obtain ⟨hfails, hfirst, -⟩ :=
    generate_requested ⟨.empty, fun _ => false, 64⟩ (f := foldedFile) rfl hs
  obtain ⟨c, hc⟩ := hfails.2 ⟨_, _, List.Sublist.refl _, .inl rfl⟩
  obtain ⟨before, sm, after, hsplit, -, ⟨sm', hsm', -⟩, rfl⟩ := hfirst c hc
  -- of two methods only the second has one before it
  match before with
  | [] => simp at hsm'
  | [first] =>
    obtain ⟨rfl, rfl, -⟩ := hsplit
    exact hc
  | _ :: _ :: rest =>
    have hlength : 2 = (rest ++ sm :: after).length + 2 := congrArg List.length hsplit
    simp at hlength

end Generator
end McpCatalog
