import McpCatalog.Proofs.Catalog.Calls
import McpCatalog.Proofs.Event.Sink
import McpCatalog.Proofs.Generation.Events
import McpCatalog.Proofs.Generation.Filling
import McpCatalog.Proofs.Numeral
/-!
# How events are delivered

While a file is gone through, each event is told to a sink at once, and those about methods are also
kept for the artifact. A clash breaks the work off wherever it is; then what was kept is lost, but
what the sink was told stays told.

Results:
* `follows_workMethod`, `follows_workService`: the work follows `Generator.generate` step by step.
* `deliver_eq`: a sink is told of the events of the report, whatever it does with them.
* `tells_told`: what is told about methods, in the words of the events.
* `exists_firstClash`: where a file fails, and what was told up to there.
* `delivered_generate`: what comes out of a file, with what is told about it.
* `delivered_events`: a sink is told this and nothing else, and behind a filter a part of it.
-/
namespace McpCatalog

namespace Generator

/-! ## The work on a file -/

/-- What changes while a file is gone through. -/
structure Desk (σ : Type) where
  /-- The state of the sink. -/
  told : σ
  /-- The events for the artifact. -/
  kept : List Event
  catalog : Catalog

/-- A part of the work on a file, which may be broken off. -/
abbrev Work (σ : Type) := ExceptT Clash (StateM (Desk σ))

section
variable {σ α β : Type}

/-- What comes out of a part of the work, and the desk after it. -/
def Work.on (w : Work σ α) (d : Desk σ) : Except Clash α × Desk σ :=
  (w.run.run d).run

variable (sink : Sink σ)

def tell (e : Event) : Work σ Unit :=
  modify fun d => { d with told := sink.record d.told e }

/-- Tells an event and keeps it. -/
def keep (e : Event) : Work σ Unit := do
  tell sink e
  modify fun d => { d with kept := d.kept ++ [e] }

variable (g : Generator)

def workMethod (file service : String) (m : Method) : Work σ Unit :=
  if m.isStreaming then keep sink (skipped file service m)
  else do
    let (tool, cuts) := g.tool m
    forM (cuts.map (recursion file service m)) (keep sink)
    match (← get).catalog.insert file service m.name tool with
    | .ok catalog => modify fun d => { d with catalog }
    | .error clash => throw clash

def workService (file : String) (s : Service) : Work σ Unit := do
  modify fun d => { d with catalog := d.catalog.ensureService s.name }
  forM s.methods (workMethod sink g file s.name)

def tellSkipped (path reason : String) : Work σ (Option Artifact) := do
  tell sink (.inFile .fileSkipped .info path reason)
  return none

/-- The last event of a file whose tools were generated. -/
def generated (path : String) (count : Nat) : Event :=
  .inFile .fileGenerated .info path ("generated " ++ Numeral.decimal count ++ " tool(s)")

/-- The last event of a file that failed. -/
def failed (path : String) (clash : Clash) : Event :=
  .inFile .fileFailed .error path clash.message

def workFile (f : SourceFile) : Work σ (Option Artifact) :=
  if !f.generate then tellSkipped sink f.path "file not requested for generation"
  else if f.services.isEmpty then tellSkipped sink f.path "file declares no services"
  else do
    try forM f.services (workService sink g f.path)
    catch clash =>
      tell sink (failed f.path clash)
      throw clash
    keep sink (generated f.path (← get).catalog.size)
    let d ← get
    return some ⟨f.package, f.path, f.moduleName, d.catalog, d.kept⟩

/-- What comes out of a file, and the state of the sink after it. -/
def deliver (f : SourceFile) (start : σ) : Except Clash (Option Artifact) × σ :=
  let answer := (workFile sink g f).on ⟨start, [], .empty⟩
  (answer.1, answer.2.told)

/-! ## Parts of the work -/

namespace Work

@[simp] theorem on_pure (a : α) (d : Desk σ) : Work.on (pure a) d = (.ok a, d) := rfl

@[simp] theorem on_get (d : Desk σ) : Work.on get d = (.ok d, d) := rfl

@[simp] theorem on_modify (f : Desk σ → Desk σ) (d : Desk σ) :
    Work.on (modify f) d = (.ok (), f d) := rfl

@[simp] theorem on_throw (clash : Clash) (d : Desk σ) :
    Work.on (throw clash : Work σ α) d = (.error clash, d) := rfl

@[simp] theorem on_bind (w : Work σ α) (next : α → Work σ β) (d : Desk σ) :
    (w >>= next).on d =
      match w.on d with
      | (.ok a, d') => (next a).on d'
      | (.error clash, d') => (.error clash, d') := by
  unfold Work.on
  rw [ExceptT.run_bind, StateT.run_bind]
  rcases h : w.run.run d with ⟨answer, d'⟩
  cases answer <;> rfl

@[simp] theorem on_tryCatch (w : Work σ α) (handle : Clash → Work σ α) (d : Desk σ) :
    (tryCatch w handle).on d =
      match w.on d with
      | (.ok a, d') => (.ok a, d')
      | (.error clash, d') => (handle clash).on d' := by
  unfold Work.on
  show ((ExceptT.tryCatch w handle).run.run d).run = _
  unfold ExceptT.tryCatch
  rw [ExceptT.run_mk, StateT.run_bind]
  rcases h : w.run.run d with ⟨answer, d'⟩
  have hrun : StateT.run w d = (answer, d') := h
  rw [hrun]
  cases answer <;> rfl

end Work

/-! ## The work follows the report -/

/-- The desk when the generation has come to some progress. -/
def Progress.desk (start : σ) (p : Progress) : Desk σ :=
  ⟨sink.recordAll start p.events, p.events, p.catalog⟩

/-- The work has come as far as the generation. After a clash only the sink counts. -/
inductive Follows (start : σ) : Except Clash Unit × Desk σ → Except Failure Progress → Prop
  | ok (p : Progress) : Follows start (.ok (), p.desk sink start) (.ok p)
  | error (failure : Failure) (d : Desk σ) (h : d.told = sink.recordAll start failure.events) :
    Follows start (.error failure.clash, d) (.error failure)

variable {sink} {g} {start : σ}

theorem keep_on (e : Event) (p : Progress) :
    (keep sink e).on (p.desk sink start) = (.ok (), (p.note [e]).desk sink start) := by
  simp [keep, tell, Progress.desk, Progress.note, Sink.recordAll_append, Sink.recordAll_cons,
    Sink.recordAll_nil]

theorem forM_keep_on (es : List Event) (p : Progress) :
    Work.on (forM es (keep sink)) (p.desk sink start) = (.ok (), (p.note es).desk sink start) := by
  induction es generalizing p with
  | nil => simp [Progress.note]
  | cons e es ih =>
    rw [List.forM_cons, Work.on_bind, keep_on]
    dsimp only
    rw [ih]
    simp [Progress.note]

theorem Follows.forM {work : α → Work σ Unit} {step : Progress → α → Except Failure Progress}
    (hstep : ∀ p a, Follows sink start ((work a).on (p.desk sink start)) (step p a)) (l : List α)
    (p : Progress) :
    Follows sink start (Work.on (ForM.forM l work) (p.desk sink start)) (l.foldlM step p) := by
  induction l generalizing p with
  | nil => exact .ok p
  | cons a l ih =>
    have hfirst := hstep p a
    rw [List.forM_cons, Work.on_bind, List.foldlM_cons]
    generalize (work a).on (p.desk sink start) = answer at hfirst ⊢
    generalize step p a = next at hfirst ⊢
    cases hfirst with
    | ok p' => exact ih p'
    | error failure d h => exact .error failure d h

theorem follows_workMethod (file service : String) (p : Progress) (m : Method) :
    Follows sink start ((workMethod sink g file service m).on (p.desk sink start))
      (g.addMethod file service p m) := by
  unfold workMethod addMethod
  split
  · rw [keep_on]
    exact .ok _
  · simp only [Work.on_bind, forM_keep_on, Work.on_get]
    have hdesk : ((p.note ((g.tool m).2.map (recursion file service m))).desk sink start).catalog
        = p.catalog := rfl
    have hnote : (p.note ((g.tool m).2.map (recursion file service m))).catalog = p.catalog := rfl
    rw [hdesk, hnote]
    cases p.catalog.insert file service m.name (g.tool m).1 with
    | ok catalog => exact .ok ⟨_, catalog⟩
    | error clash => exact .error ⟨_, clash⟩ _ rfl

theorem follows_workService (file : String) (p : Progress) (s : Service) :
    Follows sink start ((workService sink g file s).on (p.desk sink start))
      (g.addService file p s) := by
  unfold workService addService
  rw [Work.on_bind, Work.on_modify]
  exact Follows.forM (follows_workMethod file s.name) s.methods
    { p with catalog := p.catalog.ensureService s.name }

theorem deliver_eq (f : SourceFile) (start : σ) :
    deliver sink g f start
      = ((g.generate f).result, sink.recordAll start (g.generate f).events) := by
  unfold deliver workFile generate
  split
  · rfl
  split
  · rfl
  · have hfollows : Follows sink start
        (Work.on (ForM.forM f.services (workService sink g f.path))
          (Progress.start.desk sink start))
        (f.services.foldlM (g.addService f.path) .start) :=
      Follows.forM (follows_workService f.path) f.services .start
    have hdesk : (⟨start, [], .empty⟩ : Desk σ) = Progress.start.desk sink start := rfl
    simp only [Work.on_bind, Work.on_tryCatch]
    rw [hdesk]
    generalize Work.on (ForM.forM f.services (workService sink g f.path))
      (Progress.start.desk sink start) = answer at hfollows ⊢
    generalize f.services.foldlM (g.addService f.path) .start = next at hfollows ⊢
    cases hfollows with
    | error failure d h =>
      simp [tell, h, failed, Sink.recordAll_append, Sink.recordAll_cons, Sink.recordAll_nil]
    | ok p =>
      simp only [Work.on_get, keep_on]
      rfl

end

/-! ## The methods that were gone through -/

open Catalog (Entry)

section
variable (g : Generator)

/-- What is told about some methods of a file. -/
def told (path : String) (ms : List (Service × Method)) : List Event :=
  ms.flatMap fun sm => g.methodEvents path sm.1.name sm.2

theorem told_append (path : String) (ms ms' : List (Service × Method)) :
    g.told path (ms ++ ms') = g.told path ms ++ g.told path ms' :=
  List.flatMap_append

theorem told_service (path : String) (s : Service) (ms : List Method) :
    g.told path (ms.map fun m => (s, m)) = ms.flatMap (g.methodEvents path s.name) :=
  List.flatMap_map ..

end

section
variable {α : Type} {step : Progress → α → Except Failure Progress}

/-- If no step fails, the events of all of them are noted. -/
theorem events_of_foldlM {events : α → List Event}
    (hstep : ∀ p a p', step p a = .ok p' → p'.events = p.events ++ events a) {l : List α}
    {p p' : Progress} (h : l.foldlM step p = .ok p') :
    p'.events = p.events ++ l.flatMap events := by
  induction l generalizing p with
  | nil =>
    cases h
    simp
  | cons a l ih =>
    rw [List.foldlM_cons] at h
    cases hfirst : step p a with
    | error failure =>
      rw [hfirst] at h
      cases h
    | ok q =>
      rw [hfirst] at h
      rw [ih h, hstep p a q hfirst, List.flatMap_cons, List.append_assoc]

/-- What fails, fails at one element, behind others that did not. -/
theorem exists_of_foldlM_error {l : List α} {p : Progress} {failure : Failure}
    (h : l.foldlM step p = .error failure) :
    ∃ before a after p', l = before ++ a :: after ∧ before.foldlM step p = .ok p' ∧
      step p' a = .error failure := by
  induction l generalizing p with
  | nil => cases h
  | cons a l ih =>
    rw [List.foldlM_cons] at h
    cases hfirst : step p a with
    | error failure' =>
      rw [hfirst] at h
      exact ⟨[], a, l, p, rfl, rfl, hfirst.trans h⟩
    | ok q =>
      rw [hfirst] at h
      obtain ⟨before, a', after, p', rfl, hbefore, herror⟩ := ih h
      refine ⟨a :: before, a', after, p', rfl, ?_, herror⟩
      rw [List.foldlM_cons, hfirst]
      exact hbefore

end

section
variable {g : Generator} {file : String}

theorem events_of_addMethod {service : String} {p p' : Progress} {m : Method}
    (h : g.addMethod file service p m = .ok p') :
    p'.events = p.events ++ g.methodEvents file service m := by
  have hevents := g.eventsOf_addMethod file service p m
  rwa [h] at hevents

theorem events_of_addMethods {service : String} {ms : List Method} {p p' : Progress}
    (h : ms.foldlM (g.addMethod file service) p = .ok p') :
    p'.events = p.events ++ ms.flatMap (g.methodEvents file service) := by
  have hstep : ∀ p m p', g.addMethod file service p m = .ok p' →
      p'.events = p.events ++ g.methodEvents file service m := fun _ _ _ => events_of_addMethod
  exact events_of_foldlM hstep h

theorem events_of_addService {p p' : Progress} {s : Service} (h : g.addService file p s = .ok p') :
    p'.events = p.events ++ g.told file (s.methods.map fun m => (s, m)) := by
  unfold addService at h
  rw [told_service, events_of_addMethods h]

theorem events_of_addServices {ss : List Service} {p p' : Progress}
    (h : ss.foldlM (g.addService file) p = .ok p') :
    p'.events = p.events ++ g.told file (ss.flatMap fun s => s.methods.map fun m => (s, m)) := by
  have hstep : ∀ p s p', g.addService file p s = .ok p' →
      p'.events = p.events ++ g.told file (s.methods.map fun m => (s, m)) :=
    fun _ _ _ => events_of_addService
  rw [events_of_foldlM hstep h]
  unfold told
  rw [List.flatMap_assoc]

/-- Only a unary method fails, and only if it clashes with one before it. -/
theorem clash_of_addMethod {service : String} {services : List String} {es : List Entry}
    {p : Progress} {m : Method} {failure : Failure} (hp : p.catalog.Holds services es)
    (h : g.addMethod file service p m = .error failure) :
    m.isStreaming = false ∧ (∃ e ∈ es, e.Clashes (g.entry service m)) ∧
      failure.clash = (g.entry service m).clash file es := by
  unfold addMethod at h
  split at h
  · cases h
  · next hunary =>
    simp only [Progress.note] at h
    by_cases hc : ∃ e ∈ es, e.Clashes (g.entry service m)
    · obtain ⟨e, he, hclash⟩ := hc
      have hinsert : p.catalog.insert file service m.name (g.tool m).1 = .error _ :=
        hp.insert_eq_clash he hclash file
      rw [hinsert] at h
      cases h
      exact ⟨by simpa using hunary, ⟨e, he, hclash⟩, rfl⟩
    · have hnew : ∀ e ∈ es, ¬ e.Clashes (g.entry service m) := by simpa using hc
      have hinsert : p.catalog.insert file service m.name (g.tool m).1 = .ok _ :=
        hp.insert_eq_add hnew file
      rw [hinsert] at h
      cases h

end

/-! ## What is told about methods -/

/-- What is told about some methods, one after the other: that a method is streaming, or else to
which names the message that it takes comes back. -/
inductive Tells (pool : Pool) (path : String) : List (Service × Method) → List Event → Prop
  | nil : Tells pool path [] []
  | streaming {s : Service} {m : Method} {ms : List (Service × Method)} {events : List Event}
    (hm : m.clientStreaming = true ∨ m.serverStreaming = true) (h : Tells pool path ms events) :
    Tells pool path ((s, m) :: ms)
      (⟨.methodSkipped, .info, path, some s.name, some m.name,
        "streaming methods are not exposed as tools"⟩ :: events)
  | unary {s : Service} {m : Method} {ms : List (Service × Method)} {events : List Event}
    {names : List String} (hm : m.clientStreaming = false ∧ m.serverStreaming = false)
    (hordered : names.Pairwise (· < ·))
    (hnames : ∀ t, t ∈ names ↔
      pool.Returns ((pool.message? m.inputType).getD ⟨m.inputType, []⟩) t)
    (h : Tells pool path ms events) :
    Tells pool path ((s, m) :: ms)
      (names.map (fun t => ⟨.recursiveReference, .info, path, some s.name, some m.name,
        "recursive reference to " ++ t ++ " emitted as an open schema"⟩) ++ events)

theorem tells_told (g : Generator) (path : String) (ms : List (Service × Method)) :
    Tells g.pool path ms (g.told path ms) := by
  induction ms with
  | nil => exact .nil
  | cons sm ms ih =>
    obtain ⟨s, m⟩ := sm
    have htold : g.told path ((s, m) :: ms) = g.methodEvents path s.name m ++ g.told path ms :=
      List.flatMap_cons
    rw [htold, methodEvents]
    by_cases hm : m.isStreaming = true
    · rw [if_pos hm]
      exact .streaming (Bool.or_eq_true_iff.1 hm) ih
    · rw [if_neg hm]
      rw [Bool.not_eq_true] at hm
      exact .unary (Bool.or_eq_false_iff.1 hm) (pairwise_recursiveReferences _)
        (mem_recursiveReferences_iff g.pool g.required (g.request m)) ih

/-! ## What a file is told to be -/

/-- The text of a refusal. -/
def refusalText (limit : Nat) (path : String) (before : List (Service × Method))
    (sm : Service × Method) : String :=
  if keyOf sm ∈ before.map keyOf then path ++ ": duplicate tool key " ++ keyOf sm
  else path ++ ": duplicate tool name " ++ nameOf limit sm

theorem message_refusal (limit : Nat) (path : String) (before : List (Service × Method))
    (sm : Service × Method) :
    (refusal limit path before sm).message = refusalText limit path before sm := by
  unfold refusal refusalText
  split <;> rfl

/-- What comes out of a file, with what is told about it. -/
inductive Delivered (g : Generator) (f : SourceFile) :
    Except Clash (Option Artifact) → List Event → Prop
  | notRequested (h : f.generate = false) : Delivered g f (.ok none)
      [⟨.fileSkipped, .info, f.path, none, none, "file not requested for generation"⟩]
  | noServices (h : f.generate = true) (hs : f.services = []) : Delivered g f (.ok none)
      [⟨.fileSkipped, .info, f.path, none, none, "file declares no services"⟩]
  /-- No two unary methods collide: each has become a tool. -/
  | generated (h : f.generate = true) (hs : f.services ≠ []) (a : Artifact) {told : List Event}
    (hdistinct : (unary (declared f)).Pairwise fun sm sm' => ¬ Collide g.nameLimit sm sm')
    (hcount : a.catalog.tools.keys.length = (unary (declared f)).length)
    (htold : Tells g.pool f.path (declared f) told)
    (hevents : a.events = told ++ [⟨.fileGenerated, .info, f.path, none, none,
      "generated " ++ toString a.catalog.tools.keys.length ++ " tool(s)"⟩]) :
    Delivered g f (.ok (some a)) a.events
  /-- The method `sm` is the first one that collides with one before it. -/
  | failed (h : f.generate = true) {before after : List (Service × Method)} {sm : Service × Method}
    {c : Clash} {told : List Event} (hsplit : declared f = before ++ sm :: after)
    (hunary : sm.2.clientStreaming = false ∧ sm.2.serverStreaming = false)
    (hdistinct : (unary before).Pairwise fun a b => ¬ Collide g.nameLimit a b)
    (hcollide : ∃ sm' ∈ unary before, Collide g.nameLimit sm' sm)
    (hc : c = refusal g.nameLimit f.path (unary before) sm)
    (hmessage : c.message = refusalText g.nameLimit f.path (unary before) sm)
    (htold : Tells g.pool f.path (before ++ [sm]) told) :
    Delivered g f (.error c) (told ++ [⟨.fileFailed, .error, f.path, none, none, c.message⟩])

theorem exists_firstClash {g : Generator} {f : SourceFile} {failure : Failure}
    (hfold : f.services.foldlM (g.addService f.path) .start = .error failure) :
    ∃ before after sm, declared f = before ++ sm :: after ∧ sm.2.isStreaming = false ∧
      (unary before).Pairwise (fun a b => ¬ Collide g.nameLimit a b) ∧
      (∃ sm' ∈ unary before, Collide g.nameLimit sm' sm) ∧
      failure.clash = refusal g.nameLimit f.path (unary before) sm ∧
      failure.events = g.told f.path (before ++ [sm]) := by
  obtain ⟨ss, s, ss', start, hservices, hstart, hservice⟩ := exists_of_foldlM_error hfold
  obtain ⟨ms, m, ms', p, hmethods, hp, hmethod⟩ := exists_of_foldlM_error hservice
  let before := (ss.flatMap fun s => s.methods.map fun m => (s, m)) ++ ms.map fun m => (s, m)
  have hsplit : declared f = before ++ (s, m) :: (ms'.map (fun m => (s, m))
      ++ ss'.flatMap fun s => s.methods.map fun m => (s, m)) := by
    simp [declared, hservices, hmethods, before]
  have hreached := reached_addServices g f.path (p := .start) Catalog.holds_empty ss
  rw [hstart] at hreached
  have hholds := reached_addMethods g f.path s.name
    (p := { start with catalog := start.catalog.ensureService s.name })
    (Catalog.Holds.ensureService hreached s.name) (by simp) ms
  rw [hp, ← unaryEntries_services, ← unaryEntries_service, List.nil_append, List.nil_append,
    ← unaryEntries_append] at hholds
  obtain ⟨hunary, ⟨e, he, hclash⟩, hc⟩ := clash_of_addMethod hholds hmethod
  obtain ⟨sm', hsm', rfl⟩ := List.mem_map.1 he
  have hevents : p.events = g.told f.path before := by
    rw [events_of_addMethods hp, events_of_addServices hstart, ← told_service, told_append]
    rfl
  have hlast := g.eventsOf_addMethod f.path s.name p m
  rw [hmethod, hevents] at hlast
  refine ⟨before, _, (s, m), hsplit, hunary, g.pairwise_unary hholds.distinct,
    ⟨sm', hsm', hclash⟩, hc.trans (g.clash_entry f.path (unary before) (s, m)), ?_⟩
  rw [told_append]
  simpa [told, eventsOf] using hlast

theorem delivered_generate (g : Generator) (f : SourceFile) :
    Delivered g f (g.generate f).result (g.generate f).events := by
  cases hf : f.generate with
  | false =>
    rw [generate_of_not_requested g hf]
    exact .notRequested hf
  | true =>
    by_cases hs : f.services = []
    · rw [generate_of_no_services g hf hs]
      exact .noServices hf hs
    · have hne : f.services.isEmpty = false := by simpa using hs
      unfold generate
      simp only [hf, hne, Bool.not_true, Bool.false_eq_true, if_false]
      cases hfold : f.services.foldlM (g.addService f.path) .start with
      | error failure =>
        obtain ⟨before, after, sm, hsplit, hunary, hdistinct, hcollide, hc, hevents⟩ :=
          exists_firstClash hfold
        dsimp only
        rw [hevents]
        exact .failed hf hsplit (Bool.or_eq_false_iff.1 hunary) hdistinct hcollide hc
          (by rw [hc, message_refusal]) (tells_told g f.path (before ++ [sm]))
      | ok p =>
        have hevents : p.events = g.told f.path (declared f) := events_of_addServices hfold
        have hreached := reached_addServices g f.path (p := .start) Catalog.holds_empty f.services
        rw [hfold, ← unaryEntries_services, List.nil_append, List.nil_append] at hreached
        have hholds : p.catalog.Holds _ (g.unaryEntries (declared f)) := hreached
        have hcount : p.catalog.tools.keys.length = (unary (declared f)).length := by
          rw [hholds.perm_keys.length_eq, List.length_map, unaryEntries, List.length_map]
        have hsize : p.catalog.size = p.catalog.tools.keys.length := by
          simp [Catalog.size, Dict.size, Dict.keys]
        refine .generated hf hs ⟨f.package, f.path, f.moduleName, p.catalog, _⟩
          (g.pairwise_unary hholds.distinct) hcount (tells_told g f.path (declared f)) ?_
        rw [hevents, hsize, Numeral.decimal_natCast]
        rfl

/-- **Delivery of events.** About a file that is passed over, a sink is told this and nothing else.
About another one it is told, method by method in the order of declaration, which ones are streaming
and to which names the messages of the others come back, up to the first method that collides with
one before it, and then why it is refused; if there is none, of the number of tools, and the
artifact keeps all that was told. Behind a filter, a sink is told of the events that pass it, in the
same order. -/
theorem delivered_events (g : Generator) (f : SourceFile) :
    Delivered g f (g.generate f).result (g.generate f).events ∧
    ∀ (σ : Type) (sink : Sink σ) (start : σ),
      deliver sink g f start
        = ((g.generate f).result, sink.recordAll start (g.generate f).events) ∧
      ∀ level, deliver (sink.above level) g f start
        = ((g.generate f).result, sink.recordAll start
          ((g.generate f).events.filter fun e => decide (e.level ∈ level.onwards))) := by
  refine ⟨delivered_generate g f, ?_⟩
  intro σ sink start
  refine ⟨deliver_eq f start, fun level => ?_⟩
  rw [deliver_eq, Sink.recordAll_above, Event.atLeast_eq]

/-- A streaming method. -/
def watchMethod : Method :=
  ⟨"Watch", "list.Lists.Watch", "list.Node", "list.Node", false, true, ""⟩

/-- A service that stands in a file twice. -/
def repeatedFile : SourceFile :=
  ⟨"list.proto", "list", "list", true,
    List.replicate 2 ⟨"Lists", "list.Lists", [watchMethod, listMethod]⟩⟩

/-- What generates its tools: the message of a method refers to itself. -/
def listGenerator : Generator :=
  ⟨Pool.empty.addMessage listNode, fun _ => false, 64⟩

theorem delivered_events_repeatedFile :
    (deliver .list listGenerator repeatedFile []).2.map (fun e => (e.kind, e.method))
      = [(.methodSkipped, some "Watch"), (.recursiveReference, some "Sort"),
        (.methodSkipped, some "Watch"), (.recursiveReference, some "Sort"), (.fileFailed, none)] ∧
    deliver (Sink.list.above .warning) listGenerator repeatedFile []
      = (.error (.duplicateKey "list.proto" "Lists_Sort"),
        [⟨.fileFailed, .error, "list.proto", none, none,
          "list.proto: duplicate tool key Lists_Sort"⟩]) := by
  obtain ⟨-, hdeliver⟩ := delivered_events listGenerator repeatedFile
  have hevents : (listGenerator.generate repeatedFile).events.map (fun e => (e.kind, e.method))
      = [(.methodSkipped, some "Watch"), (.recursiveReference, some "Sort"),
        (.methodSkipped, some "Watch"), (.recursiveReference, some "Sort"),
        (.fileFailed, none)] := by
    decide +kernel
  have hpassing : (listGenerator.generate repeatedFile).events.filter
      (fun e => decide (e.level ∈ Level.onwards .warning))
        = [⟨.fileFailed, .error, "list.proto", none, none,
          "list.proto: duplicate tool key Lists_Sort"⟩] := by
    decide +kernel
  constructor
  · rw [(hdeliver _ .list []).1, Sink.recordAll_list]
    exact hevents
  · rw [(hdeliver _ .list []).2 .warning, Sink.recordAll_list, hpassing]
    rfl

end Generator
end McpCatalog
