import McpCatalog.Proofs.Generation.Events
import McpCatalog.Proofs.Generation.Isolation
import McpCatalog.Proofs.Render.Module
/-!
# What is told about files

The last event of the generation of a file tells what became of it: it was passed over, it failed,
or its tools were generated. What comes before is about its methods. If the tools are then not
written, since two names are folded into one identifier, another event tells that the file failed;
the one before it has been delivered already.

Results:
* `eventsOf_quiet`: while methods are added, nothing tells what becomes of the file.
* `outcomes_generate`, `outcomes_file`: what is told about a file by its generation and by the pass.
* `told_eq`: what all events of a run tell about a file, if files have different paths.
* `toldOnce_iff`: a file has one outcome, which is the right one, unless its tools are not written.
-/
namespace McpCatalog

/-- The event tells what became of a file. -/
def EventKind.isOutcome : EventKind → Bool
  | fileGenerated | fileSkipped | fileFailed => true
  | methodSkipped | toolSkipped | recursiveReference => false

/-- What some events tell about the file at a path. -/
def Event.outcomes (path : String) (events : List Event) : List EventKind :=
  (events.filter fun e => e.file == path && e.kind.isOutcome).map (·.kind)

namespace Event

theorem outcomes_append (path : String) (es es' : List Event) :
    outcomes path (es ++ es') = outcomes path es ++ outcomes path es' := by
  unfold outcomes
  rw [List.filter_append, List.map_append]

theorem outcomes_singleton {path : String} {e : Event} (hfile : e.file = path)
    (hkind : e.kind.isOutcome = true) : outcomes path [e] = [e.kind] := by
  unfold outcomes
  rw [List.filter_singleton]
  simp [hfile, hkind]

/-- The events are about the file at the path, but do not tell what becomes of it. -/
def Quiet (path : String) (events : List Event) : Prop :=
  ∀ e ∈ events, e.file = path ∧ e.kind.isOutcome = false

theorem Quiet.append {path : String} {es es' : List Event} (h : Quiet path es)
    (h' : Quiet path es') : Quiet path (es ++ es') := by
  intro e he
  cases List.mem_append.1 he with
  | inl he => exact h e he
  | inr he => exact h' e he

theorem Quiet.outcomes_eq {path : String} {es : List Event} (h : Quiet path es) :
    outcomes path es = [] := by
  unfold outcomes
  rw [List.map_eq_nil_iff, List.filter_eq_nil_iff]
  intro e he
  simp [(h e he).2]

theorem outcomes_of_other {path : String} {es : List Event} (h : ∀ e ∈ es, e.file ≠ path) :
    outcomes path es = [] := by
  unfold outcomes
  rw [List.map_eq_nil_iff, List.filter_eq_nil_iff]
  intro e he
  simp [h e he]

end Event

/-! ## Generation -/

namespace Generator

open Event (Quiet outcomes)

theorem quiet_methodEvents (g : Generator) (file service : String) (m : Method) :
    Quiet file (g.methodEvents file service m) := by
  unfold methodEvents
  intro e he
  split at he
  · rw [List.mem_singleton.1 he]
    exact ⟨rfl, rfl⟩
  · obtain ⟨t, -, rfl⟩ := List.mem_map.1 he
    exact ⟨rfl, rfl⟩

theorem quiet_addService (g : Generator) {file : String} {p : Progress} (hp : Quiet file p.events)
    (s : Service) : Quiet file (eventsOf (g.addService file p s)) := by
  unfold addService
  refine eventsOf_foldlM (fun q m hq => ?_) s.methods { p with catalog := _ } hp
  rw [eventsOf_addMethod]
  exact hq.append (g.quiet_methodEvents file s.name m)

theorem eventsOf_quiet (g : Generator) (file : String) (ss : List Service) :
    Quiet file (eventsOf (ss.foldlM (g.addService file) .start)) :=
  eventsOf_foldlM (fun _ s hp => g.quiet_addService hp s) ss .start (List.forall_mem_nil _)

/-- How a file is spoken of, by what came out of it. -/
def outcomeOf : Except Clash (Option Artifact) → EventKind
  | .error _ => .fileFailed
  | .ok none => .fileSkipped
  | .ok (some _) => .fileGenerated

theorem isOutcome_outcomeOf (result : Except Clash (Option Artifact)) :
    (outcomeOf result).isOutcome = true := by
  cases result with
  | error clash => rfl
  | ok a => cases a <;> rfl

/-- The events of a file end with the one that tells what became of it. -/
theorem events_generate (g : Generator) (f : SourceFile) :
    ∃ before last, (g.generate f).events = before ++ [last] ∧ Quiet f.path before ∧
      last.file = f.path ∧ last.kind = outcomeOf (g.generate f).result := by
  have hquiet := g.eventsOf_quiet f.path f.services
  unfold generate
  split
  · exact ⟨[], _, rfl, List.forall_mem_nil _, rfl, rfl⟩
  · split
    · exact ⟨[], _, rfl, List.forall_mem_nil _, rfl, rfl⟩
    · cases hfold : f.services.foldlM (g.addService f.path) .start with
      | error failure =>
        rw [hfold] at hquiet
        exact ⟨_, _, rfl, hquiet, rfl, rfl⟩
      | ok p =>
        rw [hfold] at hquiet
        exact ⟨_, _, rfl, hquiet, rfl, rfl⟩

theorem outcomes_generate (g : Generator) (f : SourceFile) :
    outcomes f.path (g.generate f).events = [outcomeOf (g.generate f).result] := by
  obtain ⟨before, last, hevents, hquiet, hfile, hkind⟩ := g.events_generate f
  have houtcome : last.kind.isOutcome = true := by
    rw [hkind]
    exact isOutcome_outcomeOf _
  rw [hevents, Event.outcomes_append, hquiet.outcomes_eq, List.nil_append,
    Event.outcomes_singleton hfile houtcome, hkind]

theorem file_of_mem_generate {g : Generator} {f : SourceFile} {e : Event}
    (he : e ∈ (g.generate f).events) : e.file = f.path := by
  obtain ⟨before, last, hevents, hquiet, hfile, -⟩ := g.events_generate f
  rw [hevents, List.mem_append, List.mem_singleton] at he
  cases he with
  | inl he => exact (hquiet e he).1
  | inr he =>
    rw [he]
    exact hfile

end Generator

/-! ## Passes -/

theorem Render.output_eq_error_iff {s : Settings} {a : Artifact} :
    (∃ c, output s a = .error c) ↔ s.format = .rust ∧
      (Folds Identifier.constant a.catalog.tools.keys ∨
        Folds Identifier.moduleName a.catalog.services.keys) := by
  rw [← rustText_eq_error_iff]
  unfold output content
  cases s.format with
  | json => simp [Except.map]
  | rust => cases rustText a <;> simp [Except.map]

/-- How a file is spoken of, by what it contributes. -/
def Contribution.outcome : Contribution → EventKind
  | output _ => .fileGenerated
  | failure _ => .fileFailed
  | nothing => .fileSkipped

namespace Pass

variable {g : Generator} {s : Settings} {f : SourceFile}

/-- The tools of the file were generated, but as a Rust module they are not written, since two names
are folded into one identifier. -/
def Unwritten (g : Generator) (s : Settings) (f : SourceFile) : Prop :=
  ∃ a, (g.generate f).result = .ok (some a) ∧ s.format = .rust ∧
    (Render.Folds Identifier.constant a.catalog.tools.keys ∨
      Render.Folds Identifier.moduleName a.catalog.services.keys)

theorem file_of_mem_file {e : Event} (he : e ∈ (file g s f).events) : e.file = f.path := by
  unfold file at he
  dsimp only at he
  split at he
  · exact Generator.file_of_mem_generate he
  · exact Generator.file_of_mem_generate he
  · split at he
    · exact Generator.file_of_mem_generate he
    · rw [List.mem_append, List.mem_singleton] at he
      cases he with
      | inl he => exact Generator.file_of_mem_generate he
      | inr he =>
        rw [he]
        rfl

/-- A file whose tools are not written is told to be generated and to have failed; of another file
the outcome is told once. -/
theorem outcomes_file (g : Generator) (s : Settings) (f : SourceFile) :
    Unwritten g s f ∧ (∃ line, (file g s f).contribution = .failure line) ∧
      Event.outcomes f.path (file g s f).events = [.fileGenerated, .fileFailed] ∨
    ¬ Unwritten g s f ∧
      Event.outcomes f.path (file g s f).events = [(file g s f).contribution.outcome] := by
  have hgenerate := g.outcomes_generate f
  unfold file
  dsimp only
  split
  case h_1 clash hresult =>
    rw [hresult] at hgenerate
    refine .inr ⟨?_, hgenerate⟩
    intro ⟨a, ha, _⟩
    rw [hresult] at ha
    cases ha
  case h_2 hresult =>
    rw [hresult] at hgenerate
    refine .inr ⟨?_, hgenerate⟩
    intro ⟨a, ha, _⟩
    rw [hresult] at ha
    cases ha
  case h_3 a hresult =>
    rw [hresult] at hgenerate
    split
    case h_1 output houtput =>
      refine .inr ⟨?_, hgenerate⟩
      intro ⟨a', ha', hfolds⟩
      rw [hresult] at ha'
      cases ha'
      obtain ⟨c, hc⟩ := Render.output_eq_error_iff.2 hfolds
      rw [houtput] at hc
      cases hc
    case h_2 c houtput =>
      have hfolds := Render.output_eq_error_iff.1 ⟨c, houtput⟩
      have hfailed : Event.outcomes f.path [notRendered f.path c] = [.fileFailed] :=
        Event.outcomes_singleton rfl rfl
      refine .inl ⟨⟨a, hresult, hfolds⟩, ⟨_, rfl⟩, ?_⟩
      rw [Event.outcomes_append, hgenerate, hfailed]
      rfl

end Pass

/-! ## Runs -/

namespace Plugin

/-- The events of a run, in the order in which they are delivered. -/
def events (s : Settings) (r : Request) : List Event :=
  (Pass.run s (Corpus.ofRequest r)).events

/-- What the events of a run tell about a file. -/
def told (s : Settings) (r : Request) (f : FileDecl) : List EventKind :=
  Event.outcomes f.path (events s r)

/-- The tools of a file of a request were generated, but not written. -/
def Unwritten (s : Settings) (r : Request) (f : FileDecl) : Prop :=
  Pass.Unwritten (Pass.generator s (Corpus.ofRequest r)) s (f.toSource r.filesToGenerate)

/-- The outcome of the file is told once. It is told to be generated if and only if the response has
an output for it, and to have failed if and only if the response has an error line for it. -/
def ToldOnce (s : Settings) (r : Request) (f : FileDecl) : Prop :=
  ∃ kind, told s r f = [kind] ∧
    (kind = .fileGenerated ↔ ∃ o, contribution s r f = .output o) ∧
    (kind = .fileFailed ↔ ∃ line, contribution s r f = .failure line)

variable {s : Settings} {r : Request} {f : FileDecl}

/-- Only the events of a file speak of it, if no other file has its path. -/
theorem told_eq (hpaths : (r.files.map (·.path)).Nodup) (hf : f ∈ r.files) :
    told s r f = Event.outcomes f.path (Pass.file (Pass.generator s (Corpus.ofRequest r)) s
      (f.toSource r.filesToGenerate)).events := by
  let eventsOf (f : FileDecl) : List Event := (Pass.file (Pass.generator s (Corpus.ofRequest r)) s
    (f.toSource r.filesToGenerate)).events
  have hevents : events s r = r.files.flatMap eventsOf := by
    simp [events, Pass.events, Pass.run, Corpus.ofRequest, List.flatMap_map, eventsOf]
  have hothers : ∀ fs : List FileDecl, (∀ f' ∈ fs, f'.path ≠ f.path) →
      Event.outcomes f.path (fs.flatMap eventsOf) = [] := by
    intro fs hfs
    apply Event.outcomes_of_other
    intro e he
    obtain ⟨f', hf', he⟩ := List.mem_flatMap.1 he
    rw [Pass.file_of_mem_file he]
    exact hfs f' hf'
  obtain ⟨before, after, hsplit⟩ := List.append_of_mem hf
  rw [hsplit, List.map_append, List.map_cons, List.nodup_middle, List.nodup_cons,
    List.mem_append, not_or, List.mem_map, List.mem_map] at hpaths
  obtain ⟨⟨hbefore, hafter⟩, -⟩ := hpaths
  unfold told
  rw [hevents, hsplit, List.flatMap_append, List.flatMap_cons, Event.outcomes_append,
    Event.outcomes_append, hothers before fun f' hf' heq => hbefore ⟨f', hf', heq⟩,
    hothers after fun f' hf' heq => hafter ⟨f', hf', heq⟩, List.nil_append, List.append_nil]

theorem toldOnce_of_outcome (h : told s r f = [(contribution s r f).outcome]) : ToldOnce s r f := by
  refine ⟨_, h, ?_, ?_⟩ <;> cases contribution s r f <;> simp [Contribution.outcome]

/-- The outcome of a file is told once and right, unless its tools are not written; then the file is
told to be generated first, and to have failed afterwards. -/
theorem toldOnce_iff (hpaths : (r.files.map (·.path)).Nodup) (hf : f ∈ r.files) :
    (ToldOnce s r f ↔ ¬ Unwritten s r f) ∧
    (Unwritten s r f → told s r f = [.fileGenerated, .fileFailed] ∧
      ∃ line, contribution s r f = .failure line) := by
  have htold := told_eq (s := s) hpaths hf
  rcases Pass.outcomes_file (Pass.generator s (Corpus.ofRequest r)) s
    (f.toSource r.filesToGenerate) with ⟨hunwritten, hfails, houtcomes⟩ | ⟨hwritten, houtcomes⟩
  · have htwice : told s r f = [.fileGenerated, .fileFailed] := htold.trans houtcomes
    refine ⟨⟨?_, fun h => absurd hunwritten h⟩, fun _ => ⟨htwice, hfails⟩⟩
    intro ⟨kind, hkind, _⟩
    rw [htwice] at hkind
    cases hkind
  · refine ⟨⟨fun _ => hwritten, fun _ => ?_⟩, fun h => absurd h hwritten⟩
    exact toldOnce_of_outcome (htold.trans houtcomes)

/-- **Outcomes of files.** A run over a request whose files have different paths delivers its events
to the standard error stream, by level, and all of them to the file for events. They tell the
outcome of each file once and as it is in the response, except for the files whose tools were
generated but not written: such a file is told to be generated first, and to have failed
afterwards. A run is one that comes to its end: if the entries of maps go in a circle, it never gets
to its first event (`Request.noCircle_iff`), and nothing is said of it here. -/
theorem outcomes_of_run (run : Run s r) (hpaths : (r.files.map (·.path)).Nodup) :
    (∃ o, run.outcome? = .ok o ∧ Assembled s r o.response ∧
      o.shown = shown s.diagnostics (events s r) ∧
      o.log = s.diagnosticsFile.map fun path => (path, events s r)) ∧
    ∀ f ∈ r.files, (ToldOnce s r f ↔ ¬ Unwritten s r f) ∧
      (Unwritten s r f → told s r f = [.fileGenerated, .fileFailed] ∧
        ∃ line, contribution s r f = .failure line) :=
  ⟨⟨_, run.outcome?_eq, response_assembled, rfl, rfl⟩, fun _ hf => toldOnce_iff hpaths hf⟩

/-- A file with two services whose names are folded into one identifier, as are the keys of their
methods. -/
def twinFile : FileDecl :=
  ⟨some "twins.proto", some "demo", [emptyDecl "Query"], [],
    ["FooBar", "Foo_Bar"].map fun name =>
      ⟨some name, [⟨some "Get", some ".demo.Query", some ".demo.Query", none, none⟩]⟩, none⟩

/-- The file is asked for, and there is another one, which is not. -/
def twinRequest : Request :=
  ⟨["twins.proto"], none, [twinFile, greeterFile "other.proto" "Reply" []]⟩

/-- Rust modules, and a file for the events. -/
def loggedRust : Settings :=
  ⟨none, ToolName.defaultLimit, .rust, .off, some "events.jsonl"⟩

theorem fits_twinRequest : twinRequest.Fits := by
  have htwin : FitsInside FileDecl.Fits Request.maxNesting twinFile :=
    fits_plainFile (fun m hm => ⟨"Query", List.mem_singleton.1 hm⟩) rfl rfl
  exact ⟨by simp [twinRequest, htwin, fits_greeterFile], by decide +kernel⟩

def twinRun : Run loggedRust twinRequest where
  files := ⟨fun _ => none, fun _ => true⟩
  bytes := twinRequest.encode
  override := some "format=rust,diagnostics=off,diagnostics_file=events.jsonl"
  decoded := Request.decode?_encode fits_twinRequest
  settled := rfl
  logged := rfl

theorem told_twinFile : told loggedRust twinRequest twinFile = [.fileGenerated, .fileFailed] := by
  decide +kernel

theorem outcomes_of_run_twinRequest :
    (twinRequest.files.map (·.path)).Nodup ∧
    (∃ o, twinRun.outcome? = .ok o ∧ Assembled loggedRust twinRequest o.response ∧
      o.log = some ("events.jsonl", events loggedRust twinRequest)) ∧
    Unwritten loggedRust twinRequest twinFile ∧
    ToldOnce loggedRust twinRequest (greeterFile "other.proto" "Reply" []) := by
  have hpaths : (twinRequest.files.map (·.path)).Nodup := by decide
  obtain ⟨⟨o, ho, hassembled, -, hlog⟩, hfiles⟩ := outcomes_of_run twinRun hpaths
  refine ⟨hpaths, ⟨o, ho, hassembled, hlog⟩, ?_, ?_⟩
  · by_contra hwritten
    obtain ⟨kind, hkind, -⟩ := (hfiles twinFile List.mem_cons_self).1.2 hwritten
    rw [told_twinFile] at hkind
    cases hkind
  · refine (hfiles _ (List.mem_cons_of_mem _ List.mem_cons_self)).1.2 ?_
    rintro ⟨a, ha, -⟩
    cases ha

/-- The run delivers two outcomes of a file, and the first one is not that of the response. -/
theorem not_toldOnce_twinFile :
    (twinRequest.files.map (·.path)).Nodup ∧ twinFile ∈ twinRequest.files ∧
    (∃ o, twinRun.outcome? = .ok o ∧ o.response.outputs = [] ∧
      o.log = some ("events.jsonl", events loggedRust twinRequest)) ∧
    told loggedRust twinRequest twinFile = [.fileGenerated, .fileFailed] ∧
    ¬ ToldOnce loggedRust twinRequest twinFile := by
  refine ⟨by decide, List.mem_cons_self, ⟨_, twinRun.outcome?_eq, by decide +kernel, rfl⟩,
    told_twinFile, ?_⟩
  intro ⟨kind, hkind, _⟩
  rw [told_twinFile] at hkind
  cases hkind

end Plugin
end McpCatalog
