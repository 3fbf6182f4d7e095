import Mathlib.Data.List.Infix
import McpCatalog.Generation
import McpCatalog.Proofs.Schema.BackReference
/-!
# The events of a generation

The events of a file are those of its methods, in order, up to the first clash.
Whatever happens later, events that were noted stay, in front of those that follow.

Results:
* `eventsOf_addMethod`: the events that a method adds, whether or not its tool clashes.
* `prefix_generate`: when the generation of a file comes to a method, the events so far
  and those of the method stand at the front of all events of the file.
* `recursion_reported`: for a unary method these are the names at which the schema of
  its request is cut, each once and in order.
-/
namespace McpCatalog.Generator

/-! ## The events of a method -/

/-- What is told about a method: that it is passed over, or where its schema is cut. -/
def methodEvents (g : Generator) (file service : String) (m : Method) : List Event :=
  if m.isStreaming then [skipped file service m]
  else (g.tool m).2.map (recursion file service m)

/-- The events up to here, or up to the clash. -/
def eventsOf : Except Failure Progress → List Event
  | .ok p => p.events
  | .error failure => failure.events

theorem eventsOf_addMethod (g : Generator) (file service : String) (p : Progress) (m : Method) :
    eventsOf (g.addMethod file service p m) = p.events ++ g.methodEvents file service m := by
  unfold addMethod methodEvents
  split
  · rfl
  · -- the events are noted before the tool is put into the catalog
    dsimp only
    split <;> rfl

/-! ## Events stay -/

section
variable {α : Type} {step : Progress → α → Except Failure Progress}

/-- What every step keeps of the events holds at the end, whether or not there was a clash. -/
theorem eventsOf_foldlM {P : List Event → Prop}
    (hstep : ∀ p a, P p.events → P (eventsOf (step p a))) (l : List α) (p : Progress)
    (hp : P p.events) : P (eventsOf (l.foldlM step p)) := by
  induction l generalizing p with
  | nil => exact hp
  | cons a l ih =>
    rw [List.foldlM_cons]
    have hfirst := hstep p a hp
    cases h : step p a with
    | error failure =>
      rw [h] at hfirst
      exact hfirst
    | ok p' =>
      rw [h] at hfirst
      exact ih p' hfirst

theorem prefix_foldlM (hstep : ∀ p a, p.events <+: eventsOf (step p a)) (l : List α)
    (p : Progress) : p.events <+: eventsOf (l.foldlM step p) :=
  eventsOf_foldlM (P := (p.events <+: ·)) (fun q a hq => hq.trans (hstep q a)) l p
    (List.prefix_refl _)

/-- What the step at one element notes stays, if the fold comes to it. -/
theorem prefix_foldlM_append (hstep : ∀ p a, p.events <+: eventsOf (step p a)) {l l' : List α}
    {a : α} {p p' : Progress} (hl : l.foldlM step p = .ok p') :
    eventsOf (step p' a) <+: eventsOf ((l ++ a :: l').foldlM step p) := by
  rw [List.foldlM_append, hl]
  show _ <+: eventsOf ((a :: l').foldlM step p')
  rw [List.foldlM_cons]
  cases h : step p' a with
  | error failure => exact List.prefix_refl _
  | ok p'' => exact prefix_foldlM hstep l' p''

end

theorem prefix_addMethod (g : Generator) (file service : String) (p : Progress) (m : Method) :
    p.events <+: eventsOf (g.addMethod file service p m) := by
  rw [eventsOf_addMethod]
  exact List.prefix_append _ _

theorem prefix_addService (g : Generator) (file : String) (p : Progress) (s : Service) :
    p.events <+: eventsOf (g.addService file p s) :=
  prefix_foldlM (g.prefix_addMethod file s.name) s.methods
    { p with catalog := p.catalog.ensureService s.name }

/-- The generation of the file comes to the method of the service with the given progress: no
method before it clashes. -/
def Reaches (g : Generator) (f : SourceFile) (s : Service) (m : Method) (p : Progress) : Prop :=
  f.generate = true ∧ ∃ before after earlier later start,
    f.services = before ++ s :: after ∧ s.methods = earlier ++ m :: later ∧
    before.foldlM (g.addService f.path) .start = .ok start ∧
    earlier.foldlM (g.addMethod f.path s.name)
      { start with catalog := start.catalog.ensureService s.name } = .ok p

theorem prefix_generate {g : Generator} {f : SourceFile} {s : Service} {m : Method} {p : Progress}
    (h : g.Reaches f s m p) :
    eventsOf (g.addMethod f.path s.name p m) <+: (g.generate f).events := by
  obtain ⟨hgenerate, before, after, earlier, later, start, hservices, hmethods, hbefore,
    hearlier⟩ := h
  have hmethod : eventsOf (g.addMethod f.path s.name p m)
      <+: eventsOf (g.addService f.path start s) := by
    rw [addService, hmethods]
    exact prefix_foldlM_append (g.prefix_addMethod f.path s.name) hearlier
  have hservice : eventsOf (g.addService f.path start s)
      <+: eventsOf (f.services.foldlM (g.addService f.path) .start) := by
    rw [hservices]
    exact prefix_foldlM_append (g.prefix_addService f.path) hbefore
  have hfile : eventsOf (f.services.foldlM (g.addService f.path) .start)
      <+: (g.generate f).events := by
    have hne : f.services.isEmpty = false := by simp [hservices]
    unfold generate
    simp only [hgenerate, hne, Bool.not_true, Bool.false_eq_true, if_false]
    cases f.services.foldlM (g.addService f.path) .start with
    | error failure => exact List.prefix_append _ _
    | ok p => exact List.prefix_append _ _
  exact (hmethod.trans hservice).trans hfile

/-! ## Recursive references -/

/-- **Recursive references.** After the schema of a message, a new builder has recorded the names
to which a chain of references returns. When the generation of a file comes to a unary method that
takes the message, it tells exactly these names, each once and in order. -/
theorem recursion_reported (pool : Pool) (required : Requirement) (m₀ : Message) :
    (∀ t, t ∈ ((Builder.new pool required).messageSchema m₀).2.recursiveReferences
      ↔ pool.Returns m₀ t) ∧
    ∀ (g : Generator) (f : SourceFile) (s : Service) (m : Method) (p : Progress),
      g.pool = pool → g.required = required → g.Reaches f s m p → m.isStreaming = false →
      g.request m = m₀ →
      ∃ names : List String, names.Pairwise (· < ·) ∧ (∀ t, t ∈ names ↔ pool.Returns m₀ t) ∧
        eventsOf (g.addMethod f.path s.name p m)
          = p.events ++ names.map (recursion f.path s.name m) ∧
        eventsOf (g.addMethod f.path s.name p m) <+: (g.generate f).events := by
  refine ⟨mem_recursiveReferences_iff pool required m₀, ?_⟩
  rintro g f s m p rfl rfl hreach hunary rfl
  refine ⟨(g.tool m).2, pairwise_recursiveReferences _,
    mem_recursiveReferences_iff g.pool g.required (g.request m), ?_, prefix_generate hreach⟩
  rw [eventsOf_addMethod, methodEvents, hunary]
  rfl

/-- A message that refers to itself. -/
def listNode : Message :=
  ⟨"list.Node", [Field.ofMessage "next" "list.Node"]⟩

/-- A method that takes it. -/
def listMethod : Method :=
  ⟨"Sort", "list.Lists.Sort", "list.Node", "list.Node", false, false, ""⟩

theorem recursion_reported_listMethod :
    recursion "list.proto" "Lists" listMethod "list.Node" ∈
      (generate ⟨Pool.empty.addMessage listNode, fun _ => false, 64⟩
        ⟨"list.proto", "list", "list", true, [⟨"Lists", "list.Lists", [listMethod]⟩]⟩).events := by
  have hrequest : request ⟨Pool.empty.addMessage listNode, fun _ => false, 64⟩ listMethod
      = listNode := by
    simp [request, Pool.message?_addMessage, listMethod, listNode]
  obtain ⟨names, -, hnames, hevents, hprefix⟩ :=
    (recursion_reported (Pool.empty.addMessage listNode) (fun _ => false) listNode).2
      ⟨Pool.empty.addMessage listNode, fun _ => false, 64⟩
      ⟨"list.proto", "list", "list", true, [⟨"Lists", "list.Lists", [listMethod]⟩]⟩
      ⟨"Lists", "list.Lists", [listMethod]⟩ listMethod
      ⟨[], Catalog.empty.ensureService "Lists"⟩ rfl rfl
      ⟨rfl, [], [], [], [], .start, rfl, rfl, rfl, rfl⟩ rfl hrequest
  have hreturns : (Pool.empty.addMessage listNode).Returns listNode "list.Node" := by
    refine ⟨[], .singleton _, by simp, ⟨Field.ofMessage "next" "list.Node", ?_, rfl, rfl, ?_⟩, ?_⟩
    · simp [listNode]
    · decide
    · simp [listNode]
  refine hprefix.subset ?_
  rw [hevents]
  exact List.mem_append_right _ (List.mem_map_of_mem ((hnames "list.Node").2 hreturns))

end McpCatalog.Generator
