import McpCatalog.Plugin
import McpCatalog.Proofs.Corpus.Content
import McpCatalog.Proofs.Generation.Filling
import McpCatalog.Proofs.Request.Encoding
/-!
# Isolation of files

A run goes over the files of a request one after the other. What a file contributes depends
on the file, on whether tools are generated for it and on the types of the request; where
these are declared, the other files and what became of them leave no trace.

Results:
* `contribution_congr`: a file contributes the same to requests that declare the same types.
* `contribution_eq_nothing_iff`: the files that contribute an output or an error line.
* `response_assembled`: a response is put together from the contributions, in order.
* `generate_isolated`: two runs over requests that declare the same types.
-/
namespace McpCatalog

/-- Tools are generated for the file. -/
def Request.Asks (r : Request) (f : FileDecl) : Prop :=
  f.path ∈ r.filesToGenerate

/-! ## Contributions -/

section
variable {g : Generator} {s : Settings} {f : SourceFile}

theorem Generator.sourcePath_of_generate {a : Artifact} (h : (g.generate f).result = .ok (some a)) :
    a.sourcePath = f.path := by
  unfold generate at h
  split at h
  · simp [skippedFile] at h
  · split at h
    · simp [skippedFile] at h
    · split at h
      · simp at h
      · have ha := Option.some.inj (Except.ok.inj h)
        rw [← ha]

theorem Pass.file_eq_nothing_iff :
    (Pass.file g s f).contribution = .nothing ↔ f.generate = false ∨ f.services = [] := by
  rw [← Generator.generate_eq_ok_none_iff (g := g), Pass.file]
  cases (g.generate f).result with
  | error clash => simp
  | ok a =>
    cases a with
    | none => simp
    | some a => simp only; split <;> simp

theorem Render.name_of_output {a : Artifact} {o : Output} (h : Render.output s a = .ok o) :
    o.name = outputName a.sourcePath s.effectiveSuffix := by
  unfold output at h
  cases hc : content s.format a with
  | error c => rw [hc] at h; cases h
  | ok text => rw [hc] at h; cases h; rfl

theorem Pass.name_of_file {o : Output} (h : (Pass.file g s f).contribution = .output o) :
    o.name = Render.outputName f.path s.effectiveSuffix := by
  unfold Pass.file at h
  dsimp only at h
  split at h
  · simp at h
  · simp at h
  · next a ha =>
    split at h
    · next o' ho =>
      have heq : o' = o := Contribution.output.inj h
      rw [← heq, Render.name_of_output ho, Generator.sourcePath_of_generate ha]
    · simp at h

end

theorem Render.outputName_inj {path path' suffix : String} (h : ∃ p, path = p ++ ".proto")
    (h' : ∃ p, path' = p ++ ".proto") (heq : outputName path suffix = outputName path' suffix) :
    path = path' := by
  obtain ⟨p, rfl⟩ := h
  obtain ⟨p', rfl⟩ := h'
  have hname (q : String) : outputName (q ++ ".proto") suffix = q ++ suffix := by
    have hsplit : (q ++ ".proto").toList = q.toList ++ extension := String.toList_append
    rw [outputName_of_proto hsplit, String.ofList_toList]
  rw [hname, hname] at heq
  rw [(String.append_left_inj suffix).1 heq]

namespace Plugin

/-- What a file of a request contributes to the response. -/
def contribution (s : Settings) (r : Request) (f : FileDecl) : Contribution :=
  (Pass.file (Pass.generator s (Corpus.ofRequest r)) s (f.toSource r.filesToGenerate)).contribution

variable {s : Settings} {r r' : Request} {f : FileDecl}

theorem contribution_eq_nothing_iff :
    contribution s r f = .nothing ↔ ¬ (r.Asks f ∧ f.services ≠ []) := by
  have hservices : (f.toSource r.filesToGenerate).services = [] ↔ f.services = [] := by
    simp [FileDecl.toSource]
  have hasked : (f.toSource r.filesToGenerate).generate = false ↔ ¬ r.Asks f := by
    simp [FileDecl.toSource, Request.Asks]
  rw [contribution, Pass.file_eq_nothing_iff, hservices, hasked]
  tauto

theorem name_of_contribution {o : Output} (h : contribution s r f = .output o) :
    o.name = Render.outputName f.path s.effectiveSuffix :=
  (Pass.name_of_file h :)

/-- Of a request, only the types and whether the file is asked for make a difference. -/
theorem contribution_congr (h : r.SameTypes r') (hf : r.Asks f ↔ r'.Asks f) :
    contribution s r f = contribution s r' f := by
  have hsource : f.toSource r.filesToGenerate = f.toSource r'.filesToGenerate := by
    have hasked : r.filesToGenerate.contains f.path = r'.filesToGenerate.contains f.path := by
      rw [Bool.eq_iff_iff, List.contains_iff_mem, List.contains_iff_mem]
      exact hf
    simp only [FileDecl.toSource, hasked]
  have hgenerator :
      Pass.generator s (Corpus.ofRequest r) = Pass.generator s (Corpus.ofRequest r') := by
    simp only [Pass.generator, Corpus.ofRequest, Corpus.poolOf_congr h, Corpus.requiredOf_congr h]
  rw [contribution, contribution, hsource, hgenerator]

/-! ## Responses -/

/-- The response is put together from what the files of the request contribute. -/
structure Assembled (s : Settings) (r : Request) (response : Response) : Prop where
  outputs : response.outputs = (r.files.map (contribution s r)).filterMap Contribution.output?
  /-- The lines of the error text, which is absent if there are none. -/
  error : response.error =
    match (r.files.map (contribution s r)).filterMap Contribution.failure? with
    | [] => none
    | lines => some ("\n".intercalate lines)
  error_none : response.error = none ↔
    ∀ f ∈ r.files, ∀ line, contribution s r f ≠ .failure line
  nothing : ∀ f ∈ r.files, contribution s r f = .nothing ↔ ¬ (r.Asks f ∧ f.services ≠ [])
  names : (r.files.map (·.path)).Nodup → (∀ f ∈ r.files, ∃ p, f.path = p ++ ".proto") →
    (response.outputs.map (·.name)).Nodup

theorem output?_eq_some_iff {c : Contribution} {o : Output} :
    c.output? = some o ↔ c = .output o := by
  cases c <;> simp [Contribution.output?]

theorem failure?_eq_none_iff {c : Contribution} :
    c.failure? = none ↔ ∀ line, c ≠ .failure line := by
  cases c <;> simp [Contribution.failure?]

/-- Files with different paths contribute outputs with different names. -/
theorem nodup_names (hpaths : (r.files.map (·.path)).Nodup)
    (hproto : ∀ f ∈ r.files, ∃ p, f.path = p ++ ".proto") :
    (((r.files.map (contribution s r)).filterMap Contribution.output?).map (·.name)).Nodup := by
  rw [List.Nodup, List.pairwise_map, List.pairwise_filterMap, List.pairwise_map]
  refine (List.pairwise_map.1 hpaths).imp_of_mem fun {f f'} hf hf' hne o ho o' ho' heq => hne ?_
  rw [output?_eq_some_iff] at ho ho'
  rw [name_of_contribution ho, name_of_contribution ho'] at heq
  exact Render.outputName_inj (hproto f hf) (hproto f' hf') heq

theorem results_run : (Pass.run s (Corpus.ofRequest r)).results.map (·.contribution)
    = r.files.map (contribution s r) := by
  simp [Pass.run, Corpus.ofRequest, Function.comp_def, contribution]

theorem response_assembled : Assembled s r (outcome s r).response := by
  have houtputs : (outcome s r).response.outputs
      = (r.files.map (contribution s r)).filterMap Contribution.output? := by
    rw [← results_run, List.filterMap_map]
    rfl
  have hfailures : (Pass.run s (Corpus.ofRequest r)).failures
      = (r.files.map (contribution s r)).filterMap Contribution.failure? := by
    rw [← results_run, List.filterMap_map]
    rfl
  have herror : (outcome s r).response.error = (Pass.run s (Corpus.ofRequest r)).error := rfl
  refine ⟨houtputs, ?_, ?_, fun f _ => contribution_eq_nothing_iff, ?_⟩
  · rw [herror, Pass.error, hfailures]
    split <;> simp_all
  · rw [herror, Pass.error, hfailures]
    simp [failure?_eq_none_iff]
  · rw [houtputs]
    exact nodup_names

/-! ## Runs -/

/-- A run over a request under some settings, which gets as far as a response. -/
structure Run (s : Settings) (r : Request) where
  files : Files
  bytes : Bytes
  override : Option String
  decoded : Request.decode? bytes = some r
  settled : settings files.read? r override = .ok s
  logged : canLog files s = true

/-- What comes out of a run. -/
def Run.outcome? (run : Run s r) : Except Error Outcome :=
  generate run.files run.bytes run.override

theorem Run.outcome?_eq (run : Run s r) : run.outcome? = .ok (outcome s r) := by
  have hrequest : request run.bytes = .ok r := by rw [request, run.decoded]
  simp [outcome?, generate, hrequest, run.settled, run.logged, bind, Except.bind, pure,
    Except.pure]

/-- **Isolation of files.** Two runs under the same settings, over requests that declare the same
types, both come to a response that is put together from the contributions of the files. A file that
is asked for in both requests or in none contributes the same to both responses. -/
theorem generate_isolated (h : r.SameTypes r') (run : Run s r) (run' : Run s r') :
    (∃ o, run.outcome? = .ok o ∧ Assembled s r o.response) ∧
    (∃ o, run'.outcome? = .ok o ∧ Assembled s r' o.response) ∧
    ∀ f, (r.Asks f ↔ r'.Asks f) → contribution s r f = contribution s r' f :=
  ⟨⟨_, run.outcome?_eq, response_assembled⟩, ⟨_, run'.outcome?_eq, response_assembled⟩,
    fun _ => contribution_congr h⟩

/-- A message without fields. -/
def emptyDecl (name : String) : MessageDecl :=
  ⟨some name, [], [], [], none, []⟩

/-- A file with a message and a service, whose methods have the given names. -/
def greeterFile (name message : String) (methods : List String) : FileDecl :=
  ⟨some name, some "demo", [emptyDecl message], [],
    [⟨some "Greeter", methods.map fun m =>
      ⟨some m, some ".demo.Hello", some ".demo.Reply", none, none⟩⟩], none⟩

/-- One file is asked for; the types of its methods are declared in both files. -/
def greeterRequest : Request :=
  ⟨["greeter.proto"], none, [greeterFile "greeter.proto" "Hello" ["Greet"],
    greeterFile "other.proto" "Reply" []]⟩

/-- The same file in front of it has another one that fails, since its methods have one name. -/
def crowdedRequest : Request :=
  ⟨["broken.proto", "greeter.proto", "greeter.proto"], none,
    [greeterFile "broken.proto" "Reply" ["Greet", "Greet"],
      greeterFile "greeter.proto" "Hello" ["Greet"]]⟩

theorem sameTypes_crowdedRequest : greeterRequest.SameTypes crowdedRequest := by
  let hello := (qualify "demo" "Hello", (emptyDecl "Hello").own)
  let reply := (qualify "demo" "Reply", (emptyDecl "Reply").own)
  have hcontents : greeterRequest.contents = [hello, reply] := rfl
  have hcontents' : crowdedRequest.contents = [reply, hello] := rfl
  have hdistinct : greeterRequest.DistinctMessages ∧ greeterRequest.DistinctEnums := by
    unfold Request.DistinctMessages Request.DistinctEnums
    decide
  have hdistinct' : crowdedRequest.DistinctMessages ∧ crowdedRequest.DistinctEnums := by
    unfold Request.DistinctMessages Request.DistinctEnums
    decide
  refine ⟨hdistinct, hdistinct', fun m => ?_, fun e => Iff.rfl⟩
  rw [hcontents, hcontents']
  simp [or_comm]

/-- A file of messages without fields, and of services without comments, can be encoded. -/
theorem fits_plainFile {f : FileDecl} (hmessages : ∀ m ∈ f.messages, ∃ name, m = emptyDecl name)
    (henums : f.enums = []) (hinfo : f.sourceInfo = none) :
    FitsInside FileDecl.Fits Request.maxNesting f := by
  constructor
  · intro m hm
    obtain ⟨name, rfl⟩ := hmessages m hm
    constructor <;> simp [emptyDecl]
  · simp [henums]
  · intro s hs m hm
    trivial
  · simp [hinfo]

theorem fits_greeterFile (name message : String) (methods : List String) :
    FitsInside FileDecl.Fits Request.maxNesting (greeterFile name message methods) := by
  refine fits_plainFile (fun m hm => ⟨message, ?_⟩) rfl rfl
  exact List.mem_singleton.1 hm

/-- A run that reads no file. -/
def runOver (r : Request) (h : r.Fits) (hp : r.parameter = none) : Run .default r :=
  { files := ⟨fun _ => none, fun _ => false⟩
    bytes := r.encode
    override := none
    decoded := Request.decode?_encode h
    settled := by
      have hparameter : parameter r none = "" := by simp [parameter, hp]
      rw [settings, hparameter, Settings.ofParameter_empty]
      rfl
    logged := rfl }

theorem generate_isolated_greeterFile :
    greeterRequest.SameTypes crowdedRequest ∧
      Nonempty (Run .default greeterRequest) ∧ Nonempty (Run .default crowdedRequest) ∧
      contribution .default greeterRequest (greeterFile "greeter.proto" "Hello" ["Greet"])
        = contribution .default crowdedRequest (greeterFile "greeter.proto" "Hello" ["Greet"]) := by
  have hfits : greeterRequest.Fits :=
    ⟨by simp [greeterRequest, fits_greeterFile], by decide +kernel⟩
  have hfits' : crowdedRequest.Fits :=
    ⟨by simp [crowdedRequest, fits_greeterFile], by decide +kernel⟩
  have run : Run .default greeterRequest := runOver _ hfits rfl
  have run' : Run .default crowdedRequest := runOver _ hfits' rfl
  refine ⟨sameTypes_crowdedRequest, ⟨run⟩, ⟨run'⟩, ?_⟩
  refine (generate_isolated sameTypes_crowdedRequest run run').2.2 _ ?_
  simp [Request.Asks, greeterRequest, crowdedRequest, greeterFile, FileDecl.path]

end Plugin
end McpCatalog
