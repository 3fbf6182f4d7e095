import Mathlib.Data.List.Induction
import Mathlib.Logic.Relation
import McpCatalog.Pass
import McpCatalog.Proofs.Generation.Filling
import McpCatalog.Proofs.Tool.Description
/-!
# The comments of methods

The locations of a file stand in any order, and most of them are those of other things than methods.
What is noted about a method is what the last of its own locations with a comment says. So the
locations that are silent on a method can come, go and change places, and its tool is described by
the same text.

Results:
* `lastComment_iff`: the comment of a method is that of the last location that is not silent on it.
* `lookup_eq_of_edits`: locations that are silent on a method do not matter to it.
* `ofRequest_relocate`: locations that are silent on all methods of their file do not matter at all.
* `comments_ofRequest`: the comments of the methods of a request and what their tools say.
-/
namespace McpCatalog

open Relation (ReflTransGen)

/-! ## Locations -/

/-- The location does not say anything about the element with the path. -/
def Location.Silent (path : List Int) (l : Location) : Prop :=
  l.path ≠ path ∨ l.leadingComments = none

theorem Location.silent_or_says (path : List Int) (l : Location) :
    l.Silent path ∨ l.path = path ∧ ∃ text, l.leadingComments = some text := by
  by_cases hpath : l.path = path
  · cases htext : l.leadingComments with
    | none => exact .inl (.inr htext)
    | some text => exact .inr ⟨hpath, text, rfl⟩
  · exact .inl (.inl hpath)

namespace SourceInfo

/-- The text is the comment of the last location with the path that has one, or empty if there is no
such location. -/
def LastComment (path : List Int) (locations : List Location) (text : String) : Prop :=
  (∃ before l after, locations = before ++ l :: after ∧ l.path = path ∧
    l.leadingComments = some text ∧ ∀ l' ∈ after, l'.Silent path) ∨
  (∀ l ∈ locations, l.Silent path) ∧ text = ""

/-- A location that is free is put somewhere or taken away, or it changes places with the one
beside it. -/
inductive Edit (free : Location → Prop) : List Location → List Location → Prop
  | insert {l : Location} (before after : List Location) (h : free l) :
    Edit free (before ++ after) (before ++ l :: after)
  | delete {l : Location} (before after : List Location) (h : free l) :
    Edit free (before ++ l :: after) (before ++ after)
  | swap {l l' : Location} (before after : List Location) (h : free l ∨ free l') :
    Edit free (before ++ l :: l' :: after) (before ++ l' :: l :: after)

/-! ## What is noted -/

section
variable {service method : Nat} {comments comments' : Comments}

theorem lookup_foldl_of_silent {locations : List Location}
    (h : ∀ l ∈ locations, l.Silent (methodPath service method)) (comments : Comments) :
    (locations.foldl note comments).lookup (service, method)
      = comments.lookup (service, method) := by
  induction locations generalizing comments with
  | nil => rfl
  | cons l rest ih =>
    obtain ⟨hl, hrest⟩ := List.forall_mem_cons.1 h
    rw [List.foldl_cons, ih hrest, lookup_note_of_silent hl]

/-- A location tells the same of a method whatever was noted about the others. -/
theorem lookup_note_congr
    (h : comments.lookup (service, method) = comments'.lookup (service, method)) (l : Location) :
    (note comments l).lookup (service, method) = (note comments' l).lookup (service, method) := by
  rcases l.silent_or_says (methodPath service method) with hl | ⟨hpath, text, htext⟩
  · rw [lookup_note_of_silent hl, lookup_note_of_silent hl, h]
  · rw [lookup_note_self hpath htext, lookup_note_self hpath htext]

theorem lookup_foldl_congr
    (h : comments.lookup (service, method) = comments'.lookup (service, method))
    (locations : List Location) :
    (locations.foldl note comments).lookup (service, method)
      = (locations.foldl note comments').lookup (service, method) := by
  induction locations generalizing comments comments' with
  | nil => exact h
  | cons l rest ih => exact ih (lookup_note_congr h l)

theorem lastComment_iff {locations : List Location} {text : String} :
    LastComment (methodPath service method) locations text
      ↔ text = ((methodComments locations).lookup (service, method)).getD "" := by
  constructor
  · rintro (⟨before, l, after, rfl, hpath, htext, hafter⟩ | ⟨hsilent, rfl⟩)
    · rw [methodComments, List.foldl_append, List.foldl_cons, lookup_foldl_of_silent hafter,
        lookup_note_self hpath htext, Option.getD_some]
    · rw [methodComments, lookup_foldl_of_silent hsilent]
      rfl
  · rintro rfl
    -- by induction from the end, where the last location is
    induction locations using List.reverseRecOn with
    | nil => exact .inr ⟨by simp, rfl⟩
    | append_singleton locations l ih =>
      rw [methodComments, List.foldl_append, List.foldl_cons, List.foldl_nil]
      rcases l.silent_or_says (methodPath service method) with hl | ⟨hpath, text, htext⟩
      · rw [lookup_note_of_silent hl]
        rcases ih with ⟨before, l', after, hsplit, hpath, htext, hafter⟩ | ⟨hsilent, hempty⟩
        · refine .inl ⟨before, l', after ++ [l], by simp [hsplit], hpath, htext, ?_⟩
          exact List.forall_mem_append.2 ⟨hafter, List.forall_mem_singleton.2 hl⟩
        · exact .inr ⟨List.forall_mem_append.2 ⟨hsilent, List.forall_mem_singleton.2 hl⟩, hempty⟩
      · rw [lookup_note_self hpath htext]
        exact .inl ⟨locations, l, [], rfl, hpath, htext, by simp⟩

/-! ## Edits -/

variable {free : Location → Prop} {locations locations' : List Location}

theorem lookup_eq_of_edit (hfree : ∀ l, free l → l.Silent (methodPath service method))
    (h : Edit free locations locations') :
    (methodComments locations').lookup (service, method)
      = (methodComments locations).lookup (service, method) := by
  unfold methodComments
  cases h with
  | insert before after hl =>
    simp only [List.foldl_append, List.foldl_cons]
    exact lookup_foldl_congr (lookup_note_of_silent (hfree _ hl) _) after
  | delete before after hl =>
    simp only [List.foldl_append, List.foldl_cons]
    exact lookup_foldl_congr (lookup_note_of_silent (hfree _ hl) _).symm after
  | swap before after hl =>
    simp only [List.foldl_append, List.foldl_cons]
    refine lookup_foldl_congr ?_ after
    rcases hl with hl | hl
    · rw [lookup_note_of_silent (hfree _ hl)]
      exact (lookup_note_congr (lookup_note_of_silent (hfree _ hl) _) _).symm
    · rw [lookup_note_of_silent (hfree _ hl) (note _ _)]
      exact lookup_note_congr (lookup_note_of_silent (hfree _ hl) _) _

theorem lookup_eq_of_edits (hfree : ∀ l, free l → l.Silent (methodPath service method))
    (h : ReflTransGen (Edit free) locations locations') :
    (methodComments locations').lookup (service, method)
      = (methodComments locations).lookup (service, method) := by
  induction h with
  | refl => rfl
  | tail _ hedit ih => rw [lookup_eq_of_edit hfree hedit, ih]

end

end SourceInfo

/-! ## Requests with other locations -/

namespace FileDecl

/-- The file with other locations. -/
def relocate (f : FileDecl) (locations : List Location) : FileDecl :=
  { f with sourceInfo := some ⟨locations⟩ }

/-- The location is not one that the comment of a method of the file comes from. -/
def Irrelevant (f : FileDecl) (l : Location) : Prop :=
  ∀ i service, f.services[i]? = some service → ∀ j < service.methods.length,
    l.Silent (SourceInfo.methodPath i j)

end FileDecl

/-- The request with other locations in the file at a position. -/
def Request.relocate (r : Request) (i : Nat) (locations : List Location) : Request :=
  { r with files := r.files.modify i (·.relocate locations) }

/-- The method at the positions of its file, of its service and of itself. -/
def Corpus.method? (c : Corpus) (file service method : Nat) : Option Method := do
  let f ← c.files[file]?
  let s ← f.services[service]?
  s.methods[method]?

theorem map_modify_of_eq {α β : Type} {g : α → β} {f : α → α} {l : List α} {i : Nat}
    (h : ∀ a, l[i]? = some a → g (f a) = g a) : (l.modify i f).map g = l.map g := by
  refine List.ext_getElem? fun j => ?_
  rw [List.getElem?_map, List.getElem?_modify, List.getElem?_map]
  cases ha : l[j]? with
  | none => rfl
  | some a =>
    by_cases hij : i = j
    · subst hij
      simp [h a ha]
    · simp [hij]

section
variable {r : Request} {i s m : Nat} {f : FileDecl} {service : ServiceDecl} {method : MethodDecl}

theorem Request.messages_relocate (r : Request) (i : Nat) (locations : List Location) :
    (r.relocate i locations).messages = r.messages := by
  have h : (r.relocate i locations).files.map FileDecl.declaredMessages
      = r.files.map FileDecl.declaredMessages := map_modify_of_eq fun _ _ => rfl
  exact congrArg List.flatten h

theorem Request.enums_relocate (r : Request) (i : Nat) (locations : List Location) :
    (r.relocate i locations).enums = r.enums := by
  have h : (r.relocate i locations).files.map FileDecl.declaredEnums
      = r.files.map FileDecl.declaredEnums := map_modify_of_eq fun _ _ => rfl
  exact congrArg List.flatten h

theorem Request.getElem?_relocate (hf : r.files[i]? = some f) (locations : List Location) :
    (r.relocate i locations).files[i]? = some (f.relocate locations) := by
  rw [relocate, List.getElem?_modify_eq, hf]
  rfl

theorem FileDecl.comment_relocate {free : Location → Prop} {locations : List Location}
    (hfree : ∀ l, free l → l.Silent (SourceInfo.methodPath s m))
    (h : ReflTransGen (SourceInfo.Edit free) f.locations locations) :
    (f.relocate locations).comment s m = f.comment s m := by
  unfold comment
  rw [← SourceInfo.lookup_eq_of_edits hfree h]
  rfl

theorem ServiceDecl.toService_congr {scope : String} {comment comment' : Nat → Nat → String}
    (h : ∀ j < service.methods.length, comment s j = comment' s j) :
    service.toService scope s comment = service.toService scope s comment' := by
  simp only [toService]
  congr 1
  refine List.map_congr_left ?_
  rintro ⟨method, m⟩ hmethod
  rw [h m (List.mem_zipIdx' hmethod).1]

theorem FileDecl.toSource_relocate {locations : List Location}
    (h : ReflTransGen (SourceInfo.Edit f.Irrelevant) f.locations locations)
    (requested : List String) :
    (f.relocate locations).toSource requested = f.toSource requested := by
  have hservices : (f.services.zipIdx.map fun x =>
        x.1.toService f.scope x.2 (f.relocate locations).comment)
      = f.services.zipIdx.map fun x => x.1.toService f.scope x.2 f.comment := by
    refine List.map_congr_left ?_
    rintro ⟨service, s⟩ hservice
    rw [List.mem_zipIdx_iff_getElem?] at hservice
    exact ServiceDecl.toService_congr fun m hm =>
      FileDecl.comment_relocate (fun l hl => hl s service hservice m hm) h
  exact congrArg (SourceFile.mk f.path f.scope f.moduleName (requested.contains f.path)) hservices

/-- Locations that are not those of a method of the file, or have no comment, leave no trace. -/
theorem Corpus.ofRequest_relocate (hf : r.files[i]? = some f) {locations : List Location}
    (h : ReflTransGen (SourceInfo.Edit f.Irrelevant) f.locations locations) :
    ofRequest (r.relocate i locations) = ofRequest r := by
  have hfiles : ((r.relocate i locations).files.map fun f => f.toSource r.filesToGenerate)
      = r.files.map fun f => f.toSource r.filesToGenerate := by
    refine map_modify_of_eq fun f' hf' => ?_
    obtain rfl : f = f' := Option.some.inj (hf.symm.trans hf')
    exact FileDecl.toSource_relocate h r.filesToGenerate
  have hrequested : (r.relocate i locations).filesToGenerate = r.filesToGenerate := rfl
  simp only [ofRequest, poolOf, requiredOf, Request.ordinary, Request.entries,
    r.messages_relocate, r.enums_relocate, hrequested, hfiles]

/-! ## Methods and their tools -/

/-- The tool of a unary method is in the catalog of its file. -/
theorem Generator.get?_of_generate {g : Generator} {file : SourceFile} {a : Artifact}
    (ha : (g.generate file).result = .ok (some a)) {service : Service}
    (hs : service ∈ file.services) {method : Method} (hm : method ∈ service.methods)
    (hunary : method.isStreaming = false) :
    (a.catalog.methods service.name).get? method.name = some (g.tool method).1 := by
  obtain ⟨catalog, events, rfl, hholds⟩ := artifact_of_generate ha
  have hentry : g.entry service.name method ∈ g.entries file :=
    mem_entries.2 ⟨service, hs, method, hm, hunary, rfl⟩
  exact (hholds.methods service.name method.name _).2 ⟨_, hentry, rfl, rfl, rfl⟩

theorem Corpus.method?_ofRequest (hf : r.files[i]? = some f) (hs : f.services[s]? = some service)
    (hm : service.methods[m]? = some method) :
    (ofRequest r).method? i s m
      = some (method.toMethod (qualify f.scope (service.name.getD "")) (f.comment s m)) := by
  simp [method?, ofRequest, FileDecl.toSource, ServiceDecl.toService, List.getElem?_map,
    List.getElem?_zipIdx, hf, hs, hm]

/-- **Comments.** A method is commented by the last location with its path that has a comment, and
by nothing if there is none. Locations that are silent on the method can be put in, taken away and
moved. The tool of the method is described by the comment, line by line. Comments are noted apart
from the messages, so nothing is asked of the entries of maps: where those go in a circle, a request
is not gone through to the end (`Request.noCircle_iff`), and there is no tool. -/
theorem Corpus.comments_ofRequest (hf : r.files[i]? = some f) (hs : f.services[s]? = some service)
    (hm : service.methods[m]? = some method) :
    ∃ found, (ofRequest r).method? i s m = some found ∧
      SourceInfo.LastComment (SourceInfo.methodPath s m) f.locations found.leadingComments ∧
      (∀ locations, ReflTransGen
          (SourceInfo.Edit (Location.Silent (SourceInfo.methodPath s m))) f.locations locations →
        (ofRequest (r.relocate i locations)).method? i s m = some found) ∧
      ∀ file, (ofRequest r).files[i]? = some file → found.isStreaming = false →
        ∀ (g : Generator) (a : Artifact), (g.generate file).result = .ok (some a) →
          ∃ tool,
            (a.catalog.methods (service.name.getD "")).get? (method.name.getD "") = some tool ∧
            Comment.Describes found.leadingComments tool.description := by
  refine ⟨_, method?_ofRequest hf hs hm, SourceInfo.lastComment_iff.2 rfl, ?_, ?_⟩
  · intro locations hedits
    rw [method?_ofRequest (Request.getElem?_relocate hf locations) hs hm,
      FileDecl.comment_relocate (fun _ => id) hedits]
    rfl
  · intro file hfile hunary g a ha
    have hsource : file = f.toSource r.filesToGenerate := by
      simpa [ofRequest, hf] using hfile.symm
    have hservice : service.toService f.scope s f.comment ∈ file.services :=
      hsource ▸ List.mem_map.2 ⟨(service, s), List.mem_zipIdx_iff_getElem?.2 hs, rfl⟩
    have hmethod : method.toMethod (qualify f.scope (service.name.getD "")) (f.comment s m)
        ∈ (service.toService f.scope s f.comment).methods :=
      List.mem_map.2 ⟨(method, m), List.mem_zipIdx_iff_getElem?.2 hm, rfl⟩
    exact ⟨_, Generator.get?_of_generate ha hservice hmethod hunary, Comment.describes_iff.2 rfl⟩

end

/-! ## A file with many locations -/

/-- Two methods, of which the second is unary, in the second service of a file. -/
def greeterFile : FileDecl :=
  { name := some "greeter.proto"
    package := none
    messages := []
    enums := []
    services := [⟨some "Nothing", []⟩,
      ⟨some "Greeter", [⟨some "Watch", none, none, none, some true⟩,
        ⟨some "Greet", none, none, none, none⟩]⟩]
    sourceInfo := some ⟨[⟨[6, 1, 2, 1], some "Old."⟩, ⟨[6, 1, 2, 0], some "Watches."⟩,
      ⟨[6, 1, 2, 1], some " Says hello.\n buf:lint:ignore NAME"⟩, ⟨[6, 1, 2, 1, 1], some "Name."⟩,
      ⟨[6, 1, 2, 1], none⟩, ⟨[6, 1, 2, -1], some "Nothing."⟩]⟩ }

def greeterRequest : Request :=
  ⟨["greeter.proto"], none, [greeterFile]⟩

/-- The comment is the one that was given last, and its tool says the first line of it. -/
theorem Corpus.comments_ofRequest_greeterRequest :
    ∃ found a tool, (ofRequest greeterRequest).method? 0 1 1 = some found ∧
      found.leadingComments = " Says hello.\n buf:lint:ignore NAME" ∧
      ((Pass.generator .default (ofRequest greeterRequest)).generate
        (greeterFile.toSource greeterRequest.filesToGenerate)).result = .ok (some a) ∧
      (a.catalog.methods "Greeter").get? "Greet" = some tool ∧
      tool.description = "Says hello." := by
  obtain ⟨found, hfound, hlast, -, htools⟩ :=
    comments_ofRequest (r := greeterRequest) (i := 0) (s := 1) (m := 1) rfl rfl rfl
  have hcomment : found.leadingComments = " Says hello.\n buf:lint:ignore NAME" :=
    SourceInfo.lastComment_iff.1 hlast
  have hunary : found.isStreaming = false := by
    rw [method?_ofRequest (r := greeterRequest) rfl rfl rfl] at hfound
    exact Option.some.inj hfound ▸ rfl
  rcases Generator.generate_cases (Pass.generator .default (ofRequest greeterRequest))
    (f := greeterFile.toSource greeterRequest.filesToGenerate) (by decide) (by decide)
    with ⟨c, -, before, e, after, hsplit, -, ⟨e', he', -⟩, -⟩ | ⟨catalog, events, ha, -⟩
  · -- a single unary method has none before it to clash with
    have hlength : 1 = (before ++ e :: after).length := congrArg List.length hsplit
    have hbefore := List.length_pos_of_mem he'
    rw [List.length_append, List.length_cons] at hlength
    omega
  · obtain ⟨tool, htool, hdescribes⟩ := htools _ rfl hunary _ _ ha
    refine ⟨found, _, tool, hfound, hcomment, ha, htool, ?_⟩
    rw [Comment.describes_iff.1 hdescribes, hcomment]
    decide

end McpCatalog
