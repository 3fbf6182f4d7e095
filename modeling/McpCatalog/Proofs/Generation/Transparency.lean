import McpCatalog.Proofs.Corpus.Optional
import McpCatalog.Proofs.Generation.Isolation
/-!
# Optional fields leave no trace

A field that is declared as optional comes with a group that was made up for it, even under the name
of another group. Schemas know the groups that are declared as such, and nothing else of a run sees
a field.

Results:
* `Generator.tool_alike`, `Generator.generate_congr`: the tools of a file come from schemas.
* `outcome_alike`: requests with the same files that say the same.
* `generate_madeOptional`: a run before and after fields are made optional.
-/
namespace McpCatalog

/-! ## Tools -/

namespace Generator

/-- The same tool is made from pools that differ in groups that were made up. -/
theorem tool_alike {pool pool' : Pool} (h : pool.Alike pool') (names : NameSet) (limit : Nat) :
    tool ⟨pool, .ofNames names, limit⟩ = tool ⟨pool', .ofNames names, limit⟩ := by
  funext m
  have hrequest : (request ⟨pool, .ofNames names, limit⟩ m).bare
      = (request ⟨pool', .ofNames names, limit⟩ m).bare := by
    have hmessage := congrArg (·.getD (Message.bare ⟨m.inputType, []⟩)) (h.messages m.inputType)
    simpa only [request, Option.getD_map] using hmessage
  have hshape := h.messageShape_eq names [] hrequest
  simp only [tool, Builder.messageSchema, Builder.new, Builder.note, Builder.recursiveReferences,
    hshape]

/-- Of a generator, a file needs the tools only. -/
theorem generate_congr {g g' : Generator} (h : g.tool = g'.tool) : g.generate = g'.generate := by
  have hmethod : g.addMethod = g'.addMethod := by
    funext file service p m
    simp only [addMethod, h]
  have hservice : g.addService = g'.addService := by
    funext file p s
    simp only [addService, hmethod]
  funext f
  simp only [generate, hservice]

end Generator

/-! ## Runs -/

namespace Plugin

variable {r r' : Request}

theorem outcome_alike (s : Settings) (h : r.Alike r')
    (hfiles : (r.files.map fun f => f.toSource r.filesToGenerate)
      = r'.files.map fun f => f.toSource r'.filesToGenerate) :
    outcome s r = outcome s r' := by
  have hgenerate : (Pass.generator s (Corpus.ofRequest r)).generate
      = (Pass.generator s (Corpus.ofRequest r')).generate := by
    refine Generator.generate_congr ?_
    simp only [Pass.generator, Corpus.ofRequest, Corpus.requiredOf_alike h]
    exact Generator.tool_alike (Corpus.alike_poolOf h) _ _
  have hfile : Pass.file (Pass.generator s (Corpus.ofRequest r)) s
      = Pass.file (Pass.generator s (Corpus.ofRequest r')) s := by
    funext f
    simp only [Pass.file, hgenerate]
  have hrun : Pass.run s (Corpus.ofRequest r) = Pass.run s (Corpus.ofRequest r') := by
    simp only [Pass.run, hfile]
    simp only [Corpus.ofRequest, hfiles]
  simp only [outcome, hrun]

/-- **Optional fields leave no trace.** Where every index of a group is negative or that of a group
of the message, fields without a group are made optional, any number of them and in any messages, by
groups that are added with any names. Then a run ends as before, whatever the settings are: with the
same response, byte for byte, or with the same error. -/
theorem generate_madeOptional (h : r.MadeOptional r') (hrange : r.OneofsInRange)
    {bytes bytes' : Bytes} (hbytes : Request.decode? bytes = some r)
    (hbytes' : Request.decode? bytes' = some r') (files : Files) (override : Option String) :
    generate files bytes override = generate files bytes' override ∧
      (run files bytes override).response.encode = (run files bytes' override).response.encode := by
  have houtcome (s : Settings) : outcome s r = outcome s r' := by
    refine outcome_alike s (Request.alike_of_madeOptional h hrange) ?_
    have hrequested : r'.filesToGenerate = r.filesToGenerate := by
      obtain ⟨files, -, rfl⟩ := h
      rfl
    rw [hrequested]
    exact Request.sources_of_madeOptional h r.filesToGenerate
  have hsettings : settings files.read? r override = settings files.read? r' override := by
    obtain ⟨files', -, rfl⟩ := h
    rfl
  have hgenerate : generate files bytes override = generate files bytes' override := by
    simp only [generate, request, hbytes, hbytes', bind, Except.bind, hsettings, houtcome]
  exact ⟨hgenerate, by rw [run, run, hgenerate]⟩

/-- A field that holds one string. -/
def textDecl (name : String) (number : Int) (group : Option Int) : FieldDecl :=
  ⟨some name, some number, some 1, some 9, none, none, group, none⟩

/-- The entries of a map of strings, where the given field describes the values. -/
def labelsEntry (value : FieldDecl) (groups : List NamedDecl) : MessageDecl :=
  ⟨some "LabelsEntry", [textDecl "key" 1 none, value], [], [], some ⟨some true⟩, groups⟩

/-- A message with two alternatives, with a field whose group has a negative index, with the given
field, and with a map. -/
def ticketDecl (note : FieldDecl) (entry : MessageDecl) (groups : List NamedDecl) : MessageDecl :=
  ⟨some "Ticket",
    [textDecl "email" 1 (some 0), textDecl "phone" 2 (some 0), textDecl "title" 3 (some (-1)), note,
      ⟨some "labels", some 5, some 3, some 11, some ".desk.Ticket.LabelsEntry", none, none, none⟩],
    [entry], [], none, groups⟩

def deskRequest (ticket : MessageDecl) : Request :=
  ⟨["desk.proto"], none, [⟨some "desk.proto", some "desk", [ticket], [],
    [⟨some "Desk", [⟨some "Open", some ".desk.Ticket", some ".desk.Ticket", none, none⟩]⟩],
    none⟩]⟩

/-- No field is optional. -/
def plainTicket : MessageDecl :=
  ticketDecl (textDecl "note" 4 none) (labelsEntry (textDecl "value" 2 none) []) [⟨some "contact"⟩]

/-- The new group of the message has the name of the other one, and the values of the map are
optional as well. -/
def optionalTicket : MessageDecl :=
  ticketDecl ((textDecl "note" 4 none).withGroup 1)
    (labelsEntry ((textDecl "value" 2 none).withGroup 0) [⟨some "_value"⟩])
    [⟨some "contact"⟩, ⟨some "contact"⟩]

theorem madeOptional_ticket :
    (deskRequest plainTicket).MadeOptional (deskRequest optionalTicket) := by
  have hentry : (labelsEntry (textDecl "value" 2 none) []).MadeOptional
      (labelsEntry ((textDecl "value" 2 none).withGroup 0) ([] ++ [⟨some "_value"⟩])) :=
    .intro (.cons .same (.cons (.optional rfl (by decide) (by decide)) .nil)) .nil
  have hticket : plainTicket.MadeOptional optionalTicket := by
    refine @MessageDecl.MadeOptional.intro _ _ _ _ _ _ _ [⟨some "contact"⟩] [⟨some "contact"⟩] ?_
      (.cons hentry .nil)
    exact .cons .same (.cons .same (.cons .same
      (.cons (.optional rfl (by decide) (by decide)) (.cons .same .nil))))
  exact ⟨_, .cons ⟨_, .cons hticket .nil, rfl⟩ .nil, rfl⟩

theorem fits_textDecl (budget : Nat) (name : String) {number : Int} {group : Option Int}
    (hnumber : IsInt32 number) (hgroup : ∀ i ∈ group, IsInt32 i) :
    (textDecl name number group).Fits budget :=
  ⟨by simpa [textDecl], by simp [textDecl, IsInt32], by simp [textDecl, IsInt32],
    by simp [textDecl], hgroup⟩

theorem fits_withGroup {budget : Nat} {f : FieldDecl} (h : f.Fits budget) {i : Nat}
    (hi : IsInt32 i) : (f.withGroup i).Fits budget :=
  ⟨h.number, h.label, h.type, h.options, by simpa [FieldDecl.withGroup]⟩

/-- Requests with such a message can be encoded. -/
theorem fits_deskRequest {note value : FieldDecl} {groups groups' : List NamedDecl}
    (hnote : ∀ budget, note.Fits budget) (hvalue : ∀ budget, value.Fits budget)
    (hlength : (deskRequest (ticketDecl note (labelsEntry value groups') groups)).encode.length
      < UInt64.size) :
    (deskRequest (ticketDecl note (labelsEntry value groups') groups)).Fits := by
  refine ⟨fun f hf => ?_, hlength⟩
  obtain rfl := List.mem_singleton.1 hf
  refine ⟨fun m hm => ?_, by simp, fun s hs m hm => trivial, by simp⟩
  obtain rfl := List.mem_singleton.1 hm
  refine ⟨fun f hf => ?_, fun n hn => ?_, by simp [ticketDecl], by simp [ticketDecl],
    fun o ho => trivial⟩
  · simp only [ticketDecl, List.mem_cons, List.not_mem_nil, or_false] at hf
    rcases hf with rfl | rfl | rfl | rfl | rfl
    · exact fits_textDecl _ _ (by simp [IsInt32]) (by simp [IsInt32])
    · exact fits_textDecl _ _ (by simp [IsInt32]) (by simp [IsInt32])
    · exact fits_textDecl _ _ (by simp [IsInt32]) (by simp [IsInt32])
    · exact hnote _
    · constructor <;> simp [IsInt32]
  · obtain rfl := List.mem_singleton.1 hn
    refine ⟨fun f hf => ?_, by simp [labelsEntry], by simp [labelsEntry], fun o ho => trivial,
      fun o ho => trivial⟩
    simp only [labelsEntry, List.mem_cons, List.not_mem_nil, or_false] at hf
    rcases hf with rfl | rfl
    · exact fits_textDecl _ _ (by simp [IsInt32]) (by simp)
    · exact hvalue _

theorem oneofsInRange_ticket : (deskRequest plainTicket).OneofsInRange := by
  unfold Request.OneofsInRange
  decide

theorem generate_madeOptional_ticket :
    (deskRequest plainTicket).MadeOptional (deskRequest optionalTicket) ∧
      (deskRequest plainTicket).OneofsInRange ∧
      ∃ files bytes bytes' o, Request.decode? bytes = some (deskRequest plainTicket) ∧
        Request.decode? bytes' = some (deskRequest optionalTicket) ∧
        generate files bytes none = .ok o ∧ generate files bytes' none = .ok o := by
  have hnote (budget : Nat) : (textDecl "note" 4 none).Fits budget :=
    fits_textDecl _ _ (by simp [IsInt32]) (by simp)
  have hvalue (budget : Nat) : (textDecl "value" 2 none).Fits budget :=
    fits_textDecl _ _ (by simp [IsInt32]) (by simp)
  have hfits : (deskRequest plainTicket).Fits :=
    fits_deskRequest hnote hvalue (by decide +kernel)
  have hfits' : (deskRequest optionalTicket).Fits :=
    fits_deskRequest (fun budget => fits_withGroup (hnote budget) (by simp [IsInt32]))
      (fun budget => fits_withGroup (hvalue budget) (by simp [IsInt32])) (by decide +kernel)
  have hrun := (runOver _ hfits rfl).outcome?_eq
  have hsame := (generate_madeOptional madeOptional_ticket oneofsInRange_ticket
    (Request.decode?_encode hfits) (Request.decode?_encode hfits')
    ⟨fun _ => none, fun _ => false⟩ none).1
  exact ⟨madeOptional_ticket, oneofsInRange_ticket, _, _, _, _, Request.decode?_encode hfits,
    Request.decode?_encode hfits', hrun, hsame ▸ hrun⟩

end Plugin
end McpCatalog
