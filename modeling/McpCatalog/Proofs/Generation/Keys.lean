import McpCatalog.Corpus
import McpCatalog.Proofs.Catalog.Calls
import McpCatalog.Proofs.Corpus.Lookup
import McpCatalog.Proofs.Generation.Filling
import McpCatalog.Proofs.Tool.Shortening
/-!
# Keys and names of tools

A catalog has a tool under a key, which is made of the names of its service and its method. The name
of the tool comes another way: the package and the same two names are put together to the full name
of the method, which is taken apart at its dots again. Both ways lead to the same text if neither
name has a dot and the service has a name at all; the package can be anything.

Results:
* `flattened_qualify`: a full name is taken apart into what it was made of.
* `name_eq_shortened_key`: the name of a tool is its key, shortened to the limit.
* `names_of_keys`: the tools of a file have the names of their keys, and two names are equal only
  where at least one of the keys is too long.
-/
namespace McpCatalog

/-! ## Full names of methods -/

theorem splitOn_qualify (scope : String) {name : String} (h : '.' ∉ name.toList) :
    (qualify scope name).toList.splitOn '.'
      = (if scope.isEmpty then [] else scope.toList.splitOn '.') ++ [name.toList] := by
  rw [toList_qualify]
  split
  · exact List.splitOn_eq_singleton h
  · rw [List.append_assoc, List.singleton_append, List.splitOn_append_cons_self,
      List.splitOn_eq_singleton h]

theorem qualify_ne_empty (scope : String) {name : String} (h : name ≠ "") :
    qualify scope name ≠ "" := by
  unfold qualify
  split
  · exact h
  · simp

/-- What is joined by an underscore are the two names that come last. -/
theorem ToolName.flattened_qualify (scope : String) {service method : String}
    (hservice : service ≠ "") (hs : '.' ∉ service.toList) (hm : '.' ∉ method.toList) :
    flattened (qualify (qualify scope service) method) = Catalog.key service method := by
  have hne : ¬ (qualify scope service).isEmpty = true := fun h =>
    qualify_ne_empty scope hservice (String.isEmpty_iff.1 h)
  rw [flattened, splitOn_qualify _ hm, if_neg hne, splitOn_qualify scope hs]
  simp only [List.reverse_append, List.reverse_singleton, List.singleton_append]
  rw [← String.toList_inj, Catalog.key]
  simp

/-! ## Names without dots -/

/-- The service has a name, and neither this name nor one of its methods' has a dot. -/
def ServiceDecl.PlainNames (s : ServiceDecl) : Prop :=
  s.name.getD "" ≠ "" ∧ '.' ∉ (s.name.getD "").toList ∧
    ∀ m ∈ s.methods, '.' ∉ (m.name.getD "").toList

def Request.PlainNames (r : Request) : Prop :=
  ∀ f ∈ r.files, ∀ s ∈ f.services, s.PlainNames

instance (s : ServiceDecl) : Decidable s.PlainNames :=
  inferInstanceAs (Decidable (_ ∧ _ ∧ _))

instance (r : Request) : Decidable r.PlainNames :=
  inferInstanceAs (Decidable (∀ f ∈ r.files, ∀ s ∈ f.services, s.PlainNames))

/-- The last two parts of the full names of all methods are the names of service and method. -/
def SourceFile.KeysAgree (f : SourceFile) : Prop :=
  ∀ s ∈ f.services, ∀ m ∈ s.methods, ToolName.flattened m.fullName = Catalog.key s.name m.name

theorem ServiceDecl.PlainNames.flattened {s : ServiceDecl} (h : s.PlainNames) (scope : String)
    (position : Nat) (comment : Nat → Nat → String) {m : Method}
    (hm : m ∈ (s.toService scope position comment).methods) :
    ToolName.flattened m.fullName
      = Catalog.key (s.toService scope position comment).name m.name := by
  obtain ⟨hne, hs, hmethods⟩ := h
  obtain ⟨⟨decl, i⟩, hdecl, rfl⟩ := List.mem_map.1 hm
  exact ToolName.flattened_qualify scope hne hs (hmethods decl (List.fst_mem_of_mem_zipIdx hdecl))

theorem Request.PlainNames.keysAgree {r : Request} (h : r.PlainNames) {f : SourceFile}
    (hf : f ∈ (Corpus.ofRequest r).files) : f.KeysAgree := by
  obtain ⟨file, hfile, rfl⟩ := List.mem_map.1 hf
  intro s hs m hm
  obtain ⟨⟨decl, i⟩, hdecl, rfl⟩ := List.mem_map.1 hs
  exact (h file hfile decl (List.fst_mem_of_mem_zipIdx hdecl)).flattened _ _ _ hm

/-! ## The tools of a file -/

namespace Generator

open Catalog (Entry)

section
variable {g : Generator} {f : SourceFile}

theorem name_eq_shortened_key (h : f.KeysAgree) {e : Entry} (he : e ∈ g.entries f) :
    e.tool.name = ToolName.shortened e.key g.nameLimit := by
  obtain ⟨s, hs, m, hm, -, rfl⟩ := mem_entries.1 he
  have hname : (g.entry s.name m).tool.name
      = ToolName.shortened (ToolName.flattened m.fullName) g.nameLimit := rfl
  rw [hname, h s hs m hm]
  rfl

/-- Two keys within the limit are the names of their tools. -/
theorem limit_lt_of_name_eq (h : f.KeysAgree) {e e' : Entry} (he : e ∈ g.entries f)
    (he' : e' ∈ g.entries f) (hkey : e'.key ≠ e.key) (hname : e'.tool.name = e.tool.name) :
    g.nameLimit < e.key.utf8ByteSize ∨ g.nameLimit < e'.key.utf8ByteSize := by
  by_contra hshort
  simp only [not_or, Nat.not_lt] at hshort
  rw [name_eq_shortened_key h he, name_eq_shortened_key h he',
    ToolName.shortened_of_le hshort.1, ToolName.shortened_of_le hshort.2] at hname
  exact hkey hname

/-- The first clash is one of names only if the keys are new. -/
theorem FirstClash.of_duplicateName {file path name : String} {es : List Entry}
    (h : FirstClash file es (.duplicateName path name)) :
    path = file ∧ ∃ before e after, es = before ++ e :: after ∧ e.tool.name = name ∧
      ∃ e' ∈ before, e'.tool.name = name ∧ e'.key ≠ e.key := by
  obtain ⟨before, e, after, hes, -, ⟨e', he', hclash⟩, hc⟩ := h
  by_cases hkey : e.key ∈ before.map Entry.key
  · simp [Entry.clash, hkey] at hc
  · simp only [Entry.clash, hkey, if_false, Clash.duplicateName.injEq] at hc
    obtain ⟨rfl, rfl⟩ := hc
    have hne : e'.key ≠ e.key := fun heq => hkey (heq ▸ List.mem_map_of_mem he')
    exact ⟨rfl, before, e, after, hes, rfl, e', he', hclash.resolve_left hne, hne⟩

end

/-- **Keys and names.** In a request whose services and methods have names without dots, whatever
the packages and the limit are, the tool under a key has the key as its name, shortened to the
limit, and the tool of a method stands under the key of the method. Hence a file fails over the name
of a tool only if another tool before it has a different key, and one of the two keys is over the
limit. -/
theorem names_of_keys {r : Request} (h : r.PlainNames) (g : Generator) {f : SourceFile}
    (hf : f ∈ (Corpus.ofRequest r).files) :
    (∀ a, (g.generate f).result = .ok (some a) →
      (∀ k t, a.catalog.tools.get? k = some t → t.name = ToolName.shortened k g.nameLimit) ∧
      ∀ service method t, (a.catalog.methods service).get? method = some t →
        a.catalog.tools.get? (Catalog.key service method) = some t) ∧
    ∀ path name, (g.generate f).result = .error (.duplicateName path name) →
      path = f.path ∧ ∃ before e after, g.entries f = before ++ e :: after ∧ e.tool.name = name ∧
        ∃ e' ∈ before, e'.tool.name = name ∧ e'.key ≠ e.key ∧
          (g.nameLimit < e.key.utf8ByteSize ∨ g.nameLimit < e'.key.utf8ByteSize) := by
  have hagree : f.KeysAgree := h.keysAgree hf
  constructor
  · intro a ha
    obtain ⟨catalog, events, rfl, hholds⟩ := artifact_of_generate ha
    refine ⟨?_, fun _ _ _ => hholds.tools_of_methods⟩
    intro k t ht
    obtain ⟨e, he, rfl, rfl⟩ := (hholds.tools k t).1 ht
    exact name_eq_shortened_key hagree he
  · intro path name herror
    obtain ⟨hpath, before, e, after, hes, hname, e', he', hname', hkey⟩ :=
      (firstClash_of_generate herror).of_duplicateName
    have hmem : e ∈ g.entries f := by simp [hes]
    have hmem' : e' ∈ g.entries f := by simp [hes, he']
    exact ⟨hpath, before, e, after, hes, hname, e', he', hname', hkey,
      limit_lt_of_name_eq hagree hmem hmem' hkey (hname'.trans hname.symm)⟩

/-- A service with two methods and no package. -/
def orderRequest : Request :=
  { filesToGenerate := ["orders.proto"]
    parameter := none
    files := [⟨some "orders.proto", none, [], [],
      [⟨some "Orders", [⟨some "Find", none, none, none, none⟩,
        ⟨some "Fetch", none, none, none, none⟩]⟩], none⟩] }

def orderFile : SourceFile :=
  ⟨"orders.proto", "", "orders", true, [⟨"Orders", "Orders",
    [⟨"Find", "Orders.Find", "", "", false, false, ""⟩,
      ⟨"Fetch", "Orders.Fetch", "", "", false, false, ""⟩]⟩]⟩

theorem names_of_keys_orderRequest :
    orderRequest.PlainNames ∧ orderFile ∈ (Corpus.ofRequest orderRequest).files ∧
      (generate ⟨.empty, fun _ => false, 0⟩ orderFile).result
        = .error (.duplicateName "orders.proto" "") ∧
      ∃ e ∈ entries ⟨.empty, fun _ => false, 0⟩ orderFile, 0 < e.key.utf8ByteSize := by
  have hplain : orderRequest.PlainNames := by decide
  have hfile : orderFile ∈ (Corpus.ofRequest orderRequest).files := by decide
  have hs : orderFile.services ≠ [] := by simp [orderFile]
  obtain ⟨-, hclash⟩ := names_of_keys hplain ⟨.empty, fun _ => false, 0⟩ hfile
  have hempty : ∀ e ∈ entries ⟨.empty, fun _ => false, 0⟩ orderFile, e.tool.name = "" := by
    intro e he
    have hsize := (ToolName.shortens_shortened e.key 0).utf8ByteSize_le
    rw [name_eq_shortened_key (hplain.keysAgree hfile) he]
    exact String.utf8ByteSize_eq_zero_iff.1 (Nat.le_zero.1 hsize)
  have herror : (generate ⟨.empty, fun _ => false, 0⟩ orderFile).result
      = .error (.duplicateName "orders.proto" "") := by
    rcases generate_cases ⟨.empty, fun _ => false, 0⟩ (f := orderFile) rfl hs with
      ⟨c, hc, before, e, after, hsplit, -, ⟨e', he', -⟩, rfl⟩ | ⟨catalog, events, -, hholds⟩
    · match before with
      | [] => simp at he'
      | [first] =>
        obtain ⟨rfl, rfl, -⟩ := hsplit
        exact hc
      | _ :: _ :: rest =>
        have hlength : 2 = (rest ++ e :: after).length + 2 := congrArg List.length hsplit
        simp at hlength
    · have hnames := (hempty _ (List.mem_cons_self ..)).trans
        (hempty _ (List.mem_cons_of_mem _ (List.mem_cons_self ..))).symm
      exact absurd (.inr hnames)
        ((List.pairwise_cons.1 hholds.distinct).1 _ (List.mem_cons_self ..))
  obtain ⟨-, before, e, after, hes, -, e', he', -, -, hlong⟩ := hclash _ _ herror
  refine ⟨hplain, hfile, herror, ?_⟩
  rw [hes]
  rcases hlong with hlong | hlong
  · exact ⟨e, by simp, hlong⟩
  · exact ⟨e', by simp [he'], hlong⟩

end Generator
end McpCatalog
