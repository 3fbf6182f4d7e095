import Mathlib.Data.List.Forall2
import McpCatalog.Proofs.Corpus.Content
import McpCatalog.Proofs.Corpus.Place
import McpCatalog.Proofs.Schema.Ungrouped
/-!
# Optional fields

A field is declared as optional by a group of its own, which is marked as made up for it. This
changes nothing of what the declarations say, as long as no other field refers to the new group.

Results:
* `Request.MadeOptional`: some fields of a request, in any of its messages, are made optional.
* `bare_fieldOf`: what a field becomes, apart from a group that was made up.
* `Request.alike_of_madeOptional`: the declarations of both requests say the same.
* `Corpus.alike_poolOf`, `Corpus.requiredOf_alike`: requests that say the same.
-/
namespace McpCatalog

/-! ## Making fields optional -/

/-- The field as an optional one, with the group of the given index. -/
def FieldDecl.withGroup (f : FieldDecl) (i : Nat) : FieldDecl :=
  { f with oneofIndex := some i, proto3Optional := some true }

/-- A field stays as it is, or was in no group and is made optional by one of the groups that were
added to `old` ones. -/
inductive FieldDecl.MadeOptional (old new : Nat) (f : FieldDecl) : FieldDecl → Prop
  | same : MadeOptional old new f f
  | optional {i : Nat} (hfree : f.oneofIndex = none) (hold : old ≤ i) (hnew : i < new) :
    MadeOptional old new f (f.withGroup i)

/-- Some fields of a message and of those declared in it are made optional, by groups of any names
that are added behind the others. -/
inductive MessageDecl.MadeOptional : MessageDecl → MessageDecl → Prop
  | intro {name : Option String} {fields fields' : List FieldDecl}
    {nested nested' : List MessageDecl} {enums : List EnumDecl} {options : Option MessageOptions}
    {oneofs added : List NamedDecl}
    (hfields : List.Forall₂ (FieldDecl.MadeOptional oneofs.length (oneofs ++ added).length)
      fields fields')
    (hnested : List.Forall₂ MadeOptional nested nested') :
    MadeOptional ⟨name, fields, nested, enums, options, oneofs⟩
      ⟨name, fields', nested', enums, options, oneofs ++ added⟩

/-- Some fields of the messages of a file are made optional. -/
def FileDecl.MadeOptional (f f' : FileDecl) : Prop :=
  ∃ messages, List.Forall₂ MessageDecl.MadeOptional f.messages messages ∧
    f' = { f with messages }

namespace Request

/-- Some fields of a request are made optional. -/
def MadeOptional (r r' : Request) : Prop :=
  ∃ files, List.Forall₂ FileDecl.MadeOptional r.files files ∧ r' = { r with files }

/-- The index of a group is negative or that of a group of the message. -/
def OneofsInRange (r : Request) : Prop :=
  ∀ x ∈ r.messages, ∀ f ∈ x.2.fields, ∀ i ∈ f.oneofIndex, i < x.2.oneofs.length

end Request

/-! ## Lists that are related one by one -/

section
variable {α β γ : Type} {R : α → β → Prop} {l : List α} {l' : List β}

theorem map_eq_of_forall₂ (h : List.Forall₂ R l l') {f : α → γ} {g : β → γ}
    (hfg : ∀ a b, R a b → f a = g b) : l.map f = l'.map g := by
  rw [← List.forall₂_eq_eq_eq]
  exact List.rel_map (fun a b hab => hfg a b hab) h

theorem flatMap_eq_of_forall₂ (h : List.Forall₂ R l l') {f : α → List γ} {g : β → List γ}
    (hfg : ∀ a b, R a b → f a = g b) : l.flatMap f = l'.flatMap g := by
  rw [List.flatMap_def, List.flatMap_def, map_eq_of_forall₂ h hfg]

end

/-! ## What declarations say -/

namespace MessageDecl

/-- What a field of the message says, with its group unless that was made up for it. -/
def told (m : MessageDecl) (f : FieldDecl) : FieldDecl × Option Oneof :=
  ({ f with oneofIndex := none, proto3Optional := none }, (m.oneof? f).filter (!·.synthetic))

/-- What a declaration says of the fields of its message. -/
def essence (m : MessageDecl) : Option MessageOptions × List (FieldDecl × Option Oneof) :=
  (m.options, m.fields.map m.told)

variable {m m' : MessageDecl}

theorem isMapEntry_congr (h : m.essence = m'.essence) : m.isMapEntry = m'.isMapEntry :=
  (congrArg (fun e => (e.1.bind (·.mapEntry)).getD false) h :)

theorem fieldNumbered?_congr (h : m.essence = m'.essence) (n : Int) :
    (m.fieldNumbered? n).map m.told = (m'.fieldNumbered? n).map m'.told := by
  have hfind (m : MessageDecl) :
      (m.fieldNumbered? n).map m.told = m.essence.2.find? fun x => x.1.number == some n := by
    rw [essence, List.find?_map]
    rfl
  rw [hfind m, hfind m', h]

/-- The values of maps are described by both or by none, and in the same way. -/
theorem valueDecl?_of_essence {α : Type} (h : m.essence = m'.essence) {g g' : FieldDecl → α}
    (hg : ∀ v v', m.valueDecl? = some v → m.told v = m'.told v' → g v = g' v') :
    m.valueDecl?.map g = m'.valueDecl?.map g' := by
  have htold : m.valueDecl?.map m.told = m'.valueDecl?.map m'.told := fieldNumbered?_congr h 2
  cases hv : m.valueDecl? with
  | none =>
    rw [hv] at htold
    rw [Option.map_eq_none_iff.1 htold.symm]
    rfl
  | some v =>
    rw [hv] at htold
    obtain ⟨v', hv', htold⟩ := Option.map_eq_some_iff.1 htold.symm
    rw [hv', Option.map_some, Option.map_some, hg v v' hv htold.symm]

theorem keyKind_of_essence (h : m.essence = m'.essence) : m.keyKind = m'.keyKind := by
  have hkind (m : MessageDecl) : m.keyKind
      = (((m.fieldNumbered? 1).map m.told).map fun x => x.1.kind).getD .string := by
    unfold keyKind
    cases m.fieldNumbered? 1 <;> rfl
  rw [hkind m, hkind m', fieldNumbered?_congr h]

end MessageDecl

/-! ## Fields -/

section
variable {entries entries' : Dict MessageDecl} {path : List String} {scope : String}
  {m m' : MessageDecl} {f f' : FieldDecl}

theorem bare_ofMap (name : String) (key : FieldKind) (value : Field) :
    (Field.ofMap name key value).bare = .ofMap name key value.bare := by
  rw [Field.bare_map rfl]
  rfl

theorem bare_place {field : Field} (h : field.oneof = none) :
    (m.place scope f field).bare
      = { field.bare with fullName := f.fullName scope, oneof := (m.told f).2 } := by
  obtain ⟨name, fullName, kind, cardinality, typeName, oneof⟩ := field
  obtain rfl : oneof = none := h
  unfold MessageDecl.place MessageDecl.told
  cases m.oneof? f <;> cases cardinality <;> rfl

theorem bare_place_congr (hf : m.told f = m'.told f') {field field' : Field}
    (h : field.oneof = none) (h' : field'.oneof = none) (hfield : field.bare = field'.bare) :
    (m.place scope f field).bare = (m'.place scope f' field').bare := by
  have hname : f.fullName scope = f'.fullName scope :=
    (congrArg (fun x => x.1.fullName scope) hf :)
  rw [bare_place h, bare_place h', hfield, hname, hf]

/-- Both dictionaries have the same messages, as far as fields go. -/
def AgreeEssence (entries entries' : Dict MessageDecl) : Prop :=
  ∀ t, (entries.get? t).map MessageDecl.essence = (entries'.get? t).map MessageDecl.essence

theorem told_entry?_eq (hf : m.told f = m'.told f') :
    FieldDecl.entry? entries path f = FieldDecl.entry? entries path f' :=
  (congrArg (fun x => FieldDecl.entry? entries path x.1) hf :)

/-- What a field becomes depends on what is said of it and of the entries of maps. -/
theorem bare_fieldOf (h : AgreeEssence entries entries') (hf : m.told f = m'.told f')
    (path : List String) (scope : String) :
    (fieldOf entries path scope m f).bare = (fieldOf entries' path scope m' f').bare := by
  induction path, scope, m, f using fieldOf.induct entries generalizing m' f' with
  | case1 path scope m f ih =>
    have hname : f.name = f'.name := (congrArg (·.1.name) hf :)
    rcases entry?_cases h path f with ⟨he, he'⟩ | ⟨t, e, e', he, he', heq⟩
    · have hplain : f.plain = f'.plain := (congrArg (·.1.plain) hf :)
      rw [told_entry?_eq hf] at he'
      rw [fieldOf_of_entry?_none he, fieldOf_of_entry?_none he']
      exact bare_place_congr hf oneof_plain oneof_plain (by rw [hplain])
    · rw [told_entry?_eq hf] at he'
      rw [fieldOf_of_entry?_some he, fieldOf_of_entry?_some he']
      refine bare_place_congr hf rfl rfl ?_
      have hvalue : e.valueDecl?.map (Field.bare ∘ fieldOf entries (t :: path) t e)
          = e'.valueDecl?.map (Field.bare ∘ fieldOf entries' (t :: path) t e') :=
        MessageDecl.valueDecl?_of_essence heq fun v v' _ => ih t e he v
      rw [bare_ofMap, bare_ofMap, hname, MessageDecl.keyKind_of_essence heq,
        ← Option.getD_map Field.bare, ← Option.getD_map Field.bare, Option.map_map, Option.map_map,
        hvalue]

theorem requiredNames_of_told (h : AgreeEssence entries entries') (hf : m.told f = m'.told f')
    (path : List String) (scope : String) :
    requiredNames entries path scope f = requiredNames entries' path scope f' := by
  induction path, scope, f using requiredNames.induct entries generalizing m m' f' with
  | case1 path scope f ih =>
    have hrequired : f.isRequired = f'.isRequired := (congrArg (·.1.isRequired) hf :)
    have hname : f.fullName scope = f'.fullName scope := (congrArg (·.1.fullName scope) hf :)
    rcases entry?_cases h path f with ⟨he, he'⟩ | ⟨t, e, e', he, he', heq⟩
    · rw [told_entry?_eq hf] at he'
      rw [requiredNames_of_entry?_none he, requiredNames_of_entry?_none he', hrequired, hname]
    · rw [told_entry?_eq hf] at he'
      rw [requiredNames_of_entry?_some he, requiredNames_of_entry?_some he', hrequired, hname,
        MessageDecl.valueDecl?_of_essence heq fun v v' _ => ih t e he v]

end

/-! ## Requests that say the same -/

/-- Two declarations say the same under one full name. -/
def SaysSame (x x' : String × MessageDecl) : Prop :=
  x.1 = x'.1 ∧ x.2.essence = x'.2.essence

theorem forall₂_told {m m' : MessageDecl} (h : m.essence = m'.essence) :
    List.Forall₂ (fun f f' => m.told f = m'.told f') m.fields m'.fields := by
  have heq : m.fields.map m.told = m'.fields.map m'.told := (congrArg (·.2) h :)
  rw [← List.forall₂_eq_eq_eq, List.forall₂_map_left_iff, List.forall₂_map_right_iff] at heq
  exact heq

/-- Declarations that say the same stand for the entries of maps or do not, both of them. -/
theorem forall₂_filter (test : Bool → Bool) {xs xs' : List (String × MessageDecl)}
    (h : List.Forall₂ SaysSame xs xs') : List.Forall₂ SaysSame
      (xs.filter fun x => test x.2.isMapEntry) (xs'.filter fun x => test x.2.isMapEntry) :=
  List.rel_filter (fun _ _ hx => iff_of_eq (by simp only [MessageDecl.isMapEntry_congr hx.2])) h

/-- The requests declare the same types in the same order, apart from groups that were made up. -/
structure Request.Alike (r r' : Request) : Prop where
  messages : List.Forall₂ SaysSame r.messages r'.messages
  enums : r.enums = r'.enums

theorem Request.Alike.entries {r r' : Request} (h : r.Alike r') :
    AgreeEssence r.entries r'.entries := by
  refine List.rel_foldl (P := AgreeEssence) (fun d d' hd x x' hx t => ?_) (fun t => rfl)
    (forall₂_filter id h.messages)
  rw [Dict.get?_insert, Dict.get?_insert, hx.1]
  split
  · exact congrArg some hx.2
  · exact hd t

namespace Corpus

theorem bare_message {entries entries' : Dict MessageDecl} (h : AgreeEssence entries entries')
    {x x' : String × MessageDecl} (hx : SaysSame x x') :
    (message entries x).bare = (message entries' x').bare := by
  obtain ⟨n, m⟩ := x
  obtain ⟨n', m'⟩ := x'
  obtain ⟨rfl, hm⟩ := hx
  have hfields : (m.fields.map (fieldOf entries [] n m)).map Field.bare
      = (m'.fields.map (fieldOf entries' [] n m')).map Field.bare := by
    rw [List.map_map, List.map_map]
    exact map_eq_of_forall₂ (forall₂_told hm) fun f f' hf => bare_fieldOf h hf [] n
  simp only [message, Message.bare, hfields]

theorem message?_foldl_congr {ms ms' : List Message}
    (h : List.Forall₂ (fun m m' => m.bare = m'.bare) ms ms') (n : String) :
    ((ms.foldl Pool.addMessage .empty).message? n).map Message.bare
      = ((ms'.foldl Pool.addMessage .empty).message? n).map Message.bare := by
  refine List.rel_foldl
    (P := fun pool pool' : Pool => ∀ n, (pool.message? n).map Message.bare
      = (pool'.message? n).map Message.bare)
    (fun pool pool' hpool m m' hm n => ?_) (fun n => rfl) h n
  have hname : m.fullName = m'.fullName := (congrArg (·.fullName) hm :)
  rw [Pool.message?_addMessage, Pool.message?_addMessage, hname]
  split
  · exact congrArg some hm
  · exact hpool n

variable {r r' : Request}

theorem alike_poolOf (h : r.Alike r') : (poolOf r).Alike (poolOf r') where
  messages n := by
    have hmessages : List.Forall₂ (fun m m' => m.bare = m'.bare)
        (r.ordinary.map (message r.entries)) (r'.ordinary.map (message r'.entries)) := by
      rw [List.forall₂_map_left_iff, List.forall₂_map_right_iff]
      exact (forall₂_filter (!·) h.messages).imp fun _ _ => bare_message h.entries
    have hfold := message?_foldl_congr hmessages n
    simpa only [poolOf, Pool.ofTypes, Pool.message?, Pool.messages_foldl_addEnum] using hfold
  enums := by
    funext n
    rw [enum?_poolOf_eq, enum?_poolOf_eq, h.enums]

theorem requiredOf_alike (h : r.Alike r') : requiredOf r = requiredOf r' := by
  have hnames : (r.ordinary.flatMap fun x => x.2.fields.flatMap (requiredNames r.entries [] x.1))
      = r'.ordinary.flatMap fun x => x.2.fields.flatMap (requiredNames r'.entries [] x.1) := by
    refine flatMap_eq_of_forall₂ (forall₂_filter (!·) h.messages) fun x x' hx => ?_
    refine flatMap_eq_of_forall₂ (forall₂_told hx.2) fun f f' hf => ?_
    rw [hx.1]
    exact requiredNames_of_told h.entries hf [] x'.1
  simp only [requiredOf, hnames]

end Corpus

/-! ## Requests with more optional fields -/

namespace MessageDecl

variable {m m' : MessageDecl}

/-- A field that is made optional says the same as before. -/
theorem told_of_madeOptional {name name' : Option String} {fields fields' : List FieldDecl}
    {nested nested' : List MessageDecl} {enums enums' : List EnumDecl}
    {options options' : Option MessageOptions} {oneofs added : List NamedDecl} {f f' : FieldDecl}
    (h : f.MadeOptional oneofs.length (oneofs ++ added).length f')
    (hrange : ∀ i ∈ f.oneofIndex, i < oneofs.length) :
    told ⟨name, fields, nested, enums, options, oneofs⟩ f
      = told ⟨name', fields', nested', enums', options', oneofs ++ added⟩ f' := by
  cases h with
  | same =>
    refine Prod.ext rfl ?_
    simp only [told, oneof?]
    split
    · next i hi =>
      have hlt : i < oneofs.length := Int.ofNat_lt.1 (hrange _ hi)
      rw [List.getElem?_append_left hlt]
    · rfl
  | @optional i hfree =>
    refine Prod.ext rfl ?_
    simp only [told, oneof?, hfree, FieldDecl.withGroup]
    cases (oneofs ++ added)[i]? <;> rfl

theorem essence_of_madeOptional (h : m.MadeOptional m')
    (hrange : ∀ f ∈ m.fields, ∀ i ∈ f.oneofIndex, i < m.oneofs.length) :
    m.essence = m'.essence := by
  cases h with
  | intro hfields hnested =>
    refine Prod.ext rfl ?_
    exact map_eq_of_forall₂ ((List.forall₂_and_left _ _).2 ⟨hrange, hfields⟩) fun f f' hf =>
      told_of_madeOptional hf.2 hf.1

/-- What is declared inside changes likewise, under the same full names. -/
theorem declared_of_madeOptional (h : m.MadeOptional m') (scope : String) :
    List.Forall₂ (fun x x' => x.1 = x'.1 ∧ x.2.MadeOptional x'.2) (m.declared scope)
      (m'.declared scope) := by
  induction m using induct generalizing m' scope with
  | h m ih =>
    rw [declared_eq, declared_eq]
    cases h with
    | intro hfields hnested =>
      have hinside := (List.forall₂_and_left _ _).2 ⟨ih, hnested⟩
      refine List.rel_append ?_ (.cons ⟨rfl, .intro hfields hnested⟩ .nil)
      exact List.rel_flatMap hinside fun d d' hd => hd.1 hd.2 _

theorem declaredEnums_of_madeOptional (h : m.MadeOptional m') (scope : String) :
    m.declaredEnums scope = m'.declaredEnums scope := by
  induction m using induct generalizing m' scope with
  | h m ih =>
    rw [declaredEnums_eq, declaredEnums_eq]
    cases h with
    | intro hfields hnested =>
      have hinside := (List.forall₂_and_left _ _).2 ⟨ih, hnested⟩
      exact congrArg _ (flatMap_eq_of_forall₂ hinside fun d d' hd => hd.1 hd.2 _)

end MessageDecl

namespace Request

variable {r r' : Request}

theorem messages_of_madeOptional (h : r.MadeOptional r') :
    List.Forall₂ (fun x x' => x.1 = x'.1 ∧ x.2.MadeOptional x'.2) r.messages r'.messages := by
  obtain ⟨files, hfiles, rfl⟩ := h
  refine List.rel_flatMap hfiles ?_
  rintro f _ ⟨messages, hmessages, rfl⟩
  exact List.rel_flatMap hmessages fun m m' hm => MessageDecl.declared_of_madeOptional hm f.scope

theorem enums_of_madeOptional (h : r.MadeOptional r') : r.enums = r'.enums := by
  obtain ⟨files, hfiles, rfl⟩ := h
  refine flatMap_eq_of_forall₂ hfiles ?_
  rintro f _ ⟨messages, hmessages, rfl⟩
  exact congrArg (MessageDecl.enumsOf f.scope f.enums ++ ·)
    (flatMap_eq_of_forall₂ hmessages fun m m' hm =>
      MessageDecl.declaredEnums_of_madeOptional hm f.scope)

/-- Requests say the same if fields are made optional. -/
theorem alike_of_madeOptional (h : r.MadeOptional r') (hrange : r.OneofsInRange) : r.Alike r' where
  messages := ((List.forall₂_and_left _ _).2 ⟨hrange, messages_of_madeOptional h⟩).imp
    fun _ _ hx => ⟨hx.2.1, MessageDecl.essence_of_madeOptional hx.2.2 hx.1⟩
  enums := enums_of_madeOptional h

/-- The sources of a request have no fields. -/
theorem sources_of_madeOptional (h : r.MadeOptional r') (requested : List String) :
    (r.files.map fun f => f.toSource requested) = r'.files.map fun f => f.toSource requested := by
  obtain ⟨files, hfiles, rfl⟩ := h
  refine map_eq_of_forall₂ hfiles ?_
  rintro f _ ⟨messages, -, rfl⟩
  rfl

end Request
end McpCatalog
